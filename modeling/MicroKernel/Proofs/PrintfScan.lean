import MicroKernel.Proofs.PrintfBound

/-!
# Where the scan of `shell_printf` ends

The main loop looks for the terminator once in each round, and a specifier moves
`f` on without looking. One that is cut off leaves `f` on the terminator for the
`switch`, which stores it as a letter it does not know, and the loop steps over
it. So the scan stays inside the format unless it comes to such a specifier with
room in the buffer.
-/

namespace MicroKernel.Proofs

open MicroKernel.Core Spec

/-- The scan ends, on the terminator or with the buffer full. It has read nothing
behind the terminator, where the model has no character. -/
def ScanStops (fmt : List U8) (args : List Arg) : Prop :=
  ∃ st, printfLoop (fmt ++ [0]).length { f := fmt ++ [0], args, buf := [] } = some st ∧
    (st.f = [0] ∨ 511 ≤ st.buf.length)

/-- One round on a directive that begins inside. -/
theorem printfLoop_round (d : Directive) {n : Nat} (f : List U8) {buf : List U8}
    (args : List Arg) (hroom : buf.length < 511) :
    ∃ cs, printfLoop (n + 1) ⟨d.fmt ++ f, d.args ++ args, buf⟩ =
        printfLoop n ⟨f, args, buf ++ cs⟩ ∧
      (buf.length + d.width < 511 → cs.length = d.width) ∧
      (511 ≤ buf.length + d.width → 511 ≤ (buf ++ cs).length) := by
  obtain ⟨cs, hround, hall, hstr⟩ := printfLoop_directive d (n := n) f args hroom
  refine ⟨cs, hround, fun h => ?_, fun h => ?_⟩
  · by_cases hs : d.IsString
    · rw [hstr hs]
      omega
    · exact hall hs
  · rw [List.length_append]
    by_cases hs : d.IsString
    · rw [hstr hs]
      omega
    · rw [hall hs]
      exact h

section
variable {ds : List Directive} {rest : List Arg} {c : U8} {f buf : List U8}

/-- Directives that leave room in the buffer are all read. -/
theorem printfLoop_reads (n : Nat) (rest : List Arg) (hroom : buf.length + widthOf ds < 511) :
    ∃ cs, printfLoop (n + ds.length)
        ⟨ds.flatMap Directive.fmt ++ f, argumentsOf ds ++ rest, buf⟩ =
      printfLoop n ⟨f, rest, buf ++ cs⟩ ∧ cs.length = widthOf ds := by
  induction ds generalizing buf with
  | nil => exact ⟨[], by simp [argumentsOf], rfl⟩
  | cons d ds ih =>
      rw [widthOf_cons] at hroom
      have hhead : buf.length < 511 := by omega
      obtain ⟨cs, hround, hlen, -⟩ := printfLoop_round d (n := n + ds.length)
        (ds.flatMap Directive.fmt ++ f) (argumentsOf ds ++ rest) hhead
      have hcs := hlen (by omega)
      have htail : (buf ++ cs).length + widthOf ds < 511 := by
        rw [List.length_append]
        omega
      obtain ⟨cs', hrun, hlen'⟩ := ih htail
      refine ⟨cs ++ cs', ?_, ?_⟩
      · rw [List.flatMap_cons, argumentsOf_cons, List.append_assoc, List.append_assoc,
          List.length_cons, ← Nat.add_assoc, hround, hrun, List.append_assoc]
      · rw [List.length_append, hcs, hlen', widthOf_cons]

/-- Directives that ask for more than there is room for end the scan. -/
theorem printfLoop_fills {n : Nat} (rest : List Arg) (hn : ds.length < n)
    (hfull : 511 ≤ buf.length + widthOf ds) :
    ∃ st, printfLoop n ⟨ds.flatMap Directive.fmt ++ c :: f, argumentsOf ds ++ rest, buf⟩ =
      some st ∧ 511 ≤ st.buf.length := by
  induction ds generalizing buf n with
  | nil =>
      obtain ⟨n, rfl⟩ : ∃ k, n = k + 1 := ⟨n - 1, by omega⟩
      exact ⟨_, printfLoop_stop rfl (Or.inr hfull), hfull⟩
  | cons d ds ih =>
      obtain ⟨n, rfl⟩ : ∃ k, n = k + 1 := ⟨n - 1, by omega⟩
      rw [List.length_cons] at hn
      rw [widthOf_cons] at hfull
      by_cases hroom : buf.length < 511
      · obtain ⟨cs, hround, hin, hover⟩ := printfLoop_round d (n := n)
          (ds.flatMap Directive.fmt ++ c :: f) (argumentsOf ds ++ rest) hroom
        rw [List.length_append] at hover
        have htail : 511 ≤ (buf ++ cs).length + widthOf ds := by
          rw [List.length_append]
          omega
        obtain ⟨st, hst, hlen⟩ := ih (n := n) (by omega) htail
        refine ⟨st, ?_, hlen⟩
        rw [List.flatMap_cons, argumentsOf_cons, List.append_assoc, List.append_assoc, hround, hst]
      · obtain ⟨x, g, hg⟩ := List.exists_cons_of_ne_nil
          (l := (d :: ds).flatMap Directive.fmt ++ c :: f) (by simp)
        rw [hg]
        exact ⟨_, printfLoop_stop rfl (Or.inr (Nat.le_of_not_lt hroom)), Nat.le_of_not_lt hroom⟩

/-- The round on a specifier that is cut off stores the terminator, and there is
nothing left to read for the next one. -/
theorem printfLoop_cutOff {tail : List U8} (htail : CutOff tail) (n : Nat)
    (hroom : buf.length < 511) :
    printfLoop (n + 1) ⟨tail ++ [0], rest, buf⟩ = printfLoop n ⟨[], rest, buf ++ [0]⟩ := by
  have hnul : convert 0 ⟨[], rest, buf⟩ = some ⟨[], rest, buf ++ [0]⟩ := rfl
  cases htail with
  | percent =>
      refine (printfLoop_conversion (c := 0) (f := []) ?_ hroom).trans ?_
      · rfl
      · rw [hnul, Option.bind_some]
  | padded hds =>
      refine (printfLoop_conversion (c := 0) (f := []) ?_ hroom).trans ?_
      · show List.dropWhile isDigit (_ ++ [0]) = _
        rw [List.dropWhile_append_of_pos hds]
        rfl
      · rw [hnul, Option.bind_some]

theorem printfLoop_nothing (n : Nat) : printfLoop n ⟨[], rest, buf⟩ = none := by
  cases n <;> rfl

end

/-- The scan of a format that has been read as `ds` and `tail`. -/
theorem scanStops_spells {fmt : List U8} {args : List Arg} {ds : List Directive}
    {tail : List U8} (h : Spells fmt args ds tail) (htail : tail = [] ∨ CutOff tail) :
    ScanStops fmt args ↔ (CutOff tail → 511 ≤ widthOf ds) := by
  obtain ⟨rfl, rest, rfl⟩ := h
  obtain ⟨k, hk⟩ : ∃ k, (ds.flatMap Directive.fmt ++ tail ++ [0]).length = k + 1 + ds.length := by
    have hlen := flatMap_fmt_length ds
    refine ⟨(ds.flatMap Directive.fmt ++ tail ++ [0]).length - 1 - ds.length, ?_⟩
    rw [List.length_append, List.length_append, List.length_singleton]
    omega
  rw [ScanStops, hk, List.append_assoc]
  by_cases hfull : 511 ≤ widthOf ds
  · obtain ⟨x, g, hg⟩ := List.exists_cons_of_ne_nil (l := tail ++ [0]) (by simp)
    rw [hg]
    have hfuel : ds.length < k + 1 + ds.length := by omega
    have hwidth : 511 ≤ ([] : List U8).length + widthOf ds := by
      rwa [List.length_nil, Nat.zero_add]
    obtain ⟨st, hst, hlen⟩ := printfLoop_fills (c := x) (f := g) rest hfuel hwidth
    exact iff_of_true ⟨st, hst, Or.inr hlen⟩ fun _ => hfull
  · have hwidth : ([] : List U8).length + widthOf ds < 511 := by
      rw [List.length_nil]
      omega
    obtain ⟨cs, hrun, hlen⟩ := printfLoop_reads (f := tail ++ [0]) (k + 1) rest hwidth
    rw [hrun, List.nil_append]
    obtain rfl | hcut := htail
    · refine iff_of_true ⟨_, printfLoop_stop rfl (Or.inl rfl), Or.inl rfl⟩ fun h => ?_
      cases h
    · rw [printfLoop_cutOff hcut k (by omega), printfLoop_nothing]
      refine iff_of_false ?_ fun h => hfull (h hcut)
      rintro ⟨_, h, -⟩
      cases h

/-- The scan stays inside the format, and so ends, exactly where it does not come
to a specifier that is cut off with room in the buffer. -/
theorem scanStops_iff {fmt : List U8} {args : List Arg} (h : LongEnough fmt args) :
    ScanStops fmt args ↔ ¬ CutShort fmt args := by
  obtain ⟨ds, tail, hspells, htail⟩ := h
  constructor
  · rintro hstops ⟨ds', tail', hspells', hcut', hroom⟩
    have hfull := (scanStops_spells hspells' (Or.inr hcut')).1 hstops hcut'
    omega
  · intro hshort
    refine (scanStops_spells hspells htail).2 fun hcut => Nat.le_of_not_lt fun hroom => ?_
    exact hshort ⟨ds, tail, hspells, hcut, hroom⟩

theorem scanStops_iff_two_hex :
    ScanStops (ascii "%02x%") [.int 7] ↔ ¬ CutShort (ascii "%02x%") [.int 7] := by
  have hpad : Pad (chr '0' :: ascii "2") (Conversion.hex 7).letter := .zero (by decide) (by decide)
  exact scanStops_iff ⟨[.conv _ (.hex 7) hpad], [chr '%'], ⟨rfl, [], rfl⟩, Or.inr .percent⟩

/-- A percent sign and nothing else. -/
theorem scanStops_percent :
    ¬ ∀ fmt args, 0 ∉ fmt → LongEnough fmt args → ScanStops fmt args := by
  intro h
  have hpercent : Spells (ascii "%") [] [] [chr '%'] := ⟨rfl, [], rfl⟩
  obtain ⟨st, hst, -⟩ := h (ascii "%") [] (by decide) ⟨[], _, hpercent, Or.inr .percent⟩
  exact Option.some_ne_none st (hst.symm.trans (by decide))

end MicroKernel.Proofs
