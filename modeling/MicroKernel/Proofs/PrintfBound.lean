import MicroKernel.Proofs.Printf
import MicroKernel.Spec.Directive

/-!
# How far `shell_printf` writes

The main loop tests the room once for each directive, and the `%s` loop once
for each character. Every other conversion stores all it has. So what is
stored stays inside `buf`, the terminator included, exactly where no such
conversion begins inside and reaches past the last index.
-/

namespace MicroKernel.Proofs

open MicroKernel.Core Spec Numeral

/-- On this format and these arguments, all that `shell_printf` stores in its
512 bytes has an index up to 511; the terminator has the last one. -/
def StoresInside (fmt : List U8) (args : List Arg) : Prop :=
  ∃ st, printfLoop fmt.length { f := fmt, args, buf := [] } = some st ∧
    st.buf.length ≤ 511

theorem skipPad_pad {pad : List U8} {c : U8} (h : Pad pad c) (f : List U8) :
    skipPad (pad ++ c :: f) = c :: f := by
  cases h with
  | none hc => exact if_neg hc
  | zero hds hc =>
      show (_ ++ c :: f).dropWhile isDigit = _
      rw [List.dropWhile_append_of_pos hds, List.dropWhile_cons_of_neg (by simp [hc])]

theorem hexWidth_length (v : U32) (w : Nat) : (hexWidth v w).length = w := by
  induction w with
  | zero => rfl
  | succ w ih => rw [hexWidth, List.length_cons, ih]

/-- A conversion stores all its characters, unless it is `%s`. -/
theorem convert_all (k : Conversion) (f buf : List U8) (args : List Arg)
    (hstr : ∀ s, k ≠ .str s) :
    ∃ cs, convert k.letter ⟨f, k.args ++ args, buf⟩ = some ⟨f, args, buf ++ cs⟩ ∧
      cs.length = k.width := by
  cases k with
  | str s => exact absurd rfl (hstr s)
  | dec v => exact ⟨decimalChars v, rfl, by rw [decimalChars_eq]; rfl⟩
  | hex v => exact ⟨hexChars v 8 false, rfl, by rw [hexChars_word]; rfl⟩
  | low2 v => exact ⟨hexWidth v 2, rfl, hexWidth_length v 2⟩
  | low8 v => exact ⟨hexWidth v 8, rfl, hexWidth_length v 8⟩
  | char v => exact ⟨[v.setWidth 8], rfl, rfl⟩
  | percent => exact ⟨[chr '%'], rfl, rfl⟩
  | other c hnul hother =>
      have hne : ∀ x ∈ ascii "sdx028c%", c ≠ x := fun x hx h => hother (h ▸ hx)
      have hdigit : ¬ (c = chr '0' ∨ c = chr '2' ∨ c = chr '8') := by
        rw [not_or, not_or]
        exact ⟨hne _ (by decide), hne _ (by decide), hne _ (by decide)⟩
      refine ⟨[c], ?_, rfl⟩
      show convert c ⟨f, args, buf⟩ = _
      rw [convert, if_neg (hne _ (by decide)), if_neg (hne _ (by decide)),
        if_neg (hne _ (by decide)), if_neg hdigit, if_neg (hne _ (by decide)),
        if_neg (hne _ (by decide))]
      rfl

/-- `%s` stops at the last index. -/
theorem convert_str (s f buf : List U8) (args : List Arg) :
    ∃ cs, convert (chr 's') ⟨f, .str s :: args, buf⟩ = some ⟨f, args, buf ++ cs⟩ ∧
      cs.length = min (511 - buf.length) (cstr s).length :=
  ⟨(cstr s).take (511 - buf.length), rfl, List.length_take⟩

/-- One round on a directive that begins inside: the characters stored. -/
theorem printfLoop_directive (d : Directive) {n : Nat} (f : List U8)
    {buf : List U8} (args : List Arg) (hroom : buf.length < 511) :
    ∃ cs, printfLoop (n + 1) ⟨d.fmt ++ f, d.args ++ args, buf⟩ =
        printfLoop n ⟨f, args, buf ++ cs⟩ ∧
      (¬ d.IsString → cs.length = d.width) ∧
      (d.IsString → cs.length = min (511 - buf.length) d.width) := by
  cases d with
  | lit c hnul hpercent =>
      exact ⟨[c], printfLoop_lit hnul hpercent hroom, fun _ => rfl, fun h => h.elim⟩
  | conv pad k hpad =>
      have hskip : skipPad ((pad ++ [k.letter]) ++ f) = k.letter :: f := by
        rw [List.append_assoc]
        exact skipPad_pad hpad f
      have hround := @printfLoop_conversion n _ _ _ _ (k.args ++ args) hskip hroom
      by_cases hstr : ∃ s, k = .str s
      · obtain ⟨s, rfl⟩ := hstr
        obtain ⟨cs, hconv, hlen⟩ := convert_str s f buf args
        refine ⟨cs, hround.trans ?_, fun h => absurd trivial h, fun _ => hlen⟩
        exact congrArg (fun r => Option.bind r (printfLoop n)) hconv
      · have hne : ∀ s, k ≠ .str s := fun s h => hstr ⟨s, h⟩
        obtain ⟨cs, hconv, hlen⟩ := convert_all k f buf args hne
        refine ⟨cs, hround.trans ?_, fun _ => hlen, fun h => ?_⟩
        · exact congrArg (fun r => Option.bind r (printfLoop n)) hconv
        · cases k with
          | str s => exact absurd rfl (hne s)
          | _ => exact h.elim

theorem formatOf_cons_nul (ds : List Directive) : ∃ c f, formatOf ds = c :: f := by
  cases ds with
  | nil => exact ⟨_, _, rfl⟩
  | cons d ds => cases d <;> exact ⟨_, _, formatOf_cons _ _⟩

theorem formatOf_length (ds : List Directive) : ds.length < (formatOf ds).length := by
  rw [formatOf, List.length_append]
  exact Nat.lt_succ_of_le (flatMap_fmt_length ds)

theorem printfLoop_full {n : Nat} (ds : List Directive) {buf : List U8}
    {args : List Arg} (hfull : 511 ≤ buf.length) :
    printfLoop (n + 1) ⟨formatOf ds, args, buf⟩ = some ⟨formatOf ds, args, buf⟩ := by
  obtain ⟨c, f, hf⟩ := formatOf_cons_nul ds
  rw [hf]
  exact printfLoop_stop rfl (Or.inr hfull)

/-- The run from any place inside. -/
theorem printfLoop_inside (ds : List Directive) :
    ∀ (n : Nat) (buf : List U8), ds.length < n → buf.length ≤ 511 →
      ∃ st, printfLoop n ⟨formatOf ds, argumentsOf ds, buf⟩ = some st ∧
        (st.buf.length ≤ 511 ↔ FitsFrom buf.length ds) := by
  induction ds with
  | nil =>
      intro n buf hn hlen
      obtain ⟨n, rfl⟩ : ∃ k, n = k + 1 := ⟨n - 1, by omega⟩
      exact ⟨_, printfLoop_stop rfl (Or.inl rfl), iff_of_true hlen (fitsFrom_nil _)⟩
  | cons d ds ih =>
      intro n buf hn hlen
      rw [List.length_cons] at hn
      obtain ⟨n, rfl⟩ : ∃ k, n = k + 1 := ⟨n - 1, by omega⟩
      by_cases hroom : buf.length < 511
      · obtain ⟨cs, hround, hall, hstr⟩ := printfLoop_directive d (n := n)
          (formatOf ds) (argumentsOf ds) hroom
        rw [formatOf_cons, argumentsOf_cons, hround, fitsFrom_cons]
        have hsum : (buf ++ cs).length = buf.length + cs.length := List.length_append
        obtain ⟨m, rfl⟩ : ∃ k, n = k + 1 := ⟨n - 1, by omega⟩
        by_cases hs : d.IsString
        · rw [hstr hs] at hsum
          by_cases hin : buf.length + d.width ≤ 511
          · obtain ⟨st, hrun, hiff⟩ := ih (m + 1) (buf ++ cs) (by omega) (by omega)
            have hwhole : (buf ++ cs).length = buf.length + d.width := by omega
            rw [hwhole] at hiff
            exact ⟨st, hrun, hiff.trans ⟨fun h => ⟨fun hn => absurd hs hn, h⟩, And.right⟩⟩
          · -- the string is cut off, and nothing follows it
            refine ⟨_, printfLoop_full ds (by omega), iff_of_true ?_ ?_⟩
            · show (buf ++ cs).length ≤ 511
              omega
            · exact ⟨fun hn => absurd hs hn, fitsFrom_full (by omega) _⟩
        · rw [hall hs] at hsum
          by_cases hin : buf.length + d.width ≤ 511
          · obtain ⟨st, hrun, hiff⟩ := ih (m + 1) (buf ++ cs) (by omega) (by omega)
            rw [hsum] at hiff
            refine ⟨st, hrun, hiff.trans ⟨fun h => ⟨fun _ _ => hin, h⟩, And.right⟩⟩
          · -- the conversion has run over the end
            refine ⟨_, printfLoop_full ds (by omega), iff_of_false ?_ fun h => ?_⟩
            · show ¬ (buf ++ cs).length ≤ 511
              omega
            · exact hin (h.1 hs hroom)
      · have hfull : 511 ≤ buf.length := Nat.le_of_not_lt hroom
        exact ⟨_, printfLoop_full _ hfull, iff_of_true hlen (fitsFrom_full hfull _)⟩

theorem StoresInside.fits {ds : List Directive}
    (h : StoresInside (formatOf ds) (argumentsOf ds)) : FitsFrom 0 ds := by
  obtain ⟨st, hrun, hlen⟩ := h
  obtain ⟨st', hrun', hiff⟩ := printfLoop_inside ds (formatOf ds).length []
    (formatOf_length ds) (by decide)
  obtain rfl := Option.some.inj (hrun.symm.trans hrun')
  exact hiff.1 hlen

/-- Nothing is stored past the end of `buf` exactly where no conversion but `%s`
begins inside it and needs more than is left. -/
theorem storesInside_iff (ds : List Directive) :
    StoresInside (formatOf ds) (argumentsOf ds) ↔ FitsFrom 0 ds := by
  refine ⟨StoresInside.fits, fun h => ?_⟩
  obtain ⟨st, hrun, hiff⟩ := printfLoop_inside ds (formatOf ds).length []
    (formatOf_length ds) (by decide)
  exact ⟨st, hrun, hiff.2 h⟩

theorem widthOf_lits {c : U8} (hnul : c ≠ 0) (hpercent : c ≠ chr '%') (n : Nat) :
    widthOf (List.replicate n (.lit c hnul hpercent)) = n := by
  induction n with
  | zero => rfl
  | succ n ih =>
      rw [List.replicate_succ, widthOf_cons, ih]
      exact Nat.add_comm 1 n

/-- Characters up to the index before the last, and a number of two digits. -/
def overrun : List Directive :=
  List.replicate 510 (.lit (chr 'a') (by decide) (by decide)) ++
    [.conv [] (.dec 10) (.none (by decide))]

theorem storesInside_overrun :
    ¬ StoresInside (formatOf overrun) (argumentsOf overrun) := by
  intro h
  have hend := h.fits (List.replicate 510 (.lit (chr 'a') (by decide) (by decide)))
    (.conv [] (.dec 10) (.none (by decide))) [] rfl id
  rw [widthOf_lits] at hend
  exact absurd (hend (by decide)) (by decide)

end MicroKernel.Proofs
