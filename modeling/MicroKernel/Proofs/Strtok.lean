import MicroKernel.Proofs.StringFns
import MicroKernel.Spec.Tokens

/-!
# A whole sequence of `strtok` calls

The calls cut the string, each for its own delimiters, and answer with the
places where the tokens begin and then with null pointers. The induction is on
the calls. What is finished lies before the static pointer and no call reads
it, so one call leaves the next one the same problem on a shorter string.
-/

namespace MicroKernel.Proofs

open Kernel Spec

theorem plain_iff {delim t : List U8} :
    Split.Plain (isDelim delim) t ↔ ∀ x ∈ t, x ∉ delim := by
  refine forall₂_congr fun x _ => ?_
  rw [← isDelim_iff, Bool.not_eq_true]

/-! ## The calls -/

/-- What the calls leave in the array: the cuts with their terminators, and
everything else as it was. -/
structure Tokenized {n : Nat} (q junk : List U8) (cuts : List Cut) (rest : List U8)
    (b : CArray U8 n) : Prop where
  cells : b.cells = q ++ cutEnded cuts ++ rest ++ 0 :: junk
  tokens : List.Forall₂ (fun p c => loadStr b p = some c.token)
    (cutStarts q.length cuts) cuts

theorem strtokCalls_cons {n : Nat} {a b : CArray U8 n} {last str last' : Option Nat}
    {delim : List U8} {delims : List (List U8)} {token : Option Nat}
    (h : strtok a last str delim = some (token, b, last')) :
    strtokCalls a last str (delim :: delims) =
      (strtokCalls b last' none delims).map fun r => (token :: r.1, r.2) := by
  rw [strtokCalls, h]
  cases h' : strtokCalls b last' none delims <;> simp [h']

/-- The calls cut the string that begins behind `q`. -/
def CallsCut {n : Nat} (a : CArray U8 n) (q s junk : List U8)
    (delims : List (List U8)) : Prop :=
  ∃ cuts rest b, strtokCalls a (some q.length) none delims =
      some ((cutStarts q.length cuts).map some ++
        List.replicate (delims.length - cuts.length) none, b,
        some (q.length + (cutText cuts).length)) ∧
    Cuts s delims cuts rest ∧ Tokenized q junk cuts rest b

section
variable {n : Nat} {a : CArray U8 n} {q s junk delim : List U8}
  {delims : List (List U8)}

theorem CallsCut.noCall (hbuf : a.cells = q ++ s ++ 0 :: junk) :
    CallsCut a q s junk [] := by
  refine ⟨[], s, a, rfl, Cuts.nil fun h => absurd rfl h, ?_, .nil⟩
  rw [hbuf, cutEnded, List.flatMap_nil, List.append_nil]

theorem CallsCut.nul (h : CallsCut a q [] junk delims)
    (hbuf : a.cells = q ++ 0 :: junk) : CallsCut a q [] junk (delim :: delims) := by
  obtain ⟨cuts, rest, b, hrun, hcuts, htok⟩ := h
  obtain rfl := hcuts.of_nil
  obtain rfl : rest = [] := hcuts.whole
  refine ⟨[], [], b, ?_, Cuts.nil fun _ => rfl, htok⟩
  rw [strtokCalls_cons (strtok_nul rfl hbuf), hrun]
  rfl

/-- The last token, which the terminator of the string ends. -/
theorem CallsCut.last (h : CallsCut a (q ++ s) [] junk delims) (hne : s ≠ [])
    (hplain : Split.Plain (isDelim delim) s) (hnul : 0 ∉ s)
    (hbuf : a.cells = q ++ s ++ 0 :: junk) :
    CallsCut a q s junk (delim :: delims) := by
  obtain ⟨cuts, rest, b, hrun, hcuts, htok⟩ := h
  obtain rfl := hcuts.of_nil
  obtain rfl : rest = [] := hcuts.whole
  have htext : (Cut.mk s none).text = s := List.append_nil s
  have hby : (Cut.mk s none).By delim := ⟨plain_iff.1 hplain, by simp⟩
  have hcells : b.cells = q ++ s ++ 0 :: junk := by
    rw [htok.cells]
    simp [cutEnded]
  refine ⟨[⟨s, none⟩], [], b, ?_, ?_, ?_, ?_⟩
  · rw [strtokCalls_cons (strtok_last rfl hne hplain hnul hbuf),
      ← List.length_append, hrun]
    simp [cutStarts, cutText, Cut.text]
  · have hone := hcuts.cons hby (htext.symm ▸ hne)
    rwa [htext, List.append_nil] at hone
  · rw [hcells]
    simp [cutEnded, Cut.ended]
  · exact .cons (loadStr_eq hnul hcells) .nil

theorem CallsCut.cut {t r : List U8} {x : U8} {b : CArray U8 n}
    (h : CallsCut b (q ++ t ++ [0]) r junk delims)
    (hcut : strtok a (some q.length) none delim =
      some (some q.length, b, some (q.length + t.length + 1)))
    (ht : Split.Plain (isDelim delim) t) (hx : isDelim delim x = true)
    (hnul : 0 ∉ t) : CallsCut a q (t ++ x :: r) junk (delim :: delims) := by
  obtain ⟨cuts, rest, c, hrun, hcuts, htok⟩ := h
  have hlen : (q ++ t ++ [0]).length = q.length + t.length + 1 := by
    simp [Nat.add_assoc]
  have htext : (Cut.mk t (some x)).text = t ++ [x] := rfl
  have hcells : c.cells = q ++ t ++ 0 :: (cutEnded cuts ++ rest ++ 0 :: junk) := by
    rw [htok.cells]
    simp
  have htokens := htok.tokens
  rw [hlen] at hrun htokens
  have hby : (Cut.mk t (some x)).By delim := by
    refine ⟨plain_iff.1 ht, fun y hy => ?_⟩
    obtain rfl := Option.mem_some_iff.1 hy
    exact isDelim_iff.1 hx
  refine ⟨⟨t, some x⟩ :: cuts, rest, c, ?_, ?_, ?_, ?_⟩
  · rw [strtokCalls_cons hcut, hrun, cutText_cons, htext]
    simp [cutStarts, htext, Nat.add_assoc]
    exact Nat.add_comm _ _
  · have hone := hcuts.cons hby (by simp [htext])
    rwa [htext, List.append_assoc] at hone
  · rw [hcells]
    simp [cutEnded, Cut.ended]
  · refine .cons (loadStr_eq hnul hcells) ?_
    rw [htext, List.length_append, List.length_singleton, ← Nat.add_assoc]
    exact htokens

end

theorem callsCut {n : Nat} (delims : List (List U8)) :
    ∀ (a : CArray U8 n) (q s junk : List U8), 0 ∉ s →
      a.cells = q ++ s ++ 0 :: junk → CallsCut a q s junk delims := by
  induction delims with
  | nil => exact fun a q s junk _ hbuf => CallsCut.noCall hbuf
  | cons delim delims ih =>
      intro a q s junk hnul hbuf
      by_cases hs : s = []
      · subst hs
        have hend : a.cells = q ++ 0 :: junk := by rw [hbuf, List.append_nil]
        exact (ih a q [] junk hnul hbuf).nul hend
      · obtain hplain | ⟨t, x, r, rfl, ht, hx⟩ :=
          Split.plain_or_cut (isDelim delim) s
        · have hend : a.cells = (q ++ s) ++ [] ++ 0 :: junk := by
            rw [hbuf, List.append_nil]
          exact (ih a (q ++ s) [] junk List.not_mem_nil hend).last hs hplain hnul hbuf
        · have hstart : none.or (some q.length) = some q.length := rfl
          obtain ⟨b, hcut, hb⟩ := strtok_cut hstart ht hx hnul hbuf
          have hnext : b.cells = (q ++ t ++ [0]) ++ r ++ 0 :: junk := by
            rw [hb]
            simp
          rw [List.mem_append, List.mem_cons, not_or, not_or] at hnul
          exact (ih b (q ++ t ++ [0]) r junk hnul.2.2 hnext).cut hcut ht hx hnul.1

/-- A first call on a string and any further calls, each with delimiters of its
own: they answer with the tokens and then with null pointers, the static
pointer stands behind what has been cut, and the array has changed where a
delimiter was. -/
theorem strtokCalls_cuts {n : Nat} {a : CArray U8 n} {q s junk : List U8}
    (last : Option Nat) (delim : List U8) (delims : List (List U8)) (hnul : 0 ∉ s)
    (hbuf : a.cells = q ++ s ++ 0 :: junk) :
    ∃ cuts rest b, strtokCalls a last (some q.length) (delim :: delims) =
        some ((cutStarts q.length cuts).map some ++
          List.replicate ((delim :: delims).length - cuts.length) none, b,
          some (q.length + (cutText cuts).length)) ∧
      Cuts s (delim :: delims) cuts rest ∧ Tokenized q junk cuts rest b :=
  callsCut (delim :: delims) a q s junk hnul hbuf

def commandLine : CArray U8 6 := ⟨ascii "a,b c" ++ [0], rfl⟩

theorem strtokCalls_commandLine : ∃ cuts rest b,
    strtokCalls commandLine none (some 0) [ascii ",", ascii " ", []] =
      some ((cutStarts 0 cuts).map some ++ List.replicate (3 - cuts.length) none, b,
        some (0 + (cutText cuts).length)) ∧
    Cuts (ascii "a,b c") [ascii ",", ascii " ", []] cuts rest ∧
    Tokenized [] [] cuts rest b := by
  have hnul : 0 ∉ ascii "a,b c" := by decide
  have hbuf : commandLine.cells = [] ++ ascii "a,b c" ++ 0 :: [] := rfl
  exact strtokCalls_cuts none (ascii ",") [ascii " ", []] hnul hbuf

end MicroKernel.Proofs
