import MicroKernel.Kernel.String
import MicroKernel.Lib.DigitBuffer
import MicroKernel.Lib.Split
import Mathlib.Data.List.Induction

/-!
# What the string functions do

One lemma per function, and for `strtok` one per way it can end. The string a
`strtok` call works on is what lies between its start and the next terminator;
the array is kept split there, so the characters before the start and behind
the terminator are seen not to matter.
-/

namespace MicroKernel.Proofs

open Kernel Numeral

/-- Different bytes have different numbers, which is what `strcmp` returns. -/
theorem byteDiff_ne_zero {x y : U8} (h : x ≠ y) :
    (x.toNat : Int) - y.toNat ≠ 0 := by
  intro hz
  exact h (BitVec.eq_of_toNat_eq (by omega))

theorem strcmp_spec {a b : List U8} (ha : 0 ∉ a) (hb : 0 ∉ b) (s : List U8) :
    ∃ k, strcmp (a ++ [0]) (b ++ 0 :: s) = some k ∧ (k = 0 ↔ a = b) := by
  induction a generalizing b with
  | nil =>
      cases b with
      | nil => exact ⟨0, rfl, iff_of_true rfl rfl⟩
      | cons y b =>
          rw [List.mem_cons, not_or] at hb
          exact ⟨_, rfl, iff_of_false (byteDiff_ne_zero hb.1) (by simp)⟩
  | cons x a ih =>
      rw [List.mem_cons, not_or] at ha
      cases b with
      | nil =>
          have hstop : ¬ (x ≠ 0 ∧ x = 0) := fun h => h.1 h.2
          refine ⟨(x.toNat : Int) - (0 : U8).toNat, ?_, ?_⟩
          · show (if x ≠ 0 ∧ x = 0 then _ else _) = _
            rw [if_neg hstop]
          · exact iff_of_false (byteDiff_ne_zero (Ne.symm ha.1)) (by simp)
      | cons y b =>
          rw [List.mem_cons, not_or] at hb
          rw [List.cons_append, List.cons_append, strcmp]
          split
          · next h =>
              obtain ⟨k, hk, hiff⟩ := ih ha.2 hb.2
              exact ⟨k, hk, by rw [hiff, h.2, List.cons.injEq, eq_self, true_and]⟩
          · next h =>
              have hxy : x ≠ y := fun he => h ⟨Ne.symm ha.1, he⟩
              exact ⟨_, rfl, iff_of_false (byteDiff_ne_zero hxy) (by simp [hxy])⟩

/-! ## `strtok` -/

theorem cstr_drop {n : Nat} {a : CArray U8 n} {q t r : List U8} (ht : 0 ∉ t)
    (hbuf : a.cells = q ++ t ++ 0 :: r) : cstr (a.cells.drop q.length) = t := by
  rw [hbuf, List.append_assoc, List.drop_left, cstr_append_nul ht]

theorem loadStr_eq {n : Nat} {a : CArray U8 n} {q t r : List U8} (ht : 0 ∉ t)
    (hbuf : a.cells = q ++ t ++ 0 :: r) : loadStr a q.length = some t := by
  rw [loadStr, cstr_drop ht hbuf, if_pos]
  rw [hbuf, List.append_assoc, List.drop_left]
  simp

/-- A character at which a scan for `delim` stops. -/
def isDelim (delim : List U8) (c : U8) : Bool := delim.contains c

theorem isDelim_iff {delim : List U8} {c : U8} :
    isDelim delim c = true ↔ c ∈ delim := List.contains_iff_mem

theorem scanToken_append {delim t s : List U8} (ht : Split.Plain (isDelim delim) t)
    (hnul : 0 ∉ t) : scanToken delim (t ++ s) =
      (scanToken delim s).map fun (k, hit) => (t.length + k, hit) := by
  induction t with
  | nil => cases h : scanToken delim s <;> simp [h]
  | cons c t ih =>
      rw [List.mem_cons, not_or] at hnul
      have hc : c ∉ delim := by
        simpa [isDelim] using ht c List.mem_cons_self
      rw [List.cons_append, scanToken, if_neg (Ne.symm hnul.1), if_neg hc,
        ih (fun x hx => ht x (List.mem_cons_of_mem _ hx)) hnul.2, Option.map_map]
      congr 1
      funext ⟨k, hit⟩
      simp
      omega

section
variable {n : Nat} {a : CArray U8 n} {last str : Option Nat}
  {delim q s junk : List U8}

theorem strtok_nul (hstart : str.or last = some q.length)
    (hbuf : a.cells = q ++ 0 :: junk) :
    strtok a last str delim = some (none, a, some q.length) := by
  rw [strtok, hstart]
  simp only [CArray.load_eq hbuf, Option.bind_eq_bind, Option.bind_some, if_true]

theorem strtok_last (hstart : str.or last = some q.length) (hne : s ≠ [])
    (hs : Split.Plain (isDelim delim) s) (hnul : 0 ∉ s)
    (hbuf : a.cells = q ++ s ++ 0 :: junk) :
    strtok a last str delim =
      some (some q.length, a, some (q.length + s.length)) := by
  obtain ⟨c, s', rfl⟩ := List.exists_cons_of_ne_nil hne
  have hc : c ≠ 0 := fun h => hnul (h ▸ List.mem_cons_self)
  have hload : a.load (q.length : Nat) = some c := by
    rw [List.append_assoc] at hbuf
    exact CArray.load_eq hbuf
  have hscan : scanToken delim (a.cells.drop q.length) =
      some ((c :: s').length, false) := by
    rw [hbuf, List.append_assoc, List.drop_left, scanToken_append hs hnul]
    rfl
  rw [strtok, hstart]
  simp only [hload, hscan, if_neg hc, Option.bind_eq_bind, Option.bind_some,
    Bool.false_eq_true, if_false]

theorem strtok_cut {t r : List U8} {d : U8}
    (hstart : str.or last = some q.length)
    (ht : Split.Plain (isDelim delim) t) (hd : isDelim delim d = true)
    (hnul : 0 ∉ t ++ d :: r)
    (hbuf : a.cells = q ++ (t ++ d :: r) ++ 0 :: junk) :
    ∃ b, strtok a last str delim =
        some (some q.length, b, some (q.length + t.length + 1)) ∧
      b.cells = q ++ t ++ 0 :: (r ++ 0 :: junk) := by
  rw [List.mem_append, List.mem_cons, not_or, not_or] at hnul
  obtain ⟨hnt, hnd, hnr⟩ := hnul
  have hbuf' : a.cells = (q ++ t) ++ d :: (r ++ 0 :: junk) := by
    rw [hbuf]
    simp
  obtain ⟨b, hstore, hb⟩ := CArray.store_eq hbuf' 0
  rw [List.length_append] at hstore
  have hload : ∃ c, a.load (q.length : Nat) = some c ∧ c ≠ 0 := by
    rw [List.append_assoc] at hbuf'
    cases t with
    | nil => exact ⟨d, CArray.load_eq hbuf', Ne.symm hnd⟩
    | cons c t => exact ⟨c, CArray.load_eq hbuf', fun h => hnt (h ▸ List.mem_cons_self)⟩
  obtain ⟨c, hload, hc⟩ := hload
  have hscan : scanToken delim (a.cells.drop q.length) = some (t.length, true) := by
    rw [hbuf', List.append_assoc, List.drop_left, scanToken_append ht hnt,
      scanToken, if_neg (Ne.symm hnd), if_pos (isDelim_iff.1 hd)]
    rfl
  refine ⟨b, ?_, hb⟩
  rw [strtok, hstart]
  simp only [hload, hscan, hstore, if_neg hc, Option.bind_eq_bind,
    Option.bind_some, if_true]

end

/-! ## `utoa` -/

section
variable {n : Nat}

theorem utoaDigits_eq (base k v ptr : Nat) (a : CArray U8 n) :
    utoaDigits base k v ptr a = DigitBuffer.store utoaChar base k v ptr a := by
  induction k generalizing v ptr a with
  | zero => rfl
  | succ k ih => simp only [utoaDigits, DigitBuffer.store, ih]

/-- The stretch between the two pointers is turned around. -/
theorem utoaReverse_spec (m : List U8) {a : CArray U8 n} {q post : List U8}
    {k : Nat} (hk : m.length < k) (hbuf : a.cells = q ++ m ++ post) :
    ∃ b, utoaReverse k q.length (q.length + m.length - 1) a = some b ∧
      b.cells = q ++ m.reverse ++ post := by
  induction m using List.bidirectionalRec generalizing a q post k with
  | nil =>
      obtain ⟨k, rfl⟩ : ∃ j, k = j + 1 := ⟨k - 1, by omega⟩
      refine ⟨a, ?_, hbuf⟩
      rw [utoaReverse, if_neg (by simp)]
  | singleton x =>
      obtain ⟨k, rfl⟩ : ∃ j, k = j + 1 := ⟨k - 1, by omega⟩
      refine ⟨a, ?_, hbuf⟩
      rw [utoaReverse, if_neg (by simp)]
  | cons_append x m y ih =>
      obtain ⟨k, rfl⟩ : ∃ j, k = j + 1 := ⟨k - 1, by omega⟩
      have hptr : q.length + (x :: (m ++ [y])).length - 1 =
          (q ++ x :: m).length := by
        simp
      have hlast : a.cells = (q ++ x :: m) ++ y :: post := by
        rw [hbuf]
        simp
      have hfirst : a.cells = q ++ x :: (m ++ y :: post) := by
        rw [hbuf]
        simp
      obtain ⟨b, hb, hbc⟩ := CArray.store_eq hlast x
      have hfirst' : b.cells = q ++ x :: (m ++ x :: post) := by
        rw [hbc]
        simp
      obtain ⟨c, hc, hcc⟩ := CArray.store_eq hfirst' y
      have hmid : c.cells = (q ++ [y]) ++ m ++ (x :: post) := by
        rw [hcc]
        simp
      have hk' : m.length < k := by
        simp at hk
        omega
      obtain ⟨e, he, hec⟩ := ih hk' hmid
      refine ⟨e, ?_, ?_⟩
      · rw [hptr, utoaReverse, if_pos (by simp)]
        have hnext : (q ++ x :: m).length - 1 = (q ++ [y]).length + m.length - 1 := by
          simp
        rw [CArray.load_eq hlast, CArray.load_eq hfirst, hnext]
        simp only [Option.bind_eq_bind, Option.bind_some, hb, hc]
        rw [← he, List.length_append, List.length_singleton]
      · rw [hec]
        simp

/-- A zero is stored without the loop. -/
theorem utoa_zero {base : Int} (hbase : ¬ (base < 2 ∨ base > 36))
    {a : CArray U8 n} {q post : List U8} {x o : U8}
    (hbuf : a.cells = q ++ x :: o :: post) :
    ∃ b, utoa 0 a q.length base = some (q.length, b) ∧
      b.cells = q ++ [chr '0'] ++ 0 :: post := by
  obtain ⟨b, hb, hbc⟩ := CArray.store_eq hbuf (chr '0')
  have hsecond : b.cells = (q ++ [chr '0']) ++ o :: post := by
    rw [hbc]
    simp
  obtain ⟨c, hc, hcc⟩ := CArray.store_eq hsecond 0
  rw [List.length_append, List.length_singleton] at hc
  refine ⟨c, ?_, hcc⟩
  rw [utoa, if_neg hbase, if_pos rfl]
  simp only [hb, hc, Option.bind_eq_bind, Option.bind_some]

/-- `utoa` writes the numeral and a terminator, and nothing else. -/
theorem utoa_spec {v : U32} {base : Int} (hb : 2 ≤ base) (hb' : base ≤ 36)
    {a : CArray U8 n} {q old post : List U8} {o : U8}
    (hbuf : a.cells = q ++ old ++ o :: post)
    (hlen : old.length = (numeral base.toNat v.toNat).length) :
    ∃ b, utoa v a q.length base = some (q.length, b) ∧
      b.cells = q ++ (numeral base.toNat v.toNat).map utoaChar ++ 0 :: post := by
  have hbase : ¬ (base < 2 ∨ base > 36) := by omega
  by_cases hv : v = 0
  · subst hv
    have hnum : numeral base.toNat (0 : U32).toNat = [0] := if_pos rfl
    rw [hnum] at hlen ⊢
    obtain ⟨x, rfl⟩ := List.length_eq_one_iff.1 hlen
    rw [List.append_assoc] at hbuf
    exact utoa_zero hbase hbuf
  · have hone : 1 < base.toNat := by omega
    have hnz : v.toNat ≠ 0 := fun h => hv (BitVec.eq_of_toNat_eq h)
    have hlt : v.toNat < base.toNat ^ 32 :=
      Nat.lt_of_lt_of_le v.isLt (Nat.pow_le_pow_left hone 32)
    obtain ⟨b, hdigits, hbc⟩ := DigitBuffer.store_numeral utoaChar hone hnz
      hlt hbuf hlen
    rw [← utoaDigits_eq] at hdigits
    -- the digits stand from the low end on, then comes the terminator
    obtain ⟨c, hc, hcc⟩ := CArray.store_eq hbc 0
    rw [List.length_append, List.length_reverse, List.length_map, ← hlen] at hc
    have hfuel : ((numeral base.toNat v.toNat).map utoaChar).reverse.length < n + 1 := by
      have hsize := c.size
      rw [hcc] at hsize
      simp at hsize ⊢
      omega
    obtain ⟨e, he, hec⟩ := utoaReverse_spec _ hfuel hcc
    rw [List.length_reverse, List.length_map, ← hlen] at he
    refine ⟨e, ?_, ?_⟩
    · rw [utoa, if_neg hbase, if_neg hv]
      simp only [hdigits, hc, he, Option.bind_eq_bind, Option.bind_some]
    · rw [hec, List.reverse_reverse]

end

end MicroKernel.Proofs
