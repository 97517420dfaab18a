import MicroKernel.Lib.CArray
import MicroKernel.Lib.Numeral

/-!
# Writing digits into an array

The digit loop of every decimal and hexadecimal printer stores the digits of a
number one after the other, the lowest first. How a digit becomes a character
is a parameter.
-/

namespace DigitBuffer

open Numeral

universe u

variable {α : Type u} {n base : Nat} {digit : Nat → α}

/-- `while (v) { *p++ = digit(v % base); v /= base; }`, for at most `k` tests:
where `p` stands afterwards, and the array. -/
def store (digit : Nat → α) (base : Nat) :
    Nat → Nat → Nat → CArray α n → Option (Nat × CArray α n)
  | 0, _, _, _ => none
  | k + 1, v, p, a =>
      if v = 0 then some (p, a)
      else do
        let a ← a.store p (digit (v % base))
        store digit base k (v / base) (p + 1) a

variable (digit) in
/-- The digits go over the cells that were there, and nowhere else. -/
theorem store_spec {k v : Nat} (h : v < base ^ k) {a : CArray α n}
    {q old post : List α} (hbuf : a.cells = q ++ old ++ post)
    (hlen : old.length = (divLoop base k v).length) :
    ∃ b, store digit base (k + 1) v q.length a = some (q.length + old.length, b) ∧
      b.cells = q ++ (divLoop base k v).map digit ++ post := by
  induction k generalizing v a q old with
  | zero =>
      obtain rfl : v = 0 := by simpa using h
      obtain rfl := List.eq_nil_of_length_eq_zero hlen
      exact ⟨a, rfl, hbuf⟩
  | succ k ih =>
      rw [divLoop] at hlen ⊢
      rw [store]
      split at hlen
      · next hz =>
          obtain rfl := List.eq_nil_of_length_eq_zero hlen
          exact ⟨a, by simp [hz], by simpa [hz] using hbuf⟩
      · next hz =>
          obtain ⟨o, old, rfl⟩ := List.exists_cons_of_length_eq_add_one hlen
          rw [List.append_assoc] at hbuf
          obtain ⟨b, hstore, hb⟩ := CArray.store_eq hbuf (digit (v % base))
          have hq : v / base < base ^ k := by
            rw [Nat.pow_succ] at h
            exact Nat.div_lt_of_lt_mul (Nat.mul_comm base _ ▸ h)
          have hb' : b.cells = (q ++ [digit (v % base)]) ++ old ++ post := by
            rw [hb]
            simp
          obtain ⟨c, hrun, hc⟩ := ih hq hb' (by simpa using hlen)
          rw [List.length_append, List.length_singleton] at hrun
          refine ⟨c, ?_, ?_⟩
          · rw [if_neg hz, hstore, Option.bind_eq_bind, Option.bind_some, hrun,
              List.length_cons, Nat.add_assoc, Nat.add_comm 1]
          · rw [hc, if_neg hz]
            simp

variable (digit) in
theorem store_numeral {k v : Nat} (hbase : 1 < base) (hv : v ≠ 0) (h : v < base ^ k)
    {a : CArray α n} {q old post : List α} (hbuf : a.cells = q ++ old ++ post)
    (hlen : old.length = (numeral base v).length) :
    ∃ b, store digit base (k + 1) v q.length a = some (q.length + old.length, b) ∧
      b.cells = q ++ ((numeral base v).map digit).reverse ++ post := by
  have hdigits := divLoop_eq_numeral hbase hv h
  have hlen' : old.length = (divLoop base k v).length := by
    rw [hdigits, List.length_reverse, hlen]
  obtain ⟨b, hrun, hb⟩ := store_spec digit h hbuf hlen'
  rw [hdigits, List.map_reverse] at hb
  exact ⟨b, hrun, hb⟩

end DigitBuffer
