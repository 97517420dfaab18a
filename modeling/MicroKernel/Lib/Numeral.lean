import Mathlib.Data.Nat.Digits.Lemmas

/-!
# Positional numerals

A numeral is what one writes: most significant digit first, no leading zero,
and a single zero for the number zero. Two loops that produce the digits of a
number are set against it. One divides until nothing is left and yields the
digits from the low end (`divLoop`); the other walks down a fixed number of
positions and yields all of them (`fixed`). Both run on explicit bounds, and
each is exact once the bound covers the number.
-/

namespace Numeral

variable {b n w k : Nat}

/-- The canonical numeral of `n`, most significant digit first. -/
def numeral (b n : Nat) : List Nat :=
  if n = 0 then [0] else (Nat.digits b n).reverse

/-- `while (n) { emit n % b; n /= b; }`, for at most `k` rounds. -/
def divLoop (b : Nat) : Nat → Nat → List Nat
  | 0, _ => []
  | k + 1, n => if n = 0 then [] else n % b :: divLoop b k (n / b)

/-- The digits at the positions `w - 1` down to `0`. -/
def fixed (b : Nat) : Nat → Nat → List Nat
  | 0, _ => []
  | w + 1, n => n / b ^ w % b :: fixed b w n

theorem divLoop_eq_digits (hb : 1 < b) (h : n < b ^ k) :
    divLoop b k n = Nat.digits b n := by
  induction k generalizing n with
  | zero =>
      obtain rfl : n = 0 := by simpa using h
      simp [divLoop]
  | succ k ih =>
      rw [divLoop]
      split
      · next hz => simp [hz]
      · next hz =>
          rw [Nat.pow_succ] at h
          rw [ih (Nat.div_lt_of_lt_mul (Nat.mul_comm b _ ▸ h)),
            ← Nat.digits_def' hb (Nat.pos_of_ne_zero hz)]

theorem divLoop_eq_numeral (hb : 1 < b) (hn : n ≠ 0) (h : n < b ^ k) :
    divLoop b k n = (numeral b n).reverse := by
  rw [divLoop_eq_digits hb h, numeral, if_neg hn, List.reverse_reverse]

theorem numeral_small (h : n < b) : numeral b n = [n] := by
  rw [numeral]
  split
  · next hz => rw [hz]
  · next hz => rw [Nat.digits_of_lt b n hz h, List.reverse_singleton]

theorem numeral_append (hb : 1 < b) (h : b ≤ n) :
    numeral b n = numeral b (n / b) ++ [n % b] := by
  have hn : n ≠ 0 := by omega
  have hq : n / b ≠ 0 := by
    have := Nat.div_pos h (by omega)
    omega
  rw [numeral, numeral, if_neg hn, if_neg hq,
    Nat.digits_def' hb (Nat.pos_of_ne_zero hn), List.reverse_cons]

theorem fixed_append : fixed b (w + 1) n = fixed b w (n / b) ++ [n % b] := by
  induction w with
  | zero => simp [fixed]
  | succ w ih =>
      rw [fixed, ih, fixed, List.cons_append, Nat.div_div_eq_div_mul,
        Nat.pow_succ, Nat.mul_comm]

/-- Where the leading position is in use, all positions are the numeral. -/
theorem numeral_eq_fixed (hb : 1 < b) (hlow : b ^ w ≤ n) (hhigh : n < b ^ (w + 1)) :
    numeral b n = fixed b (w + 1) n := by
  induction w generalizing n with
  | zero =>
      rw [numeral_small (by simpa using hhigh)]
      simp only [fixed, Nat.pow_zero, Nat.div_one]
      rw [Nat.mod_eq_of_lt (by simpa using hhigh)]
  | succ w ih =>
      have hbn : b ≤ n := by
        refine Nat.le_trans ?_ hlow
        exact Nat.le_self_pow (Nat.succ_ne_zero w) b
      have hq : b ^ w ≤ n / b := by
        rw [Nat.le_div_iff_mul_le (by omega), ← Nat.pow_succ]
        exact hlow
      have hq' : n / b < b ^ (w + 1) := by
        rw [Nat.div_lt_iff_lt_mul (by omega), ← Nat.pow_succ]
        exact hhigh
      rw [numeral_append hb hbn, ih hq hq', ← fixed_append]

theorem numeral_length_le_iff (hb : 1 < b) (hw : 0 < w) :
    (numeral b n).length ≤ w ↔ n < b ^ w := by
  rw [numeral]
  split
  · next hz =>
      subst hz
      simpa using ⟨fun _ => Nat.pow_pos (by omega), fun _ => hw⟩
  · rw [List.length_reverse, Nat.digits_length_le_iff hb]

/-! ## Reading a numeral

The digits weigh in from the high end, as a parser takes them. -/

def value (b : Nat) (ds : List Nat) : Nat := ds.foldl (fun n d => n * b + d) 0

theorem value_append (ds : List Nat) (d : Nat) :
    value b (ds ++ [d]) = value b ds * b + d := by
  rw [value, List.foldl_append]
  rfl

theorem value_reverse (ds : List Nat) : value b ds.reverse = Nat.ofDigits b ds := by
  rw [value, List.foldl_reverse, Nat.ofDigits_eq_foldr]
  congr 1
  funext d n
  rw [Nat.cast_id, Nat.mul_comm, Nat.add_comm]

theorem value_numeral : value b (numeral b n) = n := by
  rw [numeral]
  split
  · next hz => simp [value, hz]
  · rw [value_reverse, Nat.ofDigits_digits]

theorem numeral_lt (hb : 1 < b) {d : Nat} (hd : d ∈ numeral b n) : d < b := by
  rw [numeral] at hd
  split at hd
  · rw [List.mem_singleton.1 hd]
    omega
  · exact Nat.digits_lt_base hb (List.mem_reverse.1 hd)

theorem numeral_head (h : (numeral b n).head? = some 0) : n = 0 := by
  rw [numeral] at h
  split at h
  · assumption
  · next hz =>
      rw [List.head?_reverse] at h
      have hne : Nat.digits b n ≠ [] := Nat.digits_ne_nil_iff_ne_zero.2 hz
      rw [List.getLast?_eq_some_getLast hne] at h
      exact absurd (Option.some.inj h) (Nat.getLast_digit_ne_zero b hz)

/-- The positions of a number that fits them denote it. -/
theorem value_fixed (h : n < b ^ w) : value b (fixed b w n) = n := by
  induction w generalizing n with
  | zero =>
      obtain rfl : n = 0 := by simpa using h
      rfl
  | succ w ih =>
      rw [Nat.pow_succ] at h
      have hq := Nat.div_lt_of_lt_mul (Nat.mul_comm (b ^ w) b ▸ h)
      rw [fixed_append, value_append, ih hq, Nat.mul_comm, Nat.div_add_mod]

theorem fixed_length : (fixed b w n).length = w := by
  induction w with
  | zero => rfl
  | succ w ih => rw [fixed, List.length_cons, ih]

theorem fixed_lt (hb : 0 < b) {d : Nat} (hd : d ∈ fixed b w n) : d < b := by
  induction w with
  | zero => cases hd
  | succ w ih =>
      rw [fixed, List.mem_cons] at hd
      obtain rfl | hd := hd
      · exact Nat.mod_lt _ hb
      · exact ih hd

/-- Leading zeros off, the last digit stays. -/
def trim : List Nat → List Nat
  | d :: e :: ds => if d = 0 then trim (e :: ds) else d :: e :: ds
  | ds => ds

theorem trim_fixed (hb : 1 < b) (h : n < b ^ (w + 1)) :
    trim (fixed b (w + 1) n) = numeral b n := by
  induction w with
  | zero =>
      rw [Nat.zero_add, Nat.pow_one] at h
      rw [numeral_small h]
      simp [fixed, trim, Nat.mod_eq_of_lt h]
  | succ w ih =>
      have htop : n / b ^ (w + 1) % b = 0 ↔ n < b ^ (w + 1) := by
        rw [Nat.mod_eq_of_lt (Nat.div_lt_of_lt_mul (by rw [← Nat.pow_succ]; exact h)),
          Nat.div_eq_zero_iff_lt (Nat.pow_pos (by omega))]
      show (if n / b ^ (w + 1) % b = 0 then trim (fixed b (w + 1) n)
        else fixed b (w + 1 + 1) n) = _
      split
      · next hz => exact ih (htop.1 hz)
      · next hz => exact (numeral_eq_fixed hb (Nat.le_of_not_lt (mt htop.2 hz)) h).symm

end Numeral
