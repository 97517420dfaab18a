import MicroKernel.Lib.Frame

/-!
# Strings that end in a zero byte

A string is read from an address on, each byte a given distance from the last,
up to the first zero byte. The distance can be negative: a string instruction
goes down in memory when it is told to. Code that keeps off the bytes read
leaves the string as it is, and a string read upwards that leaves any byte of
memory unread is shorter than memory.
-/

namespace ByteMem

variable {w : Nat} {R : BitVec w → Prop} {m m' : Mem w} {a d : BitVec w}
  {s : List (BitVec 8)}

theorem add_mul_ofNat (d : BitVec w) (n : Nat) :
    d + BitVec.ofNat w n * d = BitVec.ofNat w (n + 1) * d := by
  rw [BitVec.ofNat_add, BitVec.add_mul, BitVec.add_comm, BitVec.one_mul]

def NulString (m : Mem w) (d : BitVec w) : BitVec w → List (BitVec 8) → Prop
  | a, [] => m a = 0
  | a, b :: s => (m a = b ∧ b ≠ 0) ∧ NulString m d (a + d) s

/-- None of the `n` addresses from `a` on is in `R`. -/
def Apart (R : BitVec w → Prop) (d : BitVec w) : BitVec w → Nat → Prop
  | _, 0 => True
  | a, n + 1 => ¬ R a ∧ Apart R d (a + d) n

theorem NulString.touches (h : NulString m d a s) (ht : Touches R m m')
    (hout : Apart R d a (s.length + 1)) : NulString m' d a s := by
  induction s generalizing a with
  | nil => exact (ht a hout.1).trans h
  | cons b s ih => exact ⟨⟨(ht a hout.1).trans h.1.1, h.1.2⟩, ih h.2 hout.2⟩

theorem Apart.mono {S : BitVec w → Prop} {n : Nat} (h : Apart S d a n)
    (hsub : ∀ x, R x → S x) : Apart R d a n := by
  induction n generalizing a with
  | zero => trivial
  | succ n ih => exact ⟨mt (hsub a) h.1, ih h.2⟩

theorem apart_of {n : Nat} (h : ∀ i < n, ¬ R (a + BitVec.ofNat w i * d)) : Apart R d a n := by
  induction n generalizing a with
  | zero => trivial
  | succ n ih =>
      refine ⟨?_, ih fun i hi => ?_⟩
      · have hfirst := h 0 (Nat.succ_pos n)
        rw [BitVec.zero_mul, BitVec.add_zero] at hfirst
        exact hfirst
      · rw [BitVec.add_assoc, add_mul_ofNat]
        exact h (i + 1) (Nat.succ_lt_succ hi)

theorem Apart.not_at {n i : Nat} (h : Apart R 1 a n) (hi : i < n) :
    ¬ R (a + BitVec.ofNat w i) := by
  induction n generalizing a i with
  | zero => exact absurd hi (Nat.not_lt_zero i)
  | succ n ih =>
      cases i with
      | zero =>
          rw [BitVec.add_zero]
          exact h.1
      | succ i =>
          rw [← add_one_ofNat]
          exact ih h.2 (Nat.lt_of_succ_lt_succ hi)

/-- Bytes in memory before a zero byte, read upwards. -/
theorem nulString_of_holds (h : Holds m a (s ++ [0])) (hnul : 0 ∉ s) : NulString m 1 a s := by
  induction s generalizing a with
  | nil => exact h.1
  | cons b s ih =>
      rw [List.mem_cons, not_or] at hnul
      exact ⟨⟨h.1, Ne.symm hnul.1⟩, ih h.2 hnul.2⟩

theorem NulString.not_zero {i : Nat} (h : NulString m d a s) (hi : i < s.length) :
    m (a + BitVec.ofNat w i * d) ≠ 0 := by
  induction s generalizing a i with
  | nil => exact absurd hi (Nat.not_lt_zero i)
  | cons b s ih =>
      cases i with
      | zero =>
          rw [BitVec.zero_mul, BitVec.add_zero, h.1.1]
          exact h.1.2
      | succ i =>
          have hrest := ih h.2 (Nat.lt_of_succ_lt_succ hi)
          rw [BitVec.add_assoc, add_mul_ofNat] at hrest
          exact hrest

theorem NulString.zero_end (h : NulString m d a s) :
    m (a + BitVec.ofNat w s.length * d) = 0 := by
  induction s generalizing a with
  | nil =>
      rw [List.length_nil, BitVec.zero_mul, BitVec.add_zero]
      exact h
  | cons b s ih =>
      have hrest := ih h.2
      rw [BitVec.add_assoc, add_mul_ofNat] at hrest
      exact hrest

/-- A string that ends has fewer bytes than memory: its end would be one of its
bytes. -/
theorem NulString.length_lt (h : NulString m d a s) : s.length < 2 ^ w := by
  refine Nat.lt_of_not_le fun hle => ?_
  have hpos : 0 < 2 ^ w := Nat.two_pow_pos w
  have hsame : BitVec.ofNat w (s.length - 2 ^ w) = BitVec.ofNat w s.length := by
    apply BitVec.eq_of_toNat_eq
    rw [BitVec.toNat_ofNat, BitVec.toNat_ofNat, ← Nat.mod_eq_sub_mod hle]
  have hin := h.not_zero (i := s.length - 2 ^ w) (by omega)
  rw [hsame] at hin
  exact hin h.zero_end

/-- As many addresses as memory has would take in any that is in `R`. -/
theorem Apart.lt {n : Nat} (h : Apart R 1 a n) {x : BitVec w} (hx : R x) : n < 2 ^ w := by
  refine Nat.lt_of_not_le fun hle => h.not_at (i := (x - a).toNat) ?_ ?_
  · exact Nat.lt_of_lt_of_le (x - a).isLt hle
  · rw [BitVec.ofNat_toNat, BitVec.setWidth_eq, BitVec.add_comm, BitVec.sub_add_cancel]
    exact hx

end ByteMem
