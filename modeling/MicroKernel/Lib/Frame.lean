import MicroKernel.Lib.ByteMem

/-!
# What a piece of code may touch

A region is a predicate on addresses. Two memories are the same but for a
region when they agree outside it, and whatever lies outside reads the same in
both. Regions compose along a run, so a run is described by the union of what
its steps touch.
-/

namespace ByteMem

variable {w : Nat} {R S : BitVec w → Prop} {m m' m'' : Mem w} {a : BitVec w}

/-- Nothing outside `R` differs. -/
def Touches (R : BitVec w → Prop) (m m' : Mem w) : Prop := ∀ a, ¬ R a → m' a = m a

/-- The addresses from `lo` up to `hi`. -/
def Within (lo hi : Nat) (a : BitVec w) : Prop := lo ≤ a.toNat ∧ a.toNat < hi

theorem Touches.refl (m : Mem w) : Touches R m m := fun _ _ => rfl

theorem Touches.mono (h : Touches R m m') (hsub : ∀ a, R a → S a) : Touches S m m' :=
  fun a ha => h a (mt (hsub a) ha)

theorem Touches.trans (h : Touches R m m') (h' : Touches R m' m'') : Touches R m m'' :=
  fun a ha => (h' a ha).trans (h a ha)

theorem offset_toNat {i n : Nat} (hi : i < n) (hfit : a.toNat + n ≤ 2 ^ w) :
    (a + BitVec.ofNat w i).toNat = a.toNat + i := by
  rw [BitVec.toNat_add, BitVec.toNat_ofNat, Nat.add_mod_mod, Nat.mod_eq_of_lt (by omega)]

theorem below_toNat {k : Nat} (hk : k ≤ a.toNat) :
    (a - BitVec.ofNat w k).toNat = a.toNat - k := by
  have hlt := a.isLt
  have hval : (BitVec.ofNat w k).toNat = k := by
    rw [BitVec.toNat_ofNat, Nat.mod_eq_of_lt (by omega)]
  rw [BitVec.toNat_sub_of_le (by rw [BitVec.le_def, hval]; exact hk), hval]

theorem touches_write {b : List (BitVec 8)} (hfit : a.toNat + b.length ≤ 2 ^ w) :
    Touches (Within a.toNat (a.toNat + b.length)) m (write m a b) := by
  intro x hx
  refine write_of_le ?_
  have hsub : (x - a).toNat = (2 ^ w - a.toNat + x.toNat) % 2 ^ w := BitVec.toNat_sub ..
  have hxlt := x.isLt
  have halt := a.isLt
  by_cases hle : a.toNat ≤ x.toNat
  · have hfar : a.toNat + b.length ≤ x.toNat := Nat.le_of_not_lt fun h => hx ⟨hle, h⟩
    have hdist : 2 ^ w - a.toNat + x.toNat = x.toNat - a.toNat + 2 ^ w := by omega
    rw [hsub, hdist, Nat.add_mod_right, Nat.mod_eq_of_lt (by omega)]
    omega
  · rw [hsub, Nat.mod_eq_of_lt (by omega)]
    omega

/-- A store inside `R`. -/
theorem Touches.write {bs : List (BitVec 8)} (h : Touches R m m')
    (hfit : a.toNat + bs.length ≤ 2 ^ w)
    (hin : ∀ x : BitVec w, Within a.toNat (a.toNat + bs.length) x → R x) :
    Touches R m (ByteMem.write m' a bs) :=
  h.trans ((touches_write hfit).mono hin)

theorem Holds.touches {bs : List (BitVec 8)} (h : Holds m a bs) (ht : Touches R m m')
    (hfit : a.toNat + bs.length ≤ 2 ^ w)
    (hout : ∀ x : BitVec w, Within a.toNat (a.toNat + bs.length) x → ¬ R x) :
    Holds m' a bs := by
  refine h.congr fun i hi => ht _ (hout _ ?_)
  rw [Within, offset_toNat hi hfit]
  omega

theorem readLE_congr {n : Nat}
    (h : ∀ i, i < n → m' (a + BitVec.ofNat w i) = m (a + BitVec.ofNat w i)) :
    readLE m' a n = readLE m a n := by
  induction n generalizing a with
  | zero => rfl
  | succ n ih =>
      have h0 := h 0 (Nat.succ_pos n)
      rw [BitVec.add_zero] at h0
      rw [readLE, readLE, h0, ih]
      intro i hi
      rw [add_one_ofNat]
      exact h (i + 1) (Nat.succ_lt_succ hi)

theorem Touches.readLE {n : Nat} (h : Touches R m m') (hfit : a.toNat + n ≤ 2 ^ w)
    (hout : ∀ x : BitVec w, Within a.toNat (a.toNat + n) x → ¬ R x) :
    ByteMem.readLE m' a n = ByteMem.readLE m a n := by
  refine readLE_congr fun i hi => h _ (hout _ ?_)
  rw [Within, offset_toNat hi hfit]
  omega

/-- What is read lies there. -/
theorem holds_readLE (m : Mem w) (a : BitVec w) (n : Nat) :
    Holds m a (leBytes n (readLE m a n)) := by
  induction n generalizing a with
  | zero => trivial
  | succ n ih =>
      have hlow : BitVec.ofNat 8 ((m a).toNat + 256 * readLE m (a + 1) n) = m a := by
        apply BitVec.eq_of_toNat_eq
        have := (m a).isLt
        rw [BitVec.toNat_ofNat]
        omega
      have hhigh : ((m a).toNat + 256 * readLE m (a + 1) n) / 256 = readLE m (a + 1) n := by
        have := (m a).isLt
        omega
      rw [readLE, leBytes, hlow, hhigh]
      exact ⟨rfl, ih (a + 1)⟩

end ByteMem
