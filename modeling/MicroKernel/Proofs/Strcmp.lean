import MicroKernel.Proofs.StringFns

/-!
# The order `strcmp` decides

The loop compares plain characters and only the last two are read as unsigned.
Both readings of a byte tell bytes apart and tell which one ends a string, so
the loop stops at the first difference either way, and the two bytes there
decide. The terminator is below every other byte: a proper prefix comes first.
-/

namespace MicroKernel.Proofs

open Kernel

theorem plainChar_inj {signed : Bool} {x y : U8} :
    plainChar signed x = plainChar signed y ↔ x = y := by
  cases signed with
  | false =>
      show (x.toNat : Int) = y.toNat ↔ _
      rw [Int.natCast_inj, BitVec.toNat_inj]
  | true => exact BitVec.toInt_inj

theorem plainChar_eq_zero {signed : Bool} {x : U8} : plainChar signed x = 0 ↔ x = 0 := by
  have hzero : plainChar signed 0 = 0 := by cases signed <;> rfl
  have hinj : plainChar signed x = plainChar signed 0 ↔ x = 0 := plainChar_inj
  rwa [hzero] at hinj

theorem strcmpPlain_eq (signed : Bool) (s t : List U8) :
    strcmpPlain signed s t = strcmp s t := by
  induction s generalizing t with
  | nil => rfl
  | cons a s ih =>
      cases t with
      | nil => rfl
      | cons b t =>
          simp only [strcmpPlain, strcmp, Ne, plainChar_eq_zero, plainChar_inj, ih]

/-- What `strcmp` says about two strings. -/
structure Orders (s t : List U8) (r : Int) : Prop where
  lt : r < 0 ↔ s < t
  eq : r = 0 ↔ s = t
  gt : 0 < r ↔ t < s

/-- Two strings that differ at once. -/
theorem Orders.of_ne {x y : U8} (h : x ≠ y) (s t : List U8) :
    Orders (x :: s) (y :: t) ((x.toNat : Int) - y.toNat) := by
  refine ⟨?_, iff_of_false (byteDiff_ne_zero h) (by simp [h]), ?_⟩
  · rw [List.cons_lt_cons_iff, or_iff_left fun he => h he.1, BitVec.lt_def]
    omega
  · rw [List.cons_lt_cons_iff, or_iff_left fun he => h he.1.symm, BitVec.lt_def]
    omega

theorem Orders.cons {s t : List U8} {r : Int} (h : Orders s t r) (x : U8) :
    Orders (x :: s) (x :: t) r := by
  refine ⟨?_, ?_, ?_⟩
  · rw [h.lt, List.cons_lt_cons_self]
  · rw [h.eq, List.cons.injEq, and_iff_right rfl]
  · rw [h.gt, List.cons_lt_cons_self]

theorem toNat_pos {x : U8} (h : x ≠ 0) : 0 < x.toNat :=
  Nat.pos_of_ne_zero fun hz => h (BitVec.eq_of_toNat_eq hz)

theorem strcmp_orders {s t : List U8} (hs : 0 ∉ s) (ht : 0 ∉ t) :
    ∃ r, strcmp (s ++ [0]) (t ++ [0]) = some r ∧ Orders s t r := by
  induction s generalizing t with
  | nil =>
      cases t with
      | nil => exact ⟨0, rfl, by simp, by simp, by simp⟩
      | cons y t =>
          rw [List.mem_cons, not_or] at ht
          have hy := toNat_pos (Ne.symm ht.1)
          refine ⟨_, rfl, ?_⟩
          show Orders [] (y :: t) ((0 : Int) - y.toNat)
          exact ⟨by simp; omega, by simp; omega, by simp⟩
  | cons x s ih =>
      rw [List.mem_cons, not_or] at hs
      cases t with
      | nil =>
          have hx := toNat_pos (Ne.symm hs.1)
          have hstop : ¬ (x ≠ 0 ∧ x = 0) := fun h => h.1 h.2
          refine ⟨(x.toNat : Int) - 0, if_neg hstop, ?_⟩
          exact ⟨by simp, by simp; omega, by simp; omega⟩
      | cons y t =>
          rw [List.mem_cons, not_or] at ht
          rw [List.cons_append, List.cons_append, strcmp]
          split
          · next h =>
              obtain ⟨r, hr, horders⟩ := ih hs.2 ht.2
              exact ⟨r, hr, h.2 ▸ horders.cons x⟩
          · next h =>
              exact ⟨_, rfl, Orders.of_ne (fun he => h ⟨Ne.symm hs.1, he⟩) s t⟩

section
variable {a b c : List U8} {ab ba bc ac : Int}

theorem Orders.le (h : Orders a b ab) : ab ≤ 0 ↔ a ≤ b := by
  rw [← Int.not_lt, h.gt, List.not_lt]

theorem Orders.sign_swap (hab : Orders a b ab) (hba : Orders b a ba) :
    ba.sign = -ab.sign := by
  obtain hlt | rfl | hgt := Int.lt_trichotomy ab 0
  · rw [Int.sign_eq_neg_one_of_neg hlt, Int.sign_eq_one_of_pos (hba.gt.2 (hab.lt.1 hlt))]
    rfl
  · rw [hba.eq.2 (hab.eq.1 rfl).symm]
    rfl
  · rw [Int.sign_eq_one_of_pos hgt, Int.sign_eq_neg_one_of_neg (hba.lt.2 (hab.gt.1 hgt))]

/-- A chain of comparisons is strict as soon as one of its steps is. -/
theorem Orders.trans (hab : Orders a b ab) (hbc : Orders b c bc) (hac : Orders a c ac)
    (h : ab ≤ 0) (h' : bc ≤ 0) : ac ≤ 0 ∧ (ac = 0 → ab = 0 ∧ bc = 0) := by
  have hle := hab.le.1 h
  have hle' := hbc.le.1 h'
  refine ⟨hac.le.2 (List.le_trans hle hle'), fun hz => ?_⟩
  obtain rfl := hac.eq.1 hz
  obtain rfl := List.le_antisymm hle hle'
  exact ⟨hab.eq.2 rfl, hbc.eq.2 rfl⟩

/-- `strcmp` decides the lexicographic order on unsigned bytes, whether a plain
`char` has a sign or not, and needs no character behind a terminator for it. -/
theorem strcmp_order (signed : Bool) (ha : 0 ∉ a) (hb : 0 ∉ b) (hc : 0 ∉ c) :
    ∃ ab ba bc ac, strcmpPlain signed (a ++ [0]) (b ++ [0]) = some ab ∧
      strcmpPlain signed (b ++ [0]) (a ++ [0]) = some ba ∧
      strcmpPlain signed (b ++ [0]) (c ++ [0]) = some bc ∧
      strcmpPlain signed (a ++ [0]) (c ++ [0]) = some ac ∧
      Orders a b ab ∧ ba.sign = -ab.sign ∧
      (ab ≤ 0 → bc ≤ 0 → ac ≤ 0 ∧ (ac = 0 → ab = 0 ∧ bc = 0)) := by
  simp only [strcmpPlain_eq]
  obtain ⟨ab, hab, oab⟩ := strcmp_orders ha hb
  obtain ⟨ba, hba, oba⟩ := strcmp_orders hb ha
  obtain ⟨bc, hbc, obc⟩ := strcmp_orders hb hc
  obtain ⟨ac, hac, oac⟩ := strcmp_orders ha hc
  exact ⟨ab, ba, bc, ac, hab, hba, hbc, hac, oab, oab.sign_swap oba, oab.trans obc oac⟩

/-- A prefix, and a byte that is negative where plain characters have a sign. -/
theorem strcmp_order_high_byte :
    ∃ ab ba bc ac, strcmpPlain true ([97] ++ [0]) ([97, 98] ++ [0]) = some ab ∧
      strcmpPlain true ([97, 98] ++ [0]) ([97] ++ [0]) = some ba ∧
      strcmpPlain true ([97, 98] ++ [0]) ([200] ++ [0]) = some bc ∧
      strcmpPlain true ([97] ++ [0]) ([200] ++ [0]) = some ac ∧
      Orders [97] [97, 98] ab ∧ ba.sign = -ab.sign ∧
      (ab ≤ 0 → bc ≤ 0 → ac ≤ 0 ∧ (ac = 0 → ab = 0 ∧ bc = 0)) :=
  strcmp_order true (by decide) (by decide) (by decide)

end

end MicroKernel.Proofs
