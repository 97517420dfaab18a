import MicroKernel.Lib.Frame

/-!
# Block stores

A repeated store of the same bytes, and a repeated move of elements from one
place to another, each a given distance from the last. The distance can be
negative, and the two blocks of a move may overlap.
-/

namespace ByteMem

variable {w : Nat}

/-- The elements at `a`, `a + d` and so on, `n` of them. -/
def fill (bs : List (BitVec 8)) (d : BitVec w) : Nat → Mem w → BitVec w → Mem w
  | 0, m, _ => m
  | n + 1, m, a => fill bs d n (write m a bs) (a + d)

/-- Moves elements of `k` bytes, the source and the target going on together. -/
def copy (k : Nat) (d : BitVec w) : Nat → Mem w → BitVec w → BitVec w → Mem w
  | 0, m, _, _ => m
  | n + 1, m, src, dst =>
      copy k d n (write m dst (leBytes k (readLE m src k))) (src + d) (dst + d)

/-- The addresses of the bytes of the elements, in the order of the stores. -/
def strides (k : Nat) (d : BitVec w) : Nat → BitVec w → List (BitVec w)
  | 0, _ => []
  | n + 1, a => (List.range k).map (fun i => a + BitVec.ofNat w i) ++ strides k d n (a + d)

theorem readLE_lt (m : Mem w) (a : BitVec w) (n : Nat) : readLE m a n < 256 ^ n := by
  induction n generalizing a with
  | zero => exact Nat.one_pos
  | succ n ih =>
      have hb := (m a).isLt
      have hrest := ih (a + 1)
      rw [readLE, Nat.pow_succ]
      omega

section
variable {k n : Nat} {d a src dst : BitVec w} {bs : List (BitVec 8)} {m : Mem w}

/-- One step, in either direction. -/
theorem step_toNat (hd : d = BitVec.ofNat w k ∨ d = -BitVec.ofNat w k)
    (hlow : k ≤ a.toNat) (hhigh : a.toNat + k < 2 ^ w) :
    (a + d).toNat = a.toNat + k ∨ (a + d).toNat = a.toNat - k := by
  obtain rfl | rfl := hd
  · exact Or.inl (offset_toNat (Nat.lt_succ_self k) hhigh)
  · right
    rw [BitVec.add_neg_eq_sub]
    exact below_toNat hlow

/-- A store of one element, and then what `n` elements beyond it are touched by. -/
theorem touches_step {m' : Mem w} (hd : d = BitVec.ofNat w k ∨ d = -BitVec.ofNat w k)
    (hk : bs.length ≤ k) (hlow : n * k + k ≤ a.toNat) (hhigh : a.toNat + (n * k + k) < 2 ^ w)
    (hrest : n * k ≤ (a + d).toNat → (a + d).toNat + n * k < 2 ^ w →
      Touches (Within ((a + d).toNat - n * k) ((a + d).toNat + n * k)) (write m a bs) m') :
    Touches (Within (a.toNat - (n * k + k)) (a.toNat + (n * k + k))) m m' := by
  have hone : Touches (Within (a.toNat - (n * k + k)) (a.toNat + (n * k + k))) m
      (write m a bs) := by
    refine (touches_write (by omega)).mono fun x hx => ?_
    rw [Within] at hx ⊢
    omega
  have hnext := step_toNat (a := a) hd (by omega) (by omega)
  refine hone.trans ((hrest (by omega) (by omega)).mono fun x hx => ?_)
  rw [Within] at hx ⊢
  omega

theorem touches_fill (hd : d = BitVec.ofNat w k ∨ d = -BitVec.ofNat w k)
    (hk : bs.length ≤ k) (hlow : n * k ≤ a.toNat) (hhigh : a.toNat + n * k < 2 ^ w) :
    Touches (Within (a.toNat - n * k) (a.toNat + n * k)) m (fill bs d n m a) := by
  induction n generalizing m a with
  | zero => exact Touches.refl m
  | succ n ih =>
      rw [Nat.succ_mul] at hlow hhigh ⊢
      exact touches_step hd hk hlow hhigh ih

theorem touches_copy (hd : d = BitVec.ofNat w k ∨ d = -BitVec.ofNat w k)
    (hlow : n * k ≤ dst.toNat) (hhigh : dst.toNat + n * k < 2 ^ w) :
    Touches (Within (dst.toNat - n * k) (dst.toNat + n * k)) m (copy k d n m src dst) := by
  induction n generalizing m src dst with
  | zero => exact Touches.refl m
  | succ n ih =>
      rw [Nat.succ_mul] at hlow hhigh ⊢
      exact touches_step hd (Nat.le_of_eq (leBytes_length _ _)) hlow hhigh ih

/-- Going up, the elements lie from `a` on. -/
theorem strides_up (hhigh : a.toNat + n * k < 2 ^ w) :
    ∀ x ∈ strides k (BitVec.ofNat w k) n a, Within a.toNat (a.toNat + n * k) x := by
  induction n generalizing a with
  | zero => exact fun x hx => absurd hx List.not_mem_nil
  | succ n ih =>
      rw [Nat.succ_mul] at hhigh ⊢
      have hnext : (a + BitVec.ofNat w k).toNat = a.toNat + k :=
        offset_toNat (Nat.lt_succ_self k) (by omega)
      intro x hx
      obtain hx | hx := List.mem_append.1 hx
      · obtain ⟨i, hi, rfl⟩ := List.mem_map.1 hx
        have hik := List.mem_range.1 hi
        rw [Within, offset_toNat hik (by omega)]
        omega
      · have hrest := ih (by omega) x hx
        rw [Within] at hrest ⊢
        omega

/-! ## Going up -/

/-- One step up, when elements are left that memory has room for. -/
theorem up_toNat (hn : 0 < n) (hk : 0 < k) (hfit : a.toNat + (n * k + k) ≤ 2 ^ w) :
    (a + BitVec.ofNat w k).toNat = a.toNat + k := by
  have hpos := Nat.mul_pos hn hk
  rw [BitVec.toNat_add, BitVec.toNat_ofNat, Nat.add_mod_mod, Nat.mod_eq_of_lt (by omega)]

/-- A store of one element, and then what the `n` elements above it are touched by. -/
theorem touches_step_up {m' : Mem w} (hk : bs.length = k) (hpos : 0 < k)
    (hfit : a.toNat + (n * k + k) ≤ 2 ^ w)
    (hrest : (a + BitVec.ofNat w k).toNat + n * k ≤ 2 ^ w →
      Touches (Within (a + BitVec.ofNat w k).toNat ((a + BitVec.ofNat w k).toNat + n * k))
        (write m a bs) m') :
    Touches (Within a.toNat (a.toNat + (n * k + k))) m m' := by
  have hone : Touches (Within a.toNat (a.toNat + (n * k + k))) m (write m a bs) := by
    refine (touches_write (by omega)).mono fun x hx => ?_
    rw [Within] at hx ⊢
    omega
  obtain rfl | hn := Nat.eq_zero_or_pos n
  · -- past the last element the address may wrap, and nothing is touched there
    have hlt := (a + BitVec.ofNat w k).isLt
    refine hone.trans ((hrest (by omega)).mono fun x hx => ?_)
    rw [Within] at hx
    omega
  · have hnext := up_toNat hn hpos hfit
    refine hone.trans ((hrest (by omega)).mono fun x hx => ?_)
    rw [Within] at hx ⊢
    omega

theorem touches_fill_up (hk : bs.length = k) (hpos : 0 < k) (hfit : a.toNat + n * k ≤ 2 ^ w) :
    Touches (Within a.toNat (a.toNat + n * k)) m (fill bs (BitVec.ofNat w k) n m a) := by
  induction n generalizing m a with
  | zero => exact Touches.refl m
  | succ n ih =>
      rw [Nat.succ_mul] at hfit ⊢
      exact touches_step_up hk hpos hfit ih

theorem touches_copy_up (hpos : 0 < k) (hfit : dst.toNat + n * k ≤ 2 ^ w) :
    Touches (Within dst.toNat (dst.toNat + n * k)) m
      (copy k (BitVec.ofNat w k) n m src dst) := by
  induction n generalizing m src dst with
  | zero => exact Touches.refl m
  | succ n ih =>
      rw [Nat.succ_mul] at hfit ⊢
      exact touches_step_up (leBytes_length _ _) hpos hfit ih

/-- A move up from a source that the target does not begin inside of copies what
was there before: what a step overwrites has been read by then. -/
theorem copy_up_at (hpos : 0 < k) (hsrc : src.toNat + n * k ≤ 2 ^ w)
    (hdst : dst.toNat + n * k ≤ 2 ^ w)
    (hover : dst.toNat ≤ src.toNat ∨ src.toNat + n * k ≤ dst.toNat) :
    ∀ i < n * k, copy k (BitVec.ofNat w k) n m src dst (dst + BitVec.ofNat w i) =
      m (src + BitVec.ofNat w i) := by
  induction n generalizing m src dst with
  | zero => exact fun i hi => absurd hi (by omega)
  | succ n ih =>
      intro i hi
      rw [Nat.succ_mul] at hi hsrc hdst hover
      have hlen : (leBytes k (readLE m src k)).length = k := leBytes_length _ _
      have hfirst : Touches (Within dst.toNat (dst.toNat + k)) m
          (write m dst (leBytes k (readLE m src k))) := by
        have h := touches_write (m := m) (a := dst) (b := leBytes k (readLE m src k))
          (by rw [hlen]; omega)
        rwa [hlen] at h
      have hnext : ∀ {a : BitVec w}, 0 < n → a.toNat + (n * k + k) ≤ 2 ^ w →
          (a + BitVec.ofNat w k).toNat = a.toNat + k := fun hn => up_toNat hn hpos
      rw [copy]
      by_cases hik : i < k
      · -- the first element, which the rest of the move keeps off
        have hval := write_at (m := m) (a := dst) (i := i) (hlen.symm ▸ hik) (by omega)
        rw [← (holds_iff.1 (holds_readLE m src k)) i (hlen.symm ▸ hik)] at hval
        rw [← hval]
        obtain rfl | hn := Nat.eq_zero_or_pos n
        · rfl
        · have hd := hnext hn hdst
          refine touches_copy_up hpos (by omega) _ fun hin => ?_
          rw [Within, offset_toNat hik (by omega)] at hin
          omega
      · have hn : 0 < n := Nat.pos_of_ne_zero fun h => by
          subst h
          omega
        have hs := hnext hn hsrc
        have hd := hnext hn hdst
        have hsplit : ∀ a : BitVec w, a + BitVec.ofNat w i =
            a + BitVec.ofNat w k + BitVec.ofNat w (i - k) := by
          intro a
          rw [BitVec.add_assoc, ← BitVec.ofNat_add, Nat.add_sub_cancel' (Nat.le_of_not_lt hik)]
        rw [hsplit dst, ih (by omega) (by omega) (by omega) (i - k) (by omega), ← hsplit src]
        refine hfirst _ fun hin => ?_
        rw [Within, offset_toNat hi hsrc] at hin
        omega

/-- What is the same at any two places `g` apart is given by its first `g` values. -/
theorem forall_mod_iff {β : Type*} {f : Nat → β} {g n : Nat} (hg : 0 < g) :
    (∀ i < n, f (i % g) = f i) ↔ ∀ i, i + g < n → f (i + g) = f i := by
  constructor
  · intro h i hi
    rw [← h (i + g) hi, Nat.add_mod_right]
    exact h i (by omega)
  · intro h i
    induction i using Nat.strongRecOn with
    | ind i ih =>
        intro hi
        obtain hlt | hge := Nat.lt_or_ge i g
        · rw [Nat.mod_eq_of_lt hlt]
        · have hback : i - g + g = i := Nat.sub_add_cancel hge
          rw [Nat.mod_eq_sub_mod hge, ih (i - g) (by omega) (by omega), ← h (i - g) (by omega),
            hback]

/-- A move up of bytes whose target begins `g` above its source reads what it has
stored itself, from the `g`-th byte on: the first `g` bytes are repeated. -/
theorem copy_up_behind {g : Nat} (hg : 0 < g) (hdst : dst = src + BitVec.ofNat w g)
    (hfit : src.toNat + g + n ≤ 2 ^ w) :
    ∀ i < n, copy 1 (BitVec.ofNat w 1) n m src dst (dst + BitVec.ofNat w i) =
      m (src + BitVec.ofNat w (i % g)) := by
  induction n generalizing m src dst with
  | zero => exact fun i hi => absurd hi (Nat.not_lt_zero i)
  | succ n ih =>
      intro i hi
      have hd : dst.toNat = src.toNat + g := by
        rw [hdst]
        exact offset_toNat (Nat.lt_add_of_pos_right (Nat.succ_pos n)) (by omega)
      have hone : ∀ {a : BitVec w}, a.toNat + 1 < 2 ^ w →
          (a + BitVec.ofNat w 1).toNat = a.toNat + 1 := fun h =>
        offset_toNat (Nat.lt_succ_self 1) h
      -- the byte that this round stores
      have hbyte : write m dst (leBytes 1 (readLE m src 1)) dst = m src := by
        have h : Holds (write m dst (leBytes 1 (readLE m src 1))) dst
            (leBytes 1 (readLE m src 1)) := holds_write (by rw [leBytes_length]; omega)
        exact h.1.trans (holds_readLE m src 1).1.symm
      have hkeep : ∀ x : BitVec w, x.toNat < dst.toNat →
          write m dst (leBytes 1 (readLE m src 1)) x = m x := by
        intro x hx
        refine touches_write (by rw [leBytes_length]; omega) x fun hin => ?_
        rw [Within] at hin
        omega
      rw [copy]
      generalize write m dst (leBytes 1 (readLE m src 1)) = m' at *
      cases i with
      | zero =>
          rw [Nat.zero_mod, BitVec.add_zero, BitVec.add_zero, ← hbyte]
          obtain rfl | hn := Nat.eq_zero_or_pos n
          · rfl
          · have hnext := hone (a := dst) (by omega)
            refine touches_copy_up Nat.one_pos (by omega) dst fun hin => ?_
            rw [Within] at hin
            omega
      | succ i =>
          have hs := hone (a := src) (by omega)
          have hstep : ∀ a : BitVec w, a + BitVec.ofNat w (i + 1) =
              a + BitVec.ofNat w 1 + BitVec.ofNat w i := by
            intro a
            rw [Nat.add_comm i, BitVec.ofNat_add, BitVec.add_assoc]
          have hdst' : dst + BitVec.ofNat w 1 = src + BitVec.ofNat w 1 + BitVec.ofNat w g := by
            rw [hdst, BitVec.add_assoc, BitVec.add_assoc, BitVec.add_comm (BitVec.ofNat w g)]
          have hlt := Nat.mod_lt i hg
          have hnext : (i + 1) % g = (i % g + 1) % g := (Nat.mod_add_mod i g 1).symm
          rw [hstep dst, ih hdst' (by omega) i (by omega), BitVec.add_assoc, ← BitVec.ofNat_add,
            Nat.add_comm 1]
          by_cases hwrap : i % g + 1 = g
          · rw [hwrap, ← hdst, hbyte, hnext, hwrap, Nat.mod_self, BitVec.add_zero]
          · rw [hnext, Nat.mod_eq_of_lt (by omega : i % g + 1 < g)]
            refine hkeep _ ?_
            rw [offset_toNat (n := g) (by omega) (by omega)]
            omega

end

end ByteMem
