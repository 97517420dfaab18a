import MicroKernel.Core.Memory
import MicroKernel.Lib.Block

/-!
# What `memcpy` copies

It copies upwards, so a target that begins below its source may reach into it:
the bytes it overwrites have been copied by then. A target that begins above its
source and reaches into it is what `memmove` is for, and this is not that: the
bytes between the two starts are repeated.
-/

namespace MicroKernel.Proofs

open ByteMem MicroKernel.Core

theorem memcpyLoop_eq (len : Nat) (d s : U32) (m : PhysMem) :
    memcpyLoop len d s m = copy 1 1 len m s d := by
  induction len generalizing d s m with
  | zero => rfl
  | succ len ih =>
      have hbyte : leBytes 1 (readLE m s 1) = [m s] := by
        obtain ⟨hfirst, -⟩ := holds_readLE m s 1
        rw [readLE, readLE, Nat.mul_zero, Nat.add_zero, leBytes, leBytes,
          BitVec.ofNat_toNat, BitVec.setWidth_eq]
      rw [memcpyLoop, ih, copy, hbyte]

/-- The `n` bytes from `a` on. -/
def Span (a n : U32) : U32 → Prop := Within a.toNat (a.toNat + n.toNat)

theorem memcpy_moves {dest src len : U32} (m : PhysMem)
    (hdest : dest.toNat + len.toNat ≤ 2 ^ 32) (hsrc : src.toNat + len.toNat ≤ 2 ^ 32)
    (hover : dest ≤ src ∨ ∀ a, Span dest len a → ¬ Span src len a) :
    (memcpy dest src len m).1 = dest ∧
      (∀ i, i < len → (memcpy dest src len m).2 (dest + i) = m (src + i)) ∧
      ∀ a, ¬ Span dest len a → (memcpy dest src len m).2 a = m a := by
  have hone : len.toNat * 1 = len.toNat := Nat.mul_one _
  have hcopy : (memcpy dest src len m).2 = copy 1 (BitVec.ofNat 32 1) len.toNat m src dest :=
    memcpyLoop_eq ..
  refine ⟨rfl, fun i hi => ?_, fun a ha => ?_⟩
  · have hlt : i.toNat < len.toNat := BitVec.lt_def.1 hi
    have hapart : dest.toNat ≤ src.toNat ∨ src.toNat + len.toNat * 1 ≤ dest.toNat := by
      obtain hle | hout := hover
      · exact Or.inl (BitVec.le_def.1 hle)
      · have hstart := hout dest ⟨Nat.le_refl _, by omega⟩
        rw [Span, Within] at hstart
        omega
    have hat := copy_up_at Nat.one_pos (by omega) (by omega) hapart i.toNat (by omega) (m := m)
    rw [BitVec.ofNat_toNat, BitVec.setWidth_eq] at hat
    rw [hcopy, hat]
  · rw [hcopy]
    refine touches_copy_up Nat.one_pos (by omega) a ?_
    rwa [hone]

/-- Three bytes moved down by one. -/
theorem memcpy_moves_down :
    (memcpy 0x1000 0x1001 3 fun a => a.setWidth 8).1 = 0x1000 ∧
      (∀ i, i < 3 → (memcpy 0x1000 0x1001 3 fun a => a.setWidth 8).2 (0x1000 + i) =
        (0x1001 + i).setWidth 8) ∧
      ∀ a, ¬ Span 0x1000 3 a →
        (memcpy 0x1000 0x1001 3 fun a => a.setWidth 8).2 a = a.setWidth 8 :=
  memcpy_moves _ (by decide) (by decide) (Or.inl (by decide))

theorem memcpy_repeats {dest src len : U32} (m : PhysMem)
    (hdest : dest.toNat + len.toNat ≤ 2 ^ 32) (hgt : src < dest) {i : Nat}
    (hi : i < len.toNat) :
    (memcpy dest src len m).2 (dest + BitVec.ofNat 32 i) =
      m (src + BitVec.ofNat 32 (i % (dest.toNat - src.toNat))) := by
  have hlt : src.toNat < dest.toNat := BitVec.lt_def.1 hgt
  have hcopy : (memcpy dest src len m).2 = copy 1 (BitVec.ofNat 32 1) len.toNat m src dest :=
    memcpyLoop_eq ..
  have hdist : dest = src + BitVec.ofNat 32 (dest.toNat - src.toNat) := by
    apply BitVec.eq_of_toNat_eq
    rw [offset_toNat (n := dest.toNat - src.toNat + 1) (Nat.lt_succ_self _) (by omega)]
    omega
  rw [hcopy]
  exact copy_up_behind (by omega) hdist (by omega) i hi

/-- Upwards it does what `memmove` does where the source repeats itself at the
distance of the two, and there only. -/
theorem memcpy_upwards {dest src len : U32} (m : PhysMem)
    (hdest : dest.toNat + len.toNat ≤ 2 ^ 32) (hgt : src < dest) :
    (∀ i < len.toNat, (memcpy dest src len m).2 (dest + BitVec.ofNat 32 i) =
      m (src + BitVec.ofNat 32 (i % (dest.toNat - src.toNat)))) ∧
    (∀ a, ¬ Span dest len a → (memcpy dest src len m).2 a = m a) ∧
    ((∀ i < len.toNat, (memcpy dest src len m).2 (dest + BitVec.ofNat 32 i) =
        m (src + BitVec.ofNat 32 i)) ↔
      ∀ i, i + (dest.toNat - src.toNat) < len.toNat →
        m (src + BitVec.ofNat 32 (i + (dest.toNat - src.toNat))) =
          m (src + BitVec.ofNat 32 i)) := by
  have hlt : src.toNat < dest.toNat := BitVec.lt_def.1 hgt
  have hcopy : (memcpy dest src len m).2 = copy 1 (BitVec.ofNat 32 1) len.toNat m src dest :=
    memcpyLoop_eq ..
  have hat : ∀ i < len.toNat, _ := fun i hi => memcpy_repeats m hdest hgt hi
  refine ⟨hat, fun a ha => ?_, ?_⟩
  · have hone : len.toNat * 1 = len.toNat := Nat.mul_one _
    rw [hcopy]
    refine touches_copy_up Nat.one_pos (by omega) a ?_
    rwa [hone]
  · rw [← forall_mod_iff (f := fun i => m (src + BitVec.ofNat 32 i))
      (Nat.sub_pos_of_lt hlt)]
    refine forall₂_congr fun i hi => ?_
    rw [hat i hi]

/-- Six bytes moved up by two. -/
theorem memcpy_upwards_two :
    (∀ i < (6 : U32).toNat, (memcpy 0x1002 0x1000 6 fun a => a.setWidth 8).2
        (0x1002 + BitVec.ofNat 32 i) =
      (0x1000 + BitVec.ofNat 32 (i % ((0x1002 : U32).toNat - (0x1000 : U32).toNat))).setWidth 8) ∧
    (∀ a, ¬ Span 0x1002 6 a →
      (memcpy 0x1002 0x1000 6 fun a => a.setWidth 8).2 a = a.setWidth 8) ∧
    ((∀ i < (6 : U32).toNat, (memcpy 0x1002 0x1000 6 fun a => a.setWidth 8).2
        (0x1002 + BitVec.ofNat 32 i) = (0x1000 + BitVec.ofNat 32 i).setWidth 8) ↔
      ∀ i, i + ((0x1002 : U32).toNat - (0x1000 : U32).toNat) < (6 : U32).toNat →
        (0x1000 + BitVec.ofNat 32
          (i + ((0x1002 : U32).toNat - (0x1000 : U32).toNat))).setWidth 8 =
          (0x1000 + BitVec.ofNat 32 i).setWidth 8) :=
  memcpy_upwards (fun a => a.setWidth 8) (by decide) (by decide)

end MicroKernel.Proofs
