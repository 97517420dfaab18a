import MicroKernel.Core.Vga
import MicroKernel.Machine.Calls
import MicroKernel.Spec.Terminal

/-!
# The memory of the VGA routines

They store in three places: the 64 KiB at 0xB0000 that the adapter decodes, the
two words of the cursor, and the stack. The screen and the cursor are read back
from memory here, and a store elsewhere does not change what is read.
-/

namespace MicroKernel.Proofs

open ByteMem X86 MicroKernel.Core Spec

/-- Where a store of a cell can end up: the upper half of its address is that of
the screen, and a word may stick out by a byte. -/
def InAdapter (a : U32) : Prop := Within 0xB0000 0xC0001 a

def InCursor (img : VgaImage) (a : U32) : Prop :=
  Within img.cursorX.toNat (img.cursorX.toNat + 8) a

/-- The `n` bytes of stack below `sp`. -/
def Below (sp : U32) (n : Nat) (a : U32) : Prop := Within (sp.toNat - n) sp.toNat a

def VgaRegion (img : VgaImage) (sp : U32) (n : Nat) (a : U32) : Prop :=
  InAdapter a ∨ InCursor img a ∨ Below sp n a

/-- The variables and the stack, down to `n` bytes below `sp`, are apart from the
adapter and from each other. The linker script puts the variables above 1 MiB. -/
structure Placed (img : VgaImage) (sp : U32) (n : Nat) : Prop extends Room sp n where
  vars : 0x100000 ≤ img.cursorX.toNat
  vars_top : img.cursorX.toNat + 9 ≤ 2 ^ 32
  adapter : sp.toNat + 4 ≤ 0xB0000 ∨ 0xC0001 ≤ sp.toNat - n
  apart : sp.toNat + 4 ≤ img.cursorX.toNat ∨ img.cursorX.toNat + 9 ≤ sp.toNat - n

structure AtCursor (img : VgaImage) (m : PhysMem) (x y : Nat) : Prop where
  x : m.read32 img.cursorX = BitVec.ofNat 32 x
  y : m.read32 img.cursorY = BitVec.ofNat 32 y

theorem below_mono {sp : U32} {n m : Nat} (h : n ≤ m) {a : U32} (ha : Below sp n a) :
    Below sp m a := by
  rw [Below, Within] at ha ⊢
  omega

theorem below_sub {sp : U32} {n k m : Nat} (hroom : Room sp (n + k)) (hk : 4 ≤ k)
    (hm : n + k ≤ m) {a : U32} (ha : Below (sp - BitVec.ofNat 32 k) n a) : Below sp m a := by
  obtain ⟨-, hsub⟩ := hroom.sub hk
  rw [Below, Within, hsub] at ha
  rw [Below, Within]
  omega

theorem touches_push (ra : U32) {u : Sys} {n : Nat} (hroom : Room u.esp n) (hn : 4 ≤ n) :
    Touches (Below u.esp n) u.mem (cpu (pushVal ra) u).mem :=
  (touches_pushDwords (n := 4) rfl (hroom.mono hn).below).mono fun _ => below_mono hn

section
variable {img : VgaImage} {sp : U32} {n k : Nat} {R : U32 → Prop} {m m' : PhysMem}

theorem Placed.sub (h : Placed img sp (n + k)) (hk : 4 ≤ k) :
    Placed img (sp - BitVec.ofNat 32 k) n ∧
      (sp - BitVec.ofNat 32 k).toNat = sp.toNat - k := by
  obtain ⟨hroom, hsub⟩ := h.toRoom.sub hk
  have := h.vars
  have := h.below
  refine ⟨⟨hroom, h.vars, h.vars_top, ?_, ?_⟩, hsub⟩ <;> rw [hsub]
  · exact h.adapter.imp (by omega) (by omega)
  · exact h.apart.imp (by omega) (by omega)

theorem Placed.mono (h : Placed img sp n) (hk : k ≤ n) : Placed img sp k :=
  ⟨h.toRoom.mono hk, h.vars, h.vars_top, h.adapter.imp id (by omega),
    h.apart.imp id (by omega)⟩

theorem Placed.cursorY_toNat (h : Placed img sp n) :
    img.cursorY.toNat = img.cursorX.toNat + 4 :=
  offset_toNat (i := 4) (n := 9) (by decide) h.vars_top

theorem Placed.attr_toNat (h : Placed img sp n) :
    img.textAttribute.toNat = img.cursorX.toNat + 8 :=
  offset_toNat (i := 8) (n := 9) (by decide) h.vars_top

/-- No routine changes the attribute. -/
theorem Placed.attr_touches (h : Placed img sp n) (ht : Touches (VgaRegion img sp n) m m') :
    m' img.textAttribute = m img.textAttribute := by
  have hattr := h.attr_toNat
  have := h.vars
  have := h.apart
  refine ht _ fun hin => ?_
  rw [VgaRegion, InAdapter, InCursor, Below, Within, Within, Within] at hin
  omega

/-! ## The screen -/

theorem cellAddr_toNat {i : Nat} (hi : i < 2000) :
    (cellAddr i).toNat = 0xB8000 + 2 * i := by
  rw [cellAddr, BitVec.toNat_add, BitVec.toNat_ofNat]
  show (0xB8000 + 2 * i % 2 ^ 32) % 2 ^ 32 = _
  omega

theorem cellAddr_succ (i : Nat) : cellAddr i + 2 = cellAddr (i + 1) := by
  rw [cellAddr, cellAddr, Nat.mul_succ, BitVec.ofNat_add, BitVec.add_assoc]
  rfl

theorem screenOf_touches (h : Touches R m m') (hout : ∀ x, InScreen x → ¬ R x) :
    screenOf m' = screenOf m := by
  refine List.ext_getElem (by simp [screenOf_length]) fun i hi _ => ?_
  have hlt : i < 2000 := by
    rw [screenOf_length] at hi
    exact hi
  have haddr := cellAddr_toNat hlt
  rw [screenOf_getElem, screenOf_getElem]
  refine read16_touches h (by omega) fun x hx => hout x ?_
  rw [Within, haddr] at hx
  exact ⟨by omega, by omega⟩

theorem screenOf_write {i : Nat} (hi : i < 2000) (v : U16) :
    screenOf (ByteMem.write m (cellAddr i) (bytes16 v)) = (screenOf m).set i v := by
  refine List.ext_getElem (by simp [screenOf_length]) fun j hj _ => ?_
  have hj' : j < 2000 := by
    rw [screenOf_length] at hj
    exact hj
  have haddr := cellAddr_toNat hi
  rw [screenOf_getElem, List.getElem_set, screenOf_getElem]
  split
  · next hij =>
      subst hij
      exact read16_write _ _ _
  · next hij =>
      have hother := cellAddr_toNat hj'
      have htouch := touches_write (m := m) (a := cellAddr i) (b := bytes16 v)
        (by rw [bytes16_length]; omega)
      refine read16_touches htouch (by omega) fun x hx hx' => ?_
      rw [Within, bytes16_length] at hx'
      rw [Within] at hx
      omega

/-- Words moved up to the front, 80 cells at a time. -/
theorem screenOf_copy (n : Nat) {i : Nat} (hi : i + 80 + n ≤ 2000) :
    screenOf (copy 2 2 n m (cellAddr (i + 80)) (cellAddr i)) =
      (screenOf m).take i ++ ((screenOf m).drop (i + 80)).take n ++
        (screenOf m).drop (i + n) := by
  induction n generalizing m i with
  | zero => simp [copy]
  | succ n ih =>
      have hlen := screenOf_length m
      have hsrc : i + 80 < (screenOf m).length := by omega
      have hdst : i < (screenOf m).length := by omega
      have hnext : i + 80 + 1 = i + 1 + 80 := by omega
      have hval : leBytes 2 (readLE m (cellAddr (i + 80)) 2) =
          bytes16 (screenOf m)[i + 80] := by
        rw [screenOf_getElem, bytes16_read16]
      rw [copy, cellAddr_succ, cellAddr_succ, hnext, ih (by omega), hval,
        screenOf_write (by omega)]
      generalize screenOf m = cells at *
      rw [List.drop_eq_getElem_cons hsrc, List.take_succ_cons, List.drop_set,
        List.drop_set, if_pos (by omega), if_pos (by omega), hnext,
        List.take_set, List.take_succ_eq_append_getElem hdst]
      have hset : (cells.take i ++ [cells[i]]).set i cells[i + 80] =
          cells.take i ++ [cells[i + 80]] := by
        have hpre : (cells.take i).length = i := by
          rw [List.length_take]
          omega
        rw [List.set_append_right _ _ (by omega), hpre, Nat.sub_self, List.set_cons_zero]
      have hend : i + 1 + n = i + (n + 1) := by omega
      rw [hset, hend]
      simp

theorem screenOf_fill (n : Nat) {i : Nat} (v : U16) (hi : i + n ≤ 2000) :
    screenOf (fill (bytes16 v) 2 n m (cellAddr i)) =
      (screenOf m).take i ++ List.replicate n v ++ (screenOf m).drop (i + n) := by
  induction n generalizing m i with
  | zero => simp [fill]
  | succ n ih =>
      have hdst : i < (screenOf m).length := by
        rw [screenOf_length]
        omega
      rw [fill, cellAddr_succ, ih (by omega), screenOf_write (by omega)]
      generalize screenOf m = cells at *
      have hset : (cells.set i v).take (i + 1) = cells.take i ++ [v] := by
        have hpre : (cells.take i).length = i := by
          rw [List.length_take]
          omega
        rw [List.take_set, List.take_succ_eq_append_getElem hdst,
          List.set_append_right _ _ (by omega), hpre, Nat.sub_self, List.set_cons_zero]
      have hend : i + 1 + n = i + (n + 1) := by omega
      rw [hset, List.drop_set, if_pos (by omega), hend, List.replicate_succ]
      simp

/-! ## The cursor -/

theorem AtCursor.touches {x y : Nat} (h : AtCursor img m x y) (hp : Placed img sp n)
    (ht : Touches R m m') (hout : ∀ a, InCursor img a → ¬ R a) : AtCursor img m' x y := by
  have hy := hp.cursorY_toNat
  have htop := hp.vars_top
  constructor
  · rw [← h.x]
    refine read32_touches ht (by omega) fun a ha => hout a ?_
    rw [Within] at ha
    exact ⟨by omega, by omega⟩
  · rw [← h.y]
    refine read32_touches ht (by omega) fun a ha => hout a ?_
    rw [Within] at ha
    exact ⟨by omega, by omega⟩

/-- Stores on the stack leave the cursor as it is. -/
theorem AtCursor.below {x y : Nat} (h : AtCursor img m x y) (hp : Placed img sp n)
    (ht : Touches (Below sp n) m m') : AtCursor img m' x y := by
  refine h.touches hp ht fun a ha hb => ?_
  have := hp.apart
  rw [InCursor, Within] at ha
  rw [Below, Within] at hb
  omega

theorem atCursor_writeX {x y x' : Nat} (h : AtCursor img m x y) (hp : Placed img sp n) :
    AtCursor img (ByteMem.write m img.cursorX (bytes32 (BitVec.ofNat 32 x'))) x' y := by
  have hy := hp.cursorY_toNat
  have htop := hp.vars_top
  refine ⟨read32_write _ _ _, (read32_write_apart _ ?_ ?_ ?_).trans h.y⟩
  · omega
  · omega
  · exact Or.inr (by omega)

theorem atCursor_writeY {x y y' : Nat} (h : AtCursor img m x y) (hp : Placed img sp n) :
    AtCursor img (ByteMem.write m img.cursorY (bytes32 (BitVec.ofNat 32 y'))) x y' := by
  have hy := hp.cursorY_toNat
  have htop := hp.vars_top
  refine ⟨(read32_write_apart _ ?_ ?_ ?_).trans h.x, read32_write _ _ _⟩
  · omega
  · omega
  · exact Or.inl (by omega)

end

end MicroKernel.Proofs
