import MicroKernel.Lib.ByteMem

/-!
# Machine words and physical memory

`kernel/utils.h` names the four unsigned types the kernel computes with, and
they are bit vectors here: every addition and every cast of the source wraps
exactly where theirs does. The i386 is little-endian and byte-addressed with
32-bit addresses, so physical memory is a `ByteMem.Mem 32`.
-/

namespace MicroKernel

abbrev U8 := BitVec 8
abbrev U16 := BitVec 16
/-- `unsigned int`, and every pointer of the target. -/
abbrev U32 := BitVec 32
abbrev U64 := BitVec 64

abbrev PhysMem := ByteMem.Mem 32

theorem toNat_ofNat_of_lt {n : Nat} (h : n < 2 ^ 32) :
    (BitVec.ofNat 32 n).toNat = n := by
  rw [BitVec.toNat_ofNat, Nat.mod_eq_of_lt h]

theorem ofNat_inj_iff {m n : Nat} (hm : m < 2 ^ 32) (hn : n < 2 ^ 32) :
    BitVec.ofNat 32 m = BitVec.ofNat 32 n ↔ m = n := by
  constructor
  · intro heq
    rw [← toNat_ofNat_of_lt hm, heq, toNat_ofNat_of_lt hn]
  · rintro rfl
    rfl

theorem ofNat_eq_zero_iff {n : Nat} (h : n < 2 ^ 32) :
    BitVec.ofNat 32 n = 0 ↔ n = 0 := ofNat_inj_iff h (by decide)

/-- A 16-bit load. -/
def PhysMem.read16 (m : PhysMem) (a : U32) : U16 :=
  BitVec.ofNat 16 (ByteMem.readLE m a 2)

def PhysMem.read32 (m : PhysMem) (a : U32) : U32 :=
  BitVec.ofNat 32 (ByteMem.readLE m a 4)

def PhysMem.read64 (m : PhysMem) (a : U32) : U64 :=
  BitVec.ofNat 64 (ByteMem.readLE m a 8)

/-- The bytes of a word, as a store lays them out. -/
def bytes16 (v : U16) : List U8 := ByteMem.leBytes 2 v.toNat
def bytes32 (v : U32) : List U8 := ByteMem.leBytes 4 v.toNat
def bytes64 (v : U64) : List U8 := ByteMem.leBytes 8 v.toNat

theorem halves (v : U32) : v.extractLsb' 16 16 ++ v.setWidth 16 = v := by
  ext i hi
  rw [BitVec.getElem_append]
  split
  · next hlt => rw [BitVec.getElem_setWidth, BitVec.getLsbD_eq_getElem]
  · next hge =>
      have hback : 16 + (i - 16) = i := by omega
      rw [BitVec.getElem_extractLsb', hback, BitVec.getLsbD_eq_getElem]

theorem append_toNat {v w : Nat} (hi : BitVec v) (lo : BitVec w) :
    (hi ++ lo).toNat = hi.toNat * 2 ^ w + lo.toNat := by
  rw [BitVec.toNat_append, ← Nat.shiftLeft_add_eq_or_of_lt lo.isLt, Nat.shiftLeft_eq]

/-- Two halves, the low one first. -/
theorem bytes32_append (hi lo : U16) :
    bytes32 (hi ++ lo) = bytes16 lo ++ bytes16 hi := by
  have hval : (hi ++ lo).toNat = hi.toNat * 65536 + lo.toNat := append_toNat hi lo
  have hcut : ∀ {x y : Nat}, x % 256 = y % 256 →
      BitVec.ofNat 8 x = BitVec.ofNat 8 y := by
    intro x y h
    apply BitVec.eq_of_toNat_eq
    rw [BitVec.toNat_ofNat, BitVec.toNat_ofNat]
    exact h
  simp only [bytes32, bytes16, ByteMem.leBytes, hval, List.cons_append,
    List.nil_append, List.cons.injEq, and_true]
  refine ⟨hcut ?_, hcut ?_, hcut ?_, hcut ?_⟩ <;> omega

/-- Words in ascending order of address. -/
def dwords (ws : List U32) : List U8 := ws.flatMap bytes32

@[simp] theorem dwords_cons (v : U32) (ws : List U32) :
    dwords (v :: ws) = bytes32 v ++ dwords ws := rfl

@[simp] theorem dwords_append (vs ws : List U32) :
    dwords (vs ++ ws) = dwords vs ++ dwords ws := List.flatMap_append

@[simp] theorem bytes16_length (v : U16) : (bytes16 v).length = 2 :=
  ByteMem.leBytes_length _ _

@[simp] theorem bytes32_length (v : U32) : (bytes32 v).length = 4 :=
  ByteMem.leBytes_length _ _

@[simp] theorem bytes64_length (v : U64) : (bytes64 v).length = 8 :=
  ByteMem.leBytes_length _ _

@[simp] theorem dwords_length (ws : List U32) :
    (dwords ws).length = 4 * ws.length := by
  induction ws with
  | nil => rfl
  | cons v ws ih =>
      rw [dwords_cons, List.length_append, bytes32_length, ih, List.length_cons]
      omega

theorem read16_of_holds {m : PhysMem} {a : U32} {v : U16}
    (h : ByteMem.Holds m a (bytes16 v)) : m.read16 a = v := by
  have hlt : v.toNat < 256 ^ 2 := Nat.lt_of_lt_of_eq v.isLt (by decide)
  rw [PhysMem.read16, ByteMem.readLE_of_holds h, Nat.mod_eq_of_lt hlt,
    BitVec.ofNat_toNat, BitVec.setWidth_eq]

theorem read32_of_holds {m : PhysMem} {a : U32} {v : U32}
    (h : ByteMem.Holds m a (bytes32 v)) : m.read32 a = v := by
  have hlt : v.toNat < 256 ^ 4 := Nat.lt_of_lt_of_eq v.isLt (by decide)
  rw [PhysMem.read32, ByteMem.readLE_of_holds h, Nat.mod_eq_of_lt hlt,
    BitVec.ofNat_toNat, BitVec.setWidth_eq]

theorem read64_of_holds {m : PhysMem} {a : U32} {v : U64}
    (h : ByteMem.Holds m a (bytes64 v)) : m.read64 a = v := by
  have hlt : v.toNat < 256 ^ 8 := Nat.lt_of_lt_of_eq v.isLt (by decide)
  rw [PhysMem.read64, ByteMem.readLE_of_holds h, Nat.mod_eq_of_lt hlt,
    BitVec.ofNat_toNat, BitVec.setWidth_eq]

theorem read16_write (m : PhysMem) (a : U32) (v : U16) :
    PhysMem.read16 (ByteMem.write m a (bytes16 v)) a = v :=
  read16_of_holds (ByteMem.holds_write (by rw [bytes16_length]; decide))

theorem read32_write (m : PhysMem) (a v : U32) :
    PhysMem.read32 (ByteMem.write m a (bytes32 v)) a = v :=
  read32_of_holds (ByteMem.holds_write (by rw [bytes32_length]; decide))

end MicroKernel
