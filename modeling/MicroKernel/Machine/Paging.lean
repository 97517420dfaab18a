import MicroKernel.Machine.Word

/-!
# The page walk

How the processor translates an address once paging is on, by a directory and a
table of 1024 entries each. An entry holds the address of a frame in its upper
20 bits; bit 0 says that it is present, bit 1 that it can be written to, bit 2
that user code can use it. Where the extension for large pages is on (`pse`, a
bit of CR4), bit 7 of a directory entry makes it a page of 4 MiB.
-/

namespace MicroKernel.X86

structure Page where
  address : U32
  writable : Bool
  user : Bool
  deriving DecidableEq, Repr

def frame (entry : U32) : U32 := entry >>> 12 <<< 12

def entryAddr (table : U32) (i : Nat) : U32 := frame table + BitVec.ofNat 32 (4 * i)

/-- The walk from CR3. -/
def walk (m : PhysMem) (cr3 : U32) (pse : Bool) (va : U32) : Option Page :=
  let directory := m.read32 (entryAddr cr3 (va.toNat / 2 ^ 22))
  if !directory.getLsbD 0 then none
  else if pse && directory.getLsbD 7 then
    some {
      address := directory >>> 22 <<< 22 + BitVec.ofNat 32 (va.toNat % 2 ^ 22)
      writable := directory.getLsbD 1
      user := directory.getLsbD 2 }
  else
    let entry := m.read32 (entryAddr directory (va.toNat / 2 ^ 12 % 2 ^ 10))
    if !entry.getLsbD 0 then none
    else some {
      address := frame entry + BitVec.ofNat 32 (va.toNat % 2 ^ 12)
      writable := directory.getLsbD 1 && entry.getLsbD 1
      user := directory.getLsbD 2 && entry.getLsbD 2 }

theorem frame_toNat (e : U32) : (frame e).toNat = e.toNat / 4096 * 4096 := by
  have := e.isLt
  rw [frame, BitVec.toNat_shiftLeft, BitVec.toNat_ushiftRight, Nat.shiftRight_eq_div_pow,
    Nat.shiftLeft_eq]
  omega

/-- A page-aligned address with flags in its lower bits. -/
theorem frame_add {a b : U32} (ha : a.toNat % 4096 = 0) (hb : b.toNat < 4096) :
    frame (a + b) = a := by
  have := a.isLt
  apply BitVec.eq_of_toNat_eq
  rw [frame_toNat, BitVec.toNat_add]
  omega

theorem frame_of_aligned {a : U32} (ha : a.toNat % 4096 = 0) : frame a = a := by
  apply BitVec.eq_of_toNat_eq
  rw [frame_toNat]
  omega

theorem entryAddr_of_frame {e table : U32} (h : frame e = table) (i : Nat) :
    entryAddr e i = table + BitVec.ofNat 32 (4 * i) := by
  rw [entryAddr, h]

theorem flag_add {a b : U32} (ha : a.toNat % 4096 = 0) (hb : b.toNat < 4096) {i : Nat}
    (hi : i < 12) : (a + b).getLsbD i = b.getLsbD i := by
  have hsum : (a + b).toNat = 2 ^ 12 * (a.toNat / 4096) + b.toNat := by
    have := a.isLt
    rw [BitVec.toNat_add]
    omega
  rw [BitVec.getLsbD, BitVec.getLsbD, hsum, Nat.testBit_two_pow_mul_add _ hb, if_pos hi]

/-- Flags set in a page-aligned address. -/
theorem or_eq_add {a b : U32} (ha : a.toNat % 4096 = 0) (hb : b.toNat < 4096) :
    a ||| b = a + b := by
  have hsum : a.toNat = 2 ^ 12 * (a.toNat / 4096) := by omega
  have hlt := a.isLt
  apply BitVec.eq_of_toNat_eq
  rw [BitVec.toNat_or, BitVec.toNat_add, hsum, ← Nat.two_pow_add_eq_or_of_lt hb]
  omega

end MicroKernel.X86
