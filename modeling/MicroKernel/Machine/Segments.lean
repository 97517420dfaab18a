import MicroKernel.Machine.Calls

/-!
# Segments

How the processor reads a descriptor table. The eight bytes of a descriptor hold
a base, a limit of 20 bits, an access byte and four flags, base and limit in
pieces. A selector is an index with three bits below it, of which one chooses the
local table; there is none here.

Of the instructions of the model only `ltr` looks at a descriptor. What is said
here of the others is what a processor finds that does.
-/

namespace MicroKernel.X86

open ByteMem

structure Descriptor where
  base : U32
  limit : BitVec 20
  access : U8
  flags : BitVec 4
  deriving DecidableEq, Repr

def Descriptor.bytes (d : Descriptor) : List U8 :=
  bytes16 (d.limit.setWidth 16) ++ bytes16 (d.base.setWidth 16) ++
    [d.base.extractLsb' 16 8, d.access, d.flags ++ d.limit.extractLsb' 16 4,
      d.base.extractLsb' 24 8]

def readDescriptor (m : PhysMem) (a : U32) : Descriptor where
  base := m (a + 7) ++ (m (a + 4) ++ m.read16 (a + 2))
  limit := (m (a + 6)).extractLsb' 0 4 ++ m.read16 a
  access := m (a + 5)
  flags := (m (a + 6)).extractLsb' 4 4

/-- The last offset in the segment; with the granularity bit the limit counts pages. -/
def Descriptor.last (d : Descriptor) : Nat :=
  if d.flags.getLsbD 3 then d.limit.toNat * 4096 + 4095 else d.limit.toNat

/-- The descriptor that a selector names, where it names one: not by the index
zero, nor in a local table, nor past the limit. -/
def descriptor (m : PhysMem) (gdtr : U16 × U32) (sel : U16) : Option Descriptor :=
  if sel.toNat / 8 = 0 ∨ sel.getLsbD 2 ∨ gdtr.1.toNat < sel.toNat / 8 * 8 + 7 then none
  else some (readDescriptor m (gdtr.2 + BitVec.ofNat 32 (sel.toNat / 8 * 8)))

theorem base_pieces (b : U32) :
    (b.extractLsb' 24 8 ++ (b.extractLsb' 16 8 ++ (b.setWidth 16 : U16)) : U32) = b := by
  apply BitVec.eq_of_toNat_eq
  simp only [append_toNat, BitVec.extractLsb'_toNat, BitVec.toNat_setWidth,
    Nat.shiftRight_eq_div_pow]
  omega

theorem limit_pieces (f : BitVec 4) (l : BitVec 20) :
    (((f ++ l.extractLsb' 16 4 : U8).extractLsb' 0 4 : BitVec 4) ++ (l.setWidth 16 : U16) :
      BitVec 20) = l := by
  apply BitVec.eq_of_toNat_eq
  simp only [append_toNat, BitVec.extractLsb'_toNat, BitVec.toNat_setWidth,
    Nat.shiftRight_eq_div_pow]
  omega

theorem flags_piece (f l : BitVec 4) : (f ++ l : U8).extractLsb' 4 4 = f := by
  apply BitVec.eq_of_toNat_eq
  simp only [append_toNat, BitVec.extractLsb'_toNat, Nat.shiftRight_eq_div_pow]
  omega

theorem readDescriptor_of_holds {m : PhysMem} {a : U32} {d : Descriptor}
    (h : Holds m a d.bytes) : readDescriptor m a = d := by
  simp only [Descriptor.bytes, holds_append, Holds, List.length_append, bytes16_length] at h
  obtain ⟨⟨hlimit, hbase⟩, hmiddle, haccess, hflags, htop, -⟩ := h
  simp only [BitVec.add_assoc] at haccess hflags htop
  have hread : readDescriptor m a =
      { base := d.base.extractLsb' 24 8 ++ (d.base.extractLsb' 16 8 ++ d.base.setWidth 16)
        limit := (d.flags ++ d.limit.extractLsb' 16 4 : U8).extractLsb' 0 4 ++ d.limit.setWidth 16
        access := d.access
        flags := (d.flags ++ d.limit.extractLsb' 16 4 : U8).extractLsb' 4 4 } := by
    rw [← hmiddle, ← haccess, ← hflags, ← htop, ← read16_of_holds hlimit,
      ← read16_of_holds hbase]
    rfl
  rw [hread, base_pieces, limit_pieces, flags_piece]

/-! ## The task state segment -/

/-- A TSS, present and not in use, for 32 bits or for 16. -/
def Descriptor.availableTss (d : Descriptor) : Bool :=
  d.access.getLsbD 7 && (d.access &&& 0x1F == 0x09 || d.access &&& 0x1F == 0x01)

/-- `ltr r`, which faults where the selector names no descriptor, and where that is not
of an available TSS. The one it loads is in use from then on. -/
def ltr (r : Reg) : Routine := fun s =>
  let sel : U16 := (s.get r).setWidth 16
  (descriptor s.mem s.gdtr sel).bind fun d =>
    if d.availableTss then
      let used := s.store (s.gdtr.2 + BitVec.ofNat 32 (sel.toNat / 8 * 8) + 5) [d.access ||| 2]
      some { used with tr := sel }
    else none

theorem ltr_none {r : Reg} {s : Sys} (h : descriptor s.mem s.gdtr ((s.get r).setWidth 16) = none) :
    ltr r s = none := by
  rw [ltr, h, Option.bind_none]

/-- The stack segment and pointer that the processor takes for ring 0. -/
def ringZeroStack (m : PhysMem) (tss : U32) : U16 × U32 :=
  (m.read16 (tss + 8), m.read32 (tss + 4))

end MicroKernel.X86
