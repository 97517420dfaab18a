import MicroKernel.Lib.Reading
import MicroKernel.Machine.Word

/-!
# The multiboot structures (`kernel/multiboot.h`)

The boot loader leaves two structures behind: the information record whose
pointer it passes on, and the array of memory-map entries that record points
to. The record is read through its fields only, so it is a structure; the
entries are read through a raw cursor, so they stay in memory and an entry is
four loads at its packed offsets. The walk does not load all four every time,
so each field is a load of its own as well.
-/

namespace MicroKernel.Kernel

/-- `MBOOT_FLAG_MMAP`: the loader filled in the memory map. -/
def mbootFlagMmap : U32 := 0x040

/-- `multiboot_info_t`, the fields the memory manager reads. -/
structure MultibootInfo where
  flags : U32
  mmapLength : U32
  mmapAddr : U32

/-- `memory_map_t`, packed: `size` at 0, `base_addr` at 4, `length` at 12 and
`type` at 20. -/
structure MemoryMap where
  size : U32
  baseAddr : U64
  length : U64
  type : U32

def MemoryMap.load (m : PhysMem) (p : U32) : MemoryMap where
  size := m.read32 p
  baseAddr := m.read64 (p + 4)
  length := m.read64 (p + 12)
  type := m.read32 (p + 20)

section Fields

open ByteMem

def MemoryMap.sizeAt (p : U32) : Reading 32 U32 :=
  .load ⟨p, 0, 4⟩ fun n => .done (BitVec.ofNat 32 n)

def MemoryMap.baseAddrAt (p : U32) : Reading 32 U64 :=
  .load ⟨p, 4, 8⟩ fun n => .done (BitVec.ofNat 64 n)

def MemoryMap.lengthAt (p : U32) : Reading 32 U64 :=
  .load ⟨p, 12, 8⟩ fun n => .done (BitVec.ofNat 64 n)

def MemoryMap.typeAt (p : U32) : Reading 32 U32 :=
  .load ⟨p, 20, 4⟩ fun n => .done (BitVec.ofNat 32 n)

variable (m : PhysMem) (p : U32)

@[simp] theorem MemoryMap.sizeAt_value :
    (sizeAt p).value m = (load m p).size :=
  congrArg m.read32 (BitVec.add_zero p)

@[simp] theorem MemoryMap.baseAddrAt_value :
    (baseAddrAt p).value m = (load m p).baseAddr := rfl

@[simp] theorem MemoryMap.lengthAt_value :
    (lengthAt p).value m = (load m p).length := rfl

@[simp] theorem MemoryMap.typeAt_value :
    (typeAt p).value m = (load m p).type := rfl

@[simp] theorem MemoryMap.sizeAt_loads : (sizeAt p).loads m = [⟨p, 0, 4⟩] := rfl

@[simp] theorem MemoryMap.baseAddrAt_loads :
    (baseAddrAt p).loads m = [⟨p, 4, 8⟩] := rfl

@[simp] theorem MemoryMap.lengthAt_loads :
    (lengthAt p).loads m = [⟨p, 12, 8⟩] := rfl

@[simp] theorem MemoryMap.typeAt_loads :
    (typeAt p).loads m = [⟨p, 20, 4⟩] := rfl

end Fields

end MicroKernel.Kernel
