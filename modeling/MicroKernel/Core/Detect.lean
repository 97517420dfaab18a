import MicroKernel.Machine.System

/-!
# The memory map (`main.core.asm`, section 9)

`detect_memory` asks the BIOS for one entry after the other. What the BIOS does
is not in the source; it is a list of replies here, one for each call, and the
routine has no answer where more are asked for than there are. `e820_map_count`
follows `e820_map` in its section.
-/

namespace MicroKernel.Core

open X86

/-- What a call stores at EDI, and the registers it comes back with. -/
structure Reply where
  entry : List U8
  eax : U32
  ebx : U32
  ecx : U32
  edx : U32
  esi : U32
  edi : U32
  ebp : U32
  eflags : U32

/-- `int 0x15`. -/
def int15 (r : Reply) : Insn := fun s =>
  { s.store s.edi r.entry with
    eax := r.eax, ebx := r.ebx, ecx := r.ecx, edx := r.edx
    esi := r.esi, edi := r.edi, ebp := r.ebp, eflags := r.eflags }

/-- 'SMAP' -/
def smap : U32 := 0x534D4150

def e820MapEntrySize : Nat := 20

def e820MaxEntries : Nat := 128

variable (e820Map : U32)

def e820MapCount : U32 := e820Map + BitVec.ofNat 32 (e820MapEntrySize * e820MaxEntries)

/-- `.exit`, with the status in EAX. -/
def detectExit (status : U32) : List Insn := [cpu (movImm .eax status), cpu popad, ret]

/-- `.loop` -/
def detectLoop : List Reply → Routine
  | [], _ => none
  | r :: replies, s =>
      let s := run [cpu (movImm .eax 0xE820), cpu (movImm .edx smap), cpu (movImm .ecx 20),
        cpu (push .edi), int15 r, cpu (pop .edi)] s
      if s.cf then some (run (detectExit 0) s)
      else
        let s := cmpImm .eax smap s
        if !s.zf then some (run (detectExit 0) s)
        else
          let s := testSelf .ebx s
          if s.zf then some (run (detectExit 1) s)
          else
            let s := run [cpu (add .edi 20), incMem (e820MapCount e820Map),
              cmpMem (e820MapCount e820Map) (BitVec.ofNat 32 e820MaxEntries)] s
            if s.zf then some (run (detectExit 1) s)
            else detectLoop replies s

def detectMemory (replies : List Reply) : Routine := fun s =>
  detectLoop e820Map replies (run [cpu pushad, cpu (movImm .edi e820Map), xorSelf .ebx,
    xorSelf .ecx, storeReg (e820MapCount e820Map) .ecx] s)

end MicroKernel.Core
