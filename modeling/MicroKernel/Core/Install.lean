import MicroKernel.Core.Interrupts
import MicroKernel.Core.Vga
import MicroKernel.Machine.Segments

/-!
# Setting up the processor (`main.core.asm`)

The routines that `_start` calls one by one: `gdt_install` (section 3),
`idt_install` with what it calls (4), `paging_install` (10), `pit_install` (11),
`fpu_sse_install` (13) and `tss_install` (15). Where the linker puts what they
name is in the image.

`out` and `mov` are written with operands that the assembler has no form for in
`pic_remap` and in the gate macro; they are taken for what they plainly mean.
-/

namespace MicroKernel.Core

open X86

/-- The calls of `_start`, but for those that print, and of `idt_install`. -/
inductive BootCall where
  | clearScreen
  | gdtInstall
  | tssInstall
  | idtInstall
  | populateIdt
  | picRemap
  | pitInstall
  | fpuSseInstall
  | pagingInstall
  deriving DecidableEq, Repr

/-- The texts of section 16. -/
inductive Message where
  | boot
  | gdtOk
  | idtOk
  | pitOk
  | fpuOk
  | pagingOk
  | handover
  deriving DecidableEq, Repr

structure Image where
  vga : VgaImage
  idtPtr : U32
  idtStart : U32
  kernelStackTop : U32
  pageDirectory : U32
  firstPageTable : U32
  gdtPtr : U32
  gdtTss : U32
  tssEntry : U32
  bootMessage : U32
  stub : Label → U32
  ra : BootCall → U32
  raPrint : Message → U32

/-- One way to link the kernel: its sections one after the other, the data from
0x110000 and the zeroed memory from 0x120000. -/
def linkedImage : Image where
  vga := { cursorX := 0x110008, ra := fun _ => 0x100100 }
  idtPtr := 0x110000
  idtStart := 0x120000
  kernelStackTop := 0x124800
  pageDirectory := 0x126000
  firstPageTable := 0x127000
  gdtPtr := 0x100200
  gdtTss := 0x110014
  tssEntry := 0x128000
  bootMessage := 0x11001C
  stub := fun _ => 0x100300
  ra := fun _ => 0x100400
  raPrint := fun _ => 0x100500

variable (img : Image)

/-! ## The GDT -/

/-- From `gdt_start` to `gdt_end`. -/
def gdtBytes : List U8 :=
  bytes32 0x0 ++ bytes32 0x0 ++
    (bytes16 0xFFFF ++ bytes16 0x0000 ++ [0x00, 0x9A, 0xCF, 0x00]) ++
    (bytes16 0xFFFF ++ bytes16 0x0000 ++ [0x00, 0x92, 0xCF, 0x00])

/-- The table is right before `gdt_ptr`. -/
def Image.gdtStart : U32 := img.gdtPtr - BitVec.ofNat 32 gdtBytes.length

def gdtPtrBytes : List U8 :=
  bytes16 (BitVec.ofNat 16 (gdtBytes.length - 1)) ++ bytes32 img.gdtStart

/-- `gdt_tss`, which is in another section. -/
def gdtTssBytes : List U8 := bytes16 0 ++ bytes16 0 ++ [0, 0x89, 0, 0]

def gdtInstall : Routine :=
  straight [lgdt img.gdtPtr, cpu (mov16 .eax 0x10),
    cpu (movSeg .ds .eax), cpu (movSeg .es .eax), cpu (movSeg .fs .eax),
    cpu (movSeg .gs .eax), movSs .eax, farJump 0x08, ret]

/-! ## The IDT and the interrupt controller -/

def populateIdtBody : List Insn := (populateIdt img.idtStart img.stub).map cpu

def picRemapBody : List Insn :=
  [outImm 0x20 0x11, outImm 0xA0 0x11, outImm 0x21 0x20, outImm 0xA1 0x28,
    outImm 0x21 0x04, outImm 0xA1 0x02, outImm 0x21 0x01, outImm 0xA1 0x01,
    outImm 0x21 0xFF, outImm 0xA1 0xFF]

def idtInstall : Routine :=
  inOrder [
    straight [cpu (movImm .eax img.idtPtr), pokeAt16 .eax (256 * 8 - 1),
      cpu (movImm .edx img.idtStart), storeAt .eax 2 .edx],
    callTo (img.ra .populateIdt) (straight (populateIdtBody img ++ [ret])),
    callTo (img.ra .picRemap) (straight (picRemapBody ++ [ret])),
    straight [lidt img.idtPtr, cpu sti, ret]]

/-! ## The TSS -/

/-- Up to the `ltr`. -/
def tssInstallBody : List Insn :=
  [cpu (movImm .eax img.tssEntry), cpu (movImm .ecx 104),
    storeLow16 (img.gdtTss + 2) .eax, cpu (shr .eax 16),
    storeAl (img.gdtTss + 4), storeAh (img.gdtTss + 7),
    storeLow16 img.gdtTss .ecx, poke8 (img.gdtTss + 6) 0x00,
    cpu (movImm .edi img.tssEntry), cpu (movImm .ecx (104 / 4)), xorSelf .eax, rep stosd,
    poke16 (img.tssEntry + 4) 0x10, poke32 (img.tssEntry + 8) img.kernelStackTop,
    cpu (mov16 .eax 0x18)]

def tssInstall : Routine :=
  inOrder [straight (tssInstallBody img), ltr .eax, straight [ret]]

/-! ## Paging -/

def pageFlagPresent : U32 := 1

def pageFlagReadwrite : U32 := 2

/-- `.map_page_loop` -/
def mapPage : Insn := run [storeAt .edi 0 .eax, cpu (add .eax 4096), cpu (add .edi 4)]

/-- Both tables are cleared, then the second is filled. -/
def fillTables : List Insn :=
  [cpu (movImm .edi img.pageDirectory), cpu (movImm .ecx 1024), xorSelf .eax, rep stosd,
    cpu (movImm .edi img.firstPageTable), cpu (movImm .ecx 1024), xorSelf .eax, rep stosd,
    cpu (movImm .edi img.firstPageTable), cpu (movImm .ecx 1024),
    cpu (movImm .eax (pageFlagPresent ||| pageFlagReadwrite)), loopBack mapPage]

def enablePaging : List Insn :=
  [cpu (movImm .eax img.firstPageTable), orImm .eax (pageFlagPresent ||| pageFlagReadwrite),
    storeReg img.pageDirectory .eax, cpu (movImm .eax img.pageDirectory), toCr3 .eax,
    fromCr0 .eax, orImm .eax 0x80000000, toCr0 .eax]

def pagingInstall : Routine := straight (fillTables img ++ enablePaging img ++ [ret])

/-! ## The timer -/

def pitBaseFrequency : U32 := 1193182

/-- The frequency is the argument on the stack. -/
def pitInstall : Routine := fun s =>
  let exit := run [cpu (mov .esp .ebp), cpu (pop .ebp), ret]
  let s := run [cpu (push .ebp), cpu (mov .ebp .esp), loadAt .eax .ebp 8, cmpImm .eax 0] s
  if s.zf then some (exit s)
  else
    (div .ebx (run [cpu (movImm .edx 0), cpu (movImm .ebx pitBaseFrequency)] s)).map fun s =>
      exit (run [cpu (mov .ecx .eax), movAl 0x36, outAl 0x43, movAlLow .ecx, outAl 0x40,
        movAlHigh .ecx, outAl 0x40] s)

/-! ## FPU and SSE -/

def fpuSseInstall (cpuid : U32 → CpuidAnswer) : Routine := fun s =>
  let s := run [fromCr0 .eax, andImm .eax 0xFFFB, orImm .eax 0x20, toCr0 .eax,
    cpu (movImm .eax 1), cpuidInsn cpuid, bt .edx 25] s
  if s.cf then some (run [fromCr4 .eax, orImm .eax 0x00000600, toCr4 .eax, finit, ret] s)
  else some (run [finit, ret] s)

end MicroKernel.Core
