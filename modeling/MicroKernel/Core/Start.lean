import MicroKernel.Core.Install
import MicroKernel.Machine.Console

/-!
# `_start` (`main.core.asm`, section 16)

The second definition of the label, which the comment above it says replaces
the first, up to the call of `kmain`. What it pushes is `kmain`'s argument.
-/

namespace MicroKernel.Core

open X86

def Message.text : Message → List U8
  | .boot => ascii "Imperium OS Booting..." ++ [0x0A]
  | .gdtOk => ascii " [ OK ] GDT and TSS installed." ++ [0x0A]
  | .idtOk => ascii " [ OK ] IDT and PIC configured." ++ [0x0A]
  | .pitOk => ascii " [ OK ] PIT initialized." ++ [0x0A]
  | .fpuOk => ascii " [ OK ] FPU/SSE units enabled." ++ [0x0A]
  | .pagingOk => ascii " [ OK ] Paging mechanism enabled." ++ [0x0A]
  | .handover =>
      [0x0A] ++ ascii "Handing over control to high-level kernel..." ++ [0x0A, 0x0A]

def Message.bytes (m : Message) : List U8 := m.text ++ [0]

/-- In the order of the section. -/
def messages : List Message := [.boot, .gdtOk, .idtOk, .pitOk, .fpuOk, .pagingOk, .handover]

def messageBytes : List U8 := messages.flatMap Message.bytes

/-- How far a text is from the first. -/
def Message.offset (m : Message) : Nat :=
  ((messages.takeWhile (· != m)).flatMap Message.bytes).length

variable (img : Image)

def Image.message (m : Message) : U32 := img.bootMessage + BitVec.ofNat 32 m.offset

def printMessage (m : Message) : Routine :=
  inOrder [straight [cpu (movImm .esi (img.message m))],
    callTo (img.raPrint m) (vgaPrintString img.vga)]

/-- Before the call of `tss_install`. -/
def startHead : List Routine := [
  straight [cpu cli, cpu (movImm .esp img.kernelStackTop)],
  callTo (img.ra .clearScreen) (vgaClearScreen img.vga),
  printMessage img .boot,
  callTo (img.ra .gdtInstall) (gdtInstall img)]

/-- Behind it. -/
def startTail (cpuid : U32 → CpuidAnswer) : List Routine := [
  printMessage img .gdtOk,
  callTo (img.ra .idtInstall) (idtInstall img),
  printMessage img .idtOk,
  inOrder [straight [cpu (pushByte 100)], callTo (img.ra .pitInstall) pitInstall,
    straight [cpu (add .esp 4)]],
  printMessage img .pitOk,
  callTo (img.ra .fpuSseInstall) (fpuSseInstall cpuid),
  printMessage img .fpuOk,
  callTo (img.ra .pagingInstall) (pagingInstall img),
  printMessage img .pagingOk,
  printMessage img .handover,
  straight [cpu sti, cpu (push .ebx)]]

def start (cpuid : U32 → CpuidAnswer) : Routine :=
  inOrder (startHead img ++ callTo (img.ra .tssInstall) (tssInstall img) :: startTail img cpuid)

end MicroKernel.Core
