import MicroKernel.Machine.X86

/-!
# Interrupt stubs of `kernel/isr.s`

The stubs of the smaller kernel, for vectors without an error code. The C
function `isr_handler` is a parameter, with the address of the instruction
after the call.
-/

namespace MicroKernel.Kernel

open X86

/-- `isr_handler_common`, up to the call. -/
def isrHandlerEntry : List Op :=
  [pushad, movFromSeg .eax .ds, push16 .eax,
    mov16 .eax 0x10, movSeg .ds .eax, movSeg .es .eax, movSeg .fs .eax,
    movSeg .gs .eax]

def isrHandlerExit : List Op :=
  [pop16 .eax, movSeg .ds .eax, movSeg .es .eax, movSeg .fs .eax,
    movSeg .gs .eax, popad, add .esp 8, sti, iret]

def isrHandlerCommon (ra : U32) (isrHandler : Op) : List Op :=
  isrHandlerEntry ++ call ra isrHandler :: isrHandlerExit

def isrNoErrStub (ra : U32) (isrHandler : Op) (n : Nat) : List Op :=
  [cli, pushVal (BitVec.ofNat 32 n)] ++ isrHandlerCommon ra isrHandler

def isrStubs : List Nat := [0, 1, 33]

/-- The processor takes vector `n`, which has no error code, and runs its
stub. -/
def runIsr (ra : U32) (isrHandler : Op) (n : Nat) (sel : U16) (off : U32)
    (c : Cpu) : Cpu :=
  exec (isrNoErrStub ra isrHandler n) (interrupt sel off none c)

end MicroKernel.Kernel
