import MicroKernel.Machine.X86

/-!
# Interrupt stubs of `main.core.asm`

Section 5 of the file: three stub macros, the lines that expand them, and the
two common stubs they jump to. A jump is a concatenation here. The C handlers
are not in the repository, so a stub takes them as a parameter, together with
the address the linker gives the instruction after each call.

`populate_idt` ties the stubs to vectors. It is a list of macro calls too, and
what the processor finds in a gate afterwards is read back from its bytes.
-/

namespace MicroKernel.Core

open X86

/-- The two C functions the stubs call. -/
inductive Handler where
  | faultHandler
  | irqHandler
  deriving DecidableEq, Repr

inductive Label where
  | isr (n : Nat)
  | irq (n : Nat)
  deriving DecidableEq, Repr

inductive StubMacro where
  | isrNoErrStub (n : Nat)
  | isrErrStub (n : Nat)
  | irqStub (k n : Nat)
  deriving DecidableEq, Repr

def StubMacro.label : StubMacro → Label
  | .isrNoErrStub n => .isr n
  | .isrErrStub n => .isr n
  | .irqStub k _ => .irq k

/-! ## The common stubs

They differ in the handler they call and in nothing else. -/

def commonEntry : List Op :=
  [pushad, movFromSeg .eax .ds, push .eax,
    mov16 .eax 0x10, movSeg .ds .eax, movSeg .es .eax, movSeg .fs .eax,
    movSeg .gs .eax,
    mov .eax .esp, push .eax]

def commonExit : List Op :=
  [pop .eax, pop .ebx,
    movSeg .ds .ebx, movSeg .es .ebx, movSeg .fs .ebx, movSeg .gs .ebx,
    popad, add .esp 8, iret]

def commonStub (ra : U32) (handler : Op) : List Op :=
  commonEntry ++ call ra handler :: commonExit

variable (ret : Handler → U32) (ext : Handler → Op)

def isrCommonStub : List Op := commonStub (ret .faultHandler) (ext .faultHandler)

def irqCommonStub : List Op := commonStub (ret .irqHandler) (ext .irqHandler)

/-- What a macro call expands to, followed by the stub it jumps to. -/
def StubMacro.code : StubMacro → List Op
  | .isrNoErrStub n =>
      [cli, pushByte 0, pushByte (BitVec.ofNat 8 n)] ++ isrCommonStub ret ext
  | .isrErrStub n => [cli, pushByte (BitVec.ofNat 8 n)] ++ isrCommonStub ret ext
  | .irqStub _ n =>
      [cli, pushByte 0, pushByte (BitVec.ofNat 8 n)] ++ irqCommonStub ret ext

/-- The macro calls, in the order of the file. -/
def stubs : List StubMacro :=
  [.isrNoErrStub 0, .isrNoErrStub 1, .isrNoErrStub 2, .isrNoErrStub 3,
    .isrNoErrStub 4, .isrNoErrStub 5, .isrNoErrStub 6, .isrNoErrStub 7,
    .isrErrStub 8, .isrNoErrStub 9, .isrErrStub 10, .isrErrStub 11,
    .isrErrStub 12, .isrErrStub 13, .isrErrStub 14, .isrNoErrStub 15,
    .isrNoErrStub 16, .isrErrStub 17, .isrNoErrStub 18, .isrNoErrStub 19,
    .isrNoErrStub 20, .isrErrStub 21, .isrNoErrStub 22, .isrNoErrStub 23,
    .isrNoErrStub 24, .isrNoErrStub 25, .isrNoErrStub 26, .isrNoErrStub 27,
    .isrErrStub 28, .isrErrStub 29, .isrErrStub 30, .isrErrStub 31,
    .irqStub 0 32, .irqStub 1 33, .irqStub 2 34, .irqStub 3 35,
    .irqStub 4 36, .irqStub 5 37, .irqStub 6 38, .irqStub 7 39,
    .irqStub 8 40, .irqStub 9 41, .irqStub 10 42, .irqStub 11 43,
    .irqStub 12 44, .irqStub 13 45, .irqStub 14 46, .irqStub 15 47]

/-! ## The IDT -/

/-- The first two arguments of each `SET_IDT_GATE` of `populate_idt`: `isr0` to
`isr31` for the vectors 0 to 31, then `irq0` to `irq15`. -/
def idtGates : List (Nat × Label) :=
  (List.range 32).map (fun n => (n, .isr n)) ++
    (List.range 16).map (fun k => (32 + k, .irq k))

def gateAddr (idtStart : U32) (n : Nat) : U32 := idtStart + BitVec.ofNat 32 (8 * n)

def setIdtGate (idtStart : U32) (n : Nat) (isr : U32) (sel : U16) (attr : U8) :
    List Op :=
  let gate := gateAddr idtStart n
  [movImm .edx isr, store16 gate .edx, store16Imm (gate + 2) sel,
    store8Imm (gate + 4) 0, store8Imm (gate + 5) attr,
    movLow .edx .edx, shr .edx 16, store16 (gate + 6) .edx]

/-- `populate_idt`, where `addr` is where the linker puts each stub. -/
def populateIdt (idtStart : U32) (addr : Label → U32) : List Op :=
  idtGates.flatMap fun g => setIdtGate idtStart g.1 (addr g.2) 0x08 0x8E

structure Gate where
  offset : U32
  sel : U16
  flags : U8
  deriving DecidableEq, Repr

def readGate (m : PhysMem) (idtStart : U32) (n : Nat) : Gate :=
  let gate := gateAddr idtStart n
  { offset := m.read16 (gate + 6) ++ m.read16 gate
    sel := m.read16 (gate + 2)
    flags := m (gate + 5) }

/-! ## A vector, from the gate to `iret` -/

/-- The stub `populate_idt` gives a vector. -/
def vectorStub (v : Nat) : Option StubMacro :=
  (idtGates.lookup v).bind fun l => stubs.find? (·.label == l)

/-- The vectors whose stub expects the processor to push an error code. -/
def hasErrorCode (v : Nat) : Bool := stubs.contains (.isrErrStub v)

/-- The processor takes vector `v` in the context `c` and runs its stub. -/
def runVector (v : Nat) (off : U32) (err : Option U32) (c : Cpu) : Option Cpu :=
  (vectorStub v).map fun m => exec (m.code ret ext) (interrupt 0x08 off err c)

end MicroKernel.Core
