import MicroKernel.Kernel.Pmm
import MicroKernel.Kernel.String

/-!
# `kernel/kernel.c`

`hex_to_str`, which `kernel_main` prints its first pages with, and what
`kernel_main` draws. `init_idt` is a matter of its own (`Idt.lean`), and an
interrupt that comes meanwhile does its own drawing. The `hlt` loop is left out.
-/

namespace MicroKernel.Kernel

def upperHexTable : List U8 := ascii "0123456789ABCDEF"

/-- The loop, from `i - 1` down to zero. -/
def hexToStrLoop {k : Nat} (n : U32) (out : Nat) : Nat → CArray U8 k → Option (CArray U8 k)
  | 0, a => some a
  | i + 1, a => do
      let a ← a.store (out + (i + 2) : Nat)
        (upperHexTable.getD ((n >>> (i * 4)) &&& 0xF).toNat 0)
      hexToStrLoop n out i a

/-- `hex_to_str`, where `out` points into `a`. -/
def hexToStr {k : Nat} (n : U32) (a : CArray U8 k) (out : Nat) : Option (CArray U8 k) := do
  let a ← a.store out (chr '0')
  let a ← a.store (out + 1 : Nat) (chr 'x')
  let a ← hexToStrLoop n out 8 a
  a.store (out + 10 : Nat) 0

/-- Before `init_pmm` is called. -/
def mainStart : List Draw :=
  [.clearScreen, .writeVgaAt (ascii "MicroKernel++ v0.3") 0 0 0x07,
    .writeVgaAt (ascii "Initializing Interrupts...") 1 0 0x07, .writeVgaAt (ascii "OK") 1 27 0x02,
    .writeVgaAt (ascii "Initializing Physical Memory Manager...") 2 0 0x07]

/-- Between that and the first page. -/
def mainReady : List Draw :=
  [.writeVgaAt (ascii "OK") 2 38 0x02,
    .writeVgaAt (ascii "Keyboard enabled. Type something:") 4 0 0x0F,
    .writeVgaAt (ascii "Testing PMM: Allocating 3 pages...") 8 0 0x0B]

structure PageTest where
  label : String
  row : Int
  deriving DecidableEq, Repr

/-- A page on the screen: `text` is what `buffer` holds. -/
def PageTest.draws (t : PageTest) (text : List U8) : List Draw :=
  [.writeVgaAt (ascii t.label) t.row 2 0x0A, .writeVgaAt text t.row 25 0x0E]

def pageTests : List PageTest :=
  [⟨"Page 1 allocated at: ", 9⟩, ⟨"Page 2 allocated at: ", 10⟩, ⟨"Page 3 allocated at: ", 11⟩]

/-- One page after the other, all through the same `buffer`. -/
def testPages : List PageTest → Pmm → CArray U8 11 → Option (List Draw × Pmm)
  | [], s, _ => some ([], s)
  | t :: tests, s, buffer => do
      let (p, s) := pmmAllocPage s
      let buffer ← hexToStr p buffer 0
      let text ← loadStr buffer 0
      let (rest, s) ← testPages tests s buffer
      some (t.draws text ++ rest, s)

/-- `kernel_main`, on a budget for the walk through the memory map. `buffer` is a
local that nothing initialises. -/
def kernelMain (fuel : Nat) (m : PhysMem) (mbd : MultibootInfo) (kernelEnd : U32)
    (buffer : CArray U8 11) : Option (List Draw × Except Panic Pmm) := do
  match ← initPmm fuel m mbd kernelEnd with
  | .error e => some (mainStart, .error e)
  | .ok s =>
      let (pages, s) ← testPages pageTests s buffer
      some (mainStart ++ mainReady ++ pages, .ok s)

end MicroKernel.Kernel
