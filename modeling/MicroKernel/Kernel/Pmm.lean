import MicroKernel.Kernel.Multiboot
import MicroKernel.Lib.While

/-!
# The physical memory manager (`kernel/pmm.c`)

A bump allocator. `initPmm` walks the boot loader's memory map for the largest
usable region, takes the region's end as the limit and the page-aligned end of
the kernel as the start, and `pmmAllocPage` hands out one page after another
until the limit is reached. Every quantity is a 32-bit word and nothing checks
for wrap-around, so the definitions keep the words.

`panic` does not return: it masks interrupts and halts. A function that can
reach it answers in `Except Panic`, and nothing after the call runs.

The walk's stride comes from memory the loader wrote, so the loop need not
halt; `initPmm` runs it on a budget and answers `none` when the budget does
not cover it.
-/

namespace MicroKernel.Kernel

def pageSize : U32 := 4096

structure Panic where
  msg : String
  deriving DecidableEq, Repr

structure Pmm where
  memoryEnd : U32
  currentBreak : U32
  startAddr : U32
  deriving DecidableEq, Repr

/-- The locals of the walk: the cursor and the best region so far. -/
structure Walk where
  mmap : U32
  bestRegionBase : U64
  bestRegionLen : U64
  deriving DecidableEq, Repr

def walkStart (mbd : MultibootInfo) : Walk := ⟨mbd.mmapAddr, 0, 0⟩

/-- The two tests on an entry, each with the fields it reads. The length is
read a second time when it is taken over. -/
def Walk.consider (w : Walk) : ByteMem.Reading 32 Walk := do
  if (← MemoryMap.typeAt w.mmap) = 1 then
    if (← MemoryMap.lengthAt w.mmap) > w.bestRegionLen then
      let baseAddr ← MemoryMap.baseAddrAt w.mmap
      let length ← MemoryMap.lengthAt w.mmap
      return { w with bestRegionBase := baseAddr, bestRegionLen := length }
    else return w
  else return w

/-- One round of the walk. The loop test compares the cursor alone with the
end of the map, and the stride is `size` plus the four bytes of `size`. -/
def walkRound (mbd : MultibootInfo) (w : Walk) :
    ByteMem.Reading 32 (Option Walk) := do
  if w.mmap < mbd.mmapAddr + mbd.mmapLength then
    let best ← w.consider
    let size ← MemoryMap.sizeAt w.mmap
    return some { best with mmap := w.mmap + size + 4 }
  else return none

def walkBody (m : PhysMem) (mbd : MultibootInfo) (w : Walk) : Option Walk :=
  (walkRound mbd w).value m

/-- The fields one round reads, in the order it reads them. -/
def walkReads (m : PhysMem) (mbd : MultibootInfo) (w : Walk) :
    List (ByteMem.Load 32) := (walkRound mbd w).loads m

/-- The start of the allocator: the kernel's end, rounded up to a page. -/
def alignUp (kernelEnd : U32) : U32 :=
  if kernelEnd % pageSize ≠ 0 then (kernelEnd / pageSize + 1) * pageSize
  else kernelEnd

/-- What `init_pmm` does with the region it chose. -/
def pmmSetup (base len : U64) (kernelEnd : U32) : Except Panic Pmm :=
  let currentBreak := alignUp kernelEnd
  let memoryEnd := base.setWidth 32 + len.setWidth 32
  if currentBreak ≥ memoryEnd then
    .error ⟨"Not enough memory to start PMM!"⟩
  else
    .ok { memoryEnd, currentBreak, startAddr := currentBreak }

/-- `init_pmm`, on a budget for the walk. `kernelEnd` is the address of the
linker's `end` symbol. -/
def initPmm (fuel : Nat) (m : PhysMem) (mbd : MultibootInfo)
    (kernelEnd : U32) : Option (Except Panic Pmm) :=
  if mbd.flags &&& mbootFlagMmap = 0 then
    some (.error ⟨"Memory map not provided by bootloader!"⟩)
  else do
    let (_, w) ← While.run (walkBody m mbd) fuel (walkStart mbd)
    some (pmmSetup w.bestRegionBase w.bestRegionLen kernelEnd)

/-- `pmm_alloc_page`: the page, or the null pointer, and the new state. -/
def pmmAllocPage (s : Pmm) : U32 × Pmm :=
  if s.currentBreak + pageSize > s.memoryEnd then (0, s)
  else (s.currentBreak, { s with currentBreak := s.currentBreak + pageSize })

def pmmFreePage (s : Pmm) (_p : U32) : Pmm := s

def pmmGetUsedMem (s : Pmm) : U32 :=
  if s.currentBreak < s.startAddr then 0 else s.currentBreak - s.startAddr

def pmmGetTotalMem (s : Pmm) : U32 :=
  if s.memoryEnd ≤ s.startAddr then 0 else s.memoryEnd - s.startAddr

def pmmGetUsedMemory (s : Pmm) : U32 := pmmGetUsedMem s

/-- `pmm_get_free_memory`, whose subtraction is unguarded. -/
def pmmGetFreeMemory (s : Pmm) : U32 := pmmGetTotalMem s - pmmGetUsedMem s

/-! ## Runs

A client calls the two page operations in any order. `pmmRun` keeps the
results of the allocations, in order. -/

inductive PmmOp
  | alloc
  | free (p : U32)
  deriving DecidableEq, Repr

/-- The results of the allocations of a run, and the state it ends in. -/
def pmmRun (s : Pmm) : List PmmOp → List U32 × Pmm
  | [] => ([], s)
  | .alloc :: ops =>
      let (p, s') := pmmAllocPage s
      let (ps, t) := pmmRun s' ops
      (p :: ps, t)
  | .free p :: ops => pmmRun (pmmFreePage s p) ops

end MicroKernel.Kernel
