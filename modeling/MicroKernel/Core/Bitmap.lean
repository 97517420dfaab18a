import MicroKernel.Lib.CArray
import MicroKernel.Machine.Word

/-!
# The page bitmap (`coresystem.c`, section 2)

One bit for each page, set while the page is in use. The bits are picked with
`int` arithmetic: a shifted one is 32 bits wide, and the byte that is stored back
is cut down to eight. An access outside the array is `none`.
-/

namespace MicroKernel.Core

def maxPhysicalMemoryMb : Nat := 128

def pageSize : Nat := 4096

def pmmTotalPages : Nat := maxPhysicalMemoryMb * 1024 * 1024 / pageSize

def pmmBitmapSize : Nat := pmmTotalPages / 8

/-- `pmm_memory_bitmap`, and the variable `pmm_total_pages`. -/
structure PageBitmap where
  pmmMemoryBitmap : CArray U8 pmmBitmapSize
  pmmTotalPages : U32
  deriving DecidableEq, Repr

/-- As the variables are before anything has been marked. -/
def PageBitmap.clear (total : U32) : PageBitmap := ⟨CArray.fill pmmBitmapSize 0, total⟩

/-- `1 << bit_index` -/
def pageMask (pageIndex : U32) : U32 :=
  let bitIndex : U8 := (pageIndex % 8).setWidth 8
  1 <<< bitIndex.toNat

/-- What is common to marking a page and to taking the mark away: `op` on the
byte and the mask. -/
def markPage (op : U32 → U32 → U32) (pageIndex : U32) (s : PageBitmap) : Option PageBitmap :=
  if s.pmmTotalPages ≤ pageIndex then some s
  else do
    let byteIndex := (pageIndex / 8).toNat
    let b ← s.pmmMemoryBitmap.load byteIndex
    let a ← s.pmmMemoryBitmap.store byteIndex
      ((op (b.setWidth 32) (pageMask pageIndex)).setWidth 8)
    some { s with pmmMemoryBitmap := a }

def pmmBitmapSet : U32 → PageBitmap → Option PageBitmap := markPage fun b mask => b ||| mask

def pmmBitmapUnset : U32 → PageBitmap → Option PageBitmap := markPage fun b mask => b &&& ~~~mask

/-- A page beyond the last one counts as in use. -/
def pmmBitmapTest (pageIndex : U32) (s : PageBitmap) : Option Bool :=
  if s.pmmTotalPages ≤ pageIndex then some true
  else do
    let b ← s.pmmMemoryBitmap.load (pageIndex / 8).toNat
    some (b.setWidth 32 &&& pageMask pageIndex != 0)

/-- A call of one of the two that mark. -/
inductive BitmapCall where
  | set (pageIndex : U32)
  | unset (pageIndex : U32)
  deriving DecidableEq, Repr

def BitmapCall.pageIndex : BitmapCall → U32
  | .set i | .unset i => i

def BitmapCall.run : BitmapCall → PageBitmap → Option PageBitmap
  | .set i => pmmBitmapSet i
  | .unset i => pmmBitmapUnset i

def runCalls (calls : List BitmapCall) (s : PageBitmap) : Option PageBitmap :=
  calls.foldlM (fun s c => c.run s) s

end MicroKernel.Core
