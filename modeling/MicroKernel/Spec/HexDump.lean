import MicroKernel.Core.Commands

/-!
# What a dump of memory prints

Rows of sixteen bytes: the address, the bytes, blanks for the bytes that the
last row lacks, and the column of characters.
-/

namespace MicroKernel.Spec

open MicroKernel.Core

section
variable (mem : U32 → U8) (addr : U32)

/-- The byte at offset `k`. -/
def byteAt (k : Nat) : U8 := mem (addr + BitVec.ofNat 32 k)

/-- The characters beside row `r` when `n` of its bytes are in the range. -/
def columnOf (r n : Nat) : List U8 :=
  (List.range 16).map fun j =>
    if j < n then
      let b := byteAt mem addr (16 * r + j)
      if 32 ≤ b.toNat ∧ b.toNat ≤ 126 then b else chr '.'
    else chr ' '

def addressOf (r : Nat) : Print :=
  ⟨ascii "0x%08x: ", [.int (addr + BitVec.ofNat 32 (16 * r))]⟩

def bytesOf (r n : Nat) : List Print :=
  (List.range n).map fun j =>
    ⟨ascii "%02x ", [.int ((byteAt mem addr (16 * r + j)).setWidth 32)]⟩

/-- Row `r`, with `n` bytes. -/
def rowOf (r n : Nat) : List Print :=
  addressOf addr r :: bytesOf mem addr r n ++ List.replicate (16 - n) ⟨ascii "   ", []⟩ ++
    [⟨ascii "  |%s|\n", [.chars ((columnOf mem addr r n).map some ++ [some 0])]⟩]

/-- The dump of `len` bytes: as many rows as are begun, and as many bytes in each
as are left. -/
def dumpOf (len : Nat) : List Print :=
  (List.range ((len + 15) / 16)).flatMap fun r => rowOf mem addr r (min 16 (len - 16 * r))

end

end MicroKernel.Spec
