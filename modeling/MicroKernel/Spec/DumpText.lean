import MicroKernel.Spec.Format
import MicroKernel.Spec.HexDump

/-!
# The text of a dump

`hex` writes a number that is to have so many digits. Where it does give all
numbers their width, the columns stand under one another.
-/

namespace MicroKernel.Spec

open MicroKernel.Core

section
variable (hex : Nat → Nat → List U8) (mem : U32 → U8) (addr : U32)

def rowAddress (r : Nat) : U32 := addr + BitVec.ofNat 32 (16 * r)

/-- Row `r`, with `n` bytes. -/
def rowText (r n : Nat) : List U8 :=
  ascii "0x" ++ hex 8 (rowAddress addr r).toNat ++ ascii ": " ++
    (List.range n).flatMap (fun j => hex 2 (byteAt mem addr (16 * r + j)).toNat ++ ascii " ") ++
    (List.replicate (16 - n) (ascii "   ")).flatten ++
    ascii "  |" ++ columnOf mem addr r n ++ ascii "|\n"

def dumpText (len : Nat) : List U8 :=
  (List.range ((len + 15) / 16)).flatMap fun r => rowText hex mem addr r (min 16 (len - 16 * r))

end

end MicroKernel.Spec
