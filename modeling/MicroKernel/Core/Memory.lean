import MicroKernel.Machine.Word

/-!
# Memory functions (`coresystem.c`, section 10)

The source and the target go on by one byte in each round, and `len` counts the
rounds down.
-/

namespace MicroKernel.Core

/-- The loop, by what is left of `len`. -/
def memcpyLoop : Nat → U32 → U32 → PhysMem → PhysMem
  | 0, _, _, m => m
  | len + 1, d, s, m => memcpyLoop len (d + 1) (s + 1) (ByteMem.write m d [m s])

/-- The pointer it returns, and memory. -/
def memcpy (dest src len : U32) (m : PhysMem) : U32 × PhysMem :=
  (dest, memcpyLoop len.toNat dest src m)

end MicroKernel.Core
