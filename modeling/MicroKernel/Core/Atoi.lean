import MicroKernel.Core.Commands

/-!
# `k_atoi` by exact results

The same loop on the `int` values themselves: a computation whose result no `int`
can hold has no meaning in the language the kernel is written in, whatever the
target makes of it.
-/

namespace MicroKernel.Core

/-- Why a run has no result. -/
inductive Fault where
  | overflow
  | pastEnd
  deriving DecidableEq, Repr

def FitsInt (v : Int) : Prop := -2 ^ 31 ≤ v ∧ v < 2 ^ 31

instance (v : Int) : Decidable (FitsInt v) := inferInstanceAs (Decidable (_ ∧ _))

/-- A computation of type `int` with the exact result `v`. -/
def int (v : Int) : Except Fault Int := if FitsInt v then .ok v else .error .overflow

/-- The digit loop. -/
def atoiDigitsExact (n : Int) : List U8 → Except Fault Int
  | [] => .error .pastEnd
  | c :: s =>
      if isDigit c then do
        let tens ← int (n * 10)
        let digit ← int ((c.toNat : Int) - (chr '0').toNat)
        let n ← int (tens + digit)
        atoiDigitsExact n s
      else .ok n

/-- `k_atoi`, on the bytes from `s` on. -/
def kAtoiExact : List U8 → Except Fault Int
  | [] => .error .pastEnd
  | c :: s =>
      if c = chr '-' then do
        let n ← atoiDigitsExact 0 s
        int (n * -1)
      else do
        let n ← atoiDigitsExact 0 (c :: s)
        int (n * 1)

end MicroKernel.Core
