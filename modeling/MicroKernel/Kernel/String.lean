import MicroKernel.Lib.CArray
import MicroKernel.Machine.Console

/-!
# String functions (`kernel/string.c`)

A pointer is an offset into the array it points into, and an access outside
the array is `none`. `strtok` keeps its place in a static pointer, which is
passed in and handed back here.
-/

namespace MicroKernel.Kernel

/-- The characters at a pointer, if there is a terminator to stop at. -/
def loadStr {n : Nat} (a : CArray U8 n) (p : Nat) : Option (List U8) :=
  if 0 ∈ a.cells.drop p then some (cstr (a.cells.drop p)) else none

def strcmp : List U8 → List U8 → Option Int
  | a :: s, b :: t =>
      if a ≠ 0 ∧ a = b then strcmp s t else some ((a.toNat : Int) - b.toNat)
  | _, _ => none

/-- A plain `char` promoted to `int`. Whether it has a sign is up to the compiler. -/
def plainChar (signed : Bool) (c : U8) : Int := if signed then c.toInt else c.toNat

/-- `strcmp` with the comparisons of plain characters written out. -/
def strcmpPlain (signed : Bool) : List U8 → List U8 → Option Int
  | a :: s, b :: t =>
      if plainChar signed a ≠ 0 ∧ plainChar signed a = plainChar signed b then
        strcmpPlain signed s t
      else some ((a.toNat : Int) - b.toNat)
  | _, _ => none

/-- How far `last` moves before it stops, and whether a delimiter stopped it. -/
def scanToken (delim : List U8) : List U8 → Option (Nat × Bool)
  | [] => none
  | c :: s =>
      if c = 0 then some (0, false)
      else if c ∈ delim then some (0, true)
      else (scanToken delim s).map fun (k, hit) => (k + 1, hit)

/-- `strtok`: the token, the array, and the static pointer. -/
def strtok {n : Nat} (a : CArray U8 n) (last str : Option Nat) (delim : List U8) :
    Option (Option Nat × CArray U8 n × Option Nat) :=
  match str.or last with
  | none => some (none, a, none)
  | some start => do
      let c ← a.load start
      if c = 0 then some (none, a, some start)
      else
        let (k, hit) ← scanToken delim (a.cells.drop start)
        if hit then
          let a ← a.store (start + k : Nat) 0
          some (some start, a, some (start + k + 1))
        else some (some start, a, some (start + k))

/-- Calls of `strtok`, the first on `str` and the others on the null pointer, each
with delimiters of its own. -/
def strtokCalls {n : Nat} (a : CArray U8 n) (last str : Option Nat) :
    List (List U8) → Option (List (Option Nat) × CArray U8 n × Option Nat)
  | [] => some ([], a, last)
  | delim :: delims => do
      let (token, a, last) ← strtok a last str delim
      let (tokens, a, last) ← strtokCalls a last none delims
      some (token :: tokens, a, last)

def utoaChar (d : Nat) : U8 :=
  if d < 10 then chr '0' + BitVec.ofNat 8 d
  else chr 'A' + BitVec.ofNat 8 (d - 10)

/-- The digit loop, with the low end first. -/
def utoaDigits {n : Nat} (base : Nat) :
    Nat → Nat → Nat → CArray U8 n → Option (Nat × CArray U8 n)
  | 0, _, _, _ => none
  | k + 1, value, ptr, a =>
      if value = 0 then some (ptr, a)
      else do
        let a ← a.store ptr (utoaChar (value % base))
        utoaDigits base k (value / base) (ptr + 1) a

def utoaReverse {n : Nat} : Nat → Nat → Nat → CArray U8 n → Option (CArray U8 n)
  | 0, _, _, _ => none
  | k + 1, ptr1, ptr, a =>
      if ptr1 < ptr then do
        let tmp ← a.load ptr
        let c ← a.load ptr1
        let a ← a.store ptr c
        let a ← a.store ptr1 tmp
        utoaReverse k (ptr1 + 1) (ptr - 1) a
      else some a

/-- `utoa`: the pointer it returns, and the array. No value has more than 32
digits, and the swaps never outnumber the cells. -/
def utoa {n : Nat} (value : U32) (a : CArray U8 n) (str : Nat) (base : Int) :
    Option (Nat × CArray U8 n) :=
  if base < 2 ∨ base > 36 then do
    let a ← a.store str 0
    some (str, a)
  else if value = 0 then do
    let a ← a.store str (chr '0')
    let a ← a.store (str + 1 : Nat) 0
    some (str, a)
  else do
    let (ptr, a) ← utoaDigits base.toNat 33 value.toNat str a
    let a ← a.store ptr 0
    let a ← utoaReverse (n + 1) str (ptr - 1) a
    some (str, a)

end MicroKernel.Kernel
