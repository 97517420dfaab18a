import MicroKernel.Lib.DigitBuffer
import MicroKernel.Machine.Console

/-!
# `shell_printf` of `coresystem.c`

A scan of the format with an argument list beside it. What has been stored
through `p` is kept as a list, so the index the next character goes to is its
length; the test of the main loop and of the `%s` loop compare that with 511,
and no other store is tested.

The format is the list of bytes that are left, its terminator included. A scan
that runs off the list has read memory past the terminator, and a conversion
whose argument is missing or of the other kind has no meaning; both are `none`.
-/

namespace MicroKernel.Core

/-- A variadic argument: a string, by its characters, or an integer. -/
inductive Arg where
  | str (s : List U8)
  | int (v : U32)
  deriving DecidableEq, Repr

/-- `f`, `ap`, and the characters stored in `buf`. -/
structure Printf where
  f : List U8
  args : List Arg
  buf : List U8
  deriving DecidableEq, Repr

def bufLast : Nat := 511

def Printf.store (st : Printf) (cs : List U8) : Printf :=
  { st with buf := st.buf ++ cs }

def Printf.nextInt (st : Printf) : Option (U32 × Printf) :=
  match st.args with
  | .int v :: args => some (v, { st with args })
  | _ => none

def Printf.nextStr (st : Printf) : Option (List U8 × Printf) :=
  match st.args with
  | .str s :: args => some (s, { st with args })
  | _ => none

def hexTable : List U8 := ascii "0123456789abcdef"

def hexChar (nib : U32) : U8 := hexTable.getD nib.toNat 0

def nibble (v : U32) (i : Nat) : U32 := (v >>> (i * 4)) &&& 0xF

/-- The characters of `%d`: the digit loop fills `numbuf` from the low end, the
sign comes last, and the whole is stored backwards. No 32-bit number has more
than 32 digits. -/
def decimalChars (v : U32) : List U8 :=
  let neg := v.msb
  let uv := if neg then -v else v
  let digits := (Numeral.divLoop 10 32 uv.toNat).map
    fun d => chr '0' + BitVec.ofNat 8 d
  let numbuf := if uv = 0 then [chr '0'] else digits
  (if neg then numbuf ++ [chr '-'] else numbuf).reverse

/-- The digits of `uv`, and the zero that the loop leaves out. -/
def numbufDigits (uv : U32) (numbuf : CArray U8 32) : Option (Nat × CArray U8 32) :=
  (if uv = 0 then (numbuf.store 0 (chr '0')).map fun numbuf => (1, numbuf)
    else some (0, numbuf)).bind fun (len, numbuf) =>
      DigitBuffer.store (fun d => chr '0' + BitVec.ofNat 8 d) 10 33 uv.toNat len numbuf

/-- `len` and `numbuf` as the `%d` branch leaves them. -/
def fillNumbuf (v : U32) (numbuf : CArray U8 32) : Option (Nat × CArray U8 32) :=
  let neg := v.msb
  let uv := if neg then -v else v
  (numbufDigits uv numbuf).bind fun (len, numbuf) =>
    if neg then (numbuf.store len (chr '-')).map fun numbuf => (len + 1, numbuf)
    else some (len, numbuf)

/-- The characters of `%x`, from nibble `i - 1` down. -/
def hexChars (v : U32) : Nat → Bool → List U8
  | 0, _ => []
  | i + 1, started =>
      let nib := nibble v i
      if nib ≠ 0 ∨ started ∨ i = 0 then hexChar nib :: hexChars v i true
      else hexChars v i started

/-- The characters of the branch for `'0'`, `'2'` and `'8'`. -/
def hexWidth (v : U32) : Nat → List U8
  | 0 => []
  | i + 1 => hexChar (nibble v i) :: hexWidth v i

/-- The `switch`, on the character `f` stands on; the rest of the format is
already the state's. -/
def convert (c : U8) (st : Printf) : Option Printf :=
  if c = chr 's' then
    st.nextStr.map fun (s, st) =>
      st.store ((cstr s).take (bufLast - st.buf.length))
  else if c = chr 'd' then
    st.nextInt.map fun (v, st) => st.store (decimalChars v)
  else if c = chr 'x' then
    st.nextInt.map fun (v, st) => st.store (hexChars v 8 false)
  else if c = chr '0' ∨ c = chr '2' ∨ c = chr '8' then
    let width := if c = chr '2' then 2 else if c = chr '8' then 8 else 0
    st.nextInt.map fun (v, st) => st.store (hexWidth v width)
  else if c = chr 'c' then
    st.nextInt.map fun (v, st) => st.store [v.setWidth 8]
  else if c = chr '%' then some (st.store [chr '%'])
  else some (st.store [c])

def isDigit (c : U8) : Bool := chr '0' ≤ c && c ≤ chr '9'

/-- The characters between `%` and the one the `switch` looks at: a zero, and
all digits behind it. The source also sets `pad` here and never reads it. -/
def skipPad : List U8 → List U8
  | c :: f => if c = chr '0' then f.dropWhile isDigit else c :: f
  | [] => []

def printfLoop : Nat → Printf → Option Printf
  | 0, _ => none
  | n + 1, st =>
      match st.f with
      | [] => none
      | c :: f =>
          if c = 0 ∨ bufLast ≤ st.buf.length then some st
          else if c ≠ chr '%' then printfLoop n ({ st with f }.store [c])
          else
            match skipPad f with
            | [] => none
            | c :: f => (convert c { st with f }).bind (printfLoop n)

/-- `shell_printf`. Every round but the last moves `f` forward, so its length
bounds the rounds. -/
def shellPrintf (fmt : List U8) (args : List Arg) : Option Draw :=
  (printfLoop fmt.length { f := fmt, args, buf := [] }).map fun st =>
    .writeVgaAt (cstr (st.buf ++ [0])) (-1) (-1) 0x07

end MicroKernel.Core
