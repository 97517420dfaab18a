import MicroKernel.Core.Printf

/-!
# Commands of `coresystem.c`

`k_atoi` reads an argument in 32-bit arithmetic, as the target computes it: a
number that does not fit wraps. `cmd_hexdump` prints through `shell_printf`,
and what it prints is kept as the calls it makes, in order. Its `ascii_buf` is a
local that nothing initialises, so a cell holds a character only once the
command has assigned one. The memory it reads is taken to stand still meanwhile.
-/

namespace MicroKernel.Core

/-- The digit loop of `k_atoi`. -/
def atoiDigits (n : U32) : List U8 → Option U32
  | [] => none
  | c :: s =>
      if isDigit c then atoiDigits (n * 10 + (c - chr '0').setWidth 32) s else some n

/-- `k_atoi`, on the bytes from `s` on. -/
def kAtoi : List U8 → Option U32
  | [] => none
  | c :: s =>
      if c = chr '-' then (atoiDigits 0 s).map fun n => n * -1
      else (atoiDigits 0 (c :: s)).map fun n => n * 1

def atoi : List U8 → Option U32 := kAtoi

/-- An argument of a call of `shell_printf`: a number, or the cells a pointer
leads to, as far as they have been assigned. -/
inductive Operand where
  | int (v : U32)
  | chars (cells : List (Option U8))
  deriving DecidableEq, Repr

structure Print where
  fmt : List U8
  args : List Operand
  deriving DecidableEq, Repr

/-- What `cmd_hexdump` has printed, and `ascii_buf`. -/
structure Dump where
  out : List Print
  asciiBuf : CArray (Option U8) 17
  deriving DecidableEq, Repr

def Dump.print (d : Dump) (fmt : String) (args : List Operand) : Dump :=
  { d with out := d.out ++ [⟨ascii fmt, args⟩] }

def Dump.assign (d : Dump) (i : Nat) (c : U8) : Option Dump :=
  (d.asciiBuf.store i (some c)).map fun asciiBuf => { d with asciiBuf }

def Dump.printColumn (d : Dump) : Dump :=
  d.print "  |%s|\n" [.chars d.asciiBuf.cells]

/-- The character of a byte in the right column. -/
def asciiChar (b : U8) : U8 := if 32 ≤ b ∧ b ≤ 126 then b else chr '.'

/-- The body of the loop, at offset `i`. -/
def dumpByte (mem : U32 → U8) (addr i : U32) (d : Dump) : Option Dump :=
  let d :=
    if i % 16 = 0 then
      let d := if 0 < i then d.printColumn else d
      d.print "0x%08x: " [.int (addr + i)]
    else d
  let d := d.print "%02x " [.int ((mem (addr + i)).setWidth 32)]
  d.assign (i % 16).toNat (asciiChar (mem (addr + i)))

def dumpLoop (mem : U32 → U8) (addr len : U32) : Nat → U32 → Dump → Option Dump
  | 0, _, _ => none
  | n + 1, i, d =>
      if i < len then (dumpByte mem addr i d).bind (dumpLoop mem addr len n (i + 1))
      else some d

/-- The blanks for the bytes that the last row lacks, from `i` on. -/
def dumpFill : Nat → Nat → Dump → Option Dump
  | 0, _, _ => none
  | n + 1, i, d =>
      if i < 16 then ((d.print "   " []).assign i (chr ' ')).bind (dumpFill n (i + 1))
      else some d

/-- `cmd_hexdump` on an address and a length: the calls it makes. -/
def dump (mem : U32 → U8) (addr len : U32) : Option (List Print) := do
  let asciiBuf ← (CArray.fill 17 none).store 16 (some 0)
  let d ← dumpLoop mem addr len (len.toNat + 1) 0 { out := [], asciiBuf }
  let remainder := (len % 16).toNat
  let d ← if remainder ≠ 0 then dumpFill 17 remainder d else some d
  some d.printColumn.out

/-- `cmd_hexdump`: the calls it makes, and what it returns. Each of `argv` is the
bytes of a string, the terminator included. -/
def cmdHexdump (mem : U32 → U8) (argc : Int) (argv : List (List U8)) :
    Option (List Print × Int) :=
  if argc < 3 then some ([⟨ascii "usage: hexdump <address> <length>\n", []⟩], -1)
  else do
    let addr ← argv[1]?.bind atoi
    let len ← argv[2]?.bind atoi
    let out ← dump mem addr len
    some (out, 0)

end MicroKernel.Core
