import MicroKernel.Core.Printf
import MicroKernel.Kernel.String

/-!
# `kernel_panic` of `coresystem.c`

The two numbers the panic screen shows are converted here, on arrays of the
source's sizes: a hexadecimal word by `panic_vga_print_hex`, the line number by
the loops inside `kernel_panic`. An access outside the array is `none`.

What is printed goes to the text buffer in memory, and the stack trace reads its
frames from the same memory. The strings are lists of characters; they are not
in the text buffer. An `int` is an integer: what C leaves undefined when one
overflows is not modelled.
-/

namespace MicroKernel.Core

open Kernel

/-- `buffer` of `panic_vga_print_hex`, as it is initialised. -/
def hexTemplate : CArray U8 11 := ⟨ascii "0x00000000" ++ [0], rfl⟩

/-- `buffer` after the loop. -/
def panicHexBuffer (n : U32) : Option (CArray U8 11) :=
  (List.range 8).foldlM
    (fun (buffer : CArray U8 11) (i : Nat) =>
      buffer.store (9 - i : Nat) (hexChar (nibble n i)))
    hexTemplate

/-- The swaps that turn `line_buf` around, for `i` digits. -/
def lineReverse (i : Nat) : Nat → Nat → CArray U8 12 → Option (CArray U8 12)
  | 0, _, _ => none
  | k + 1, j, lineBuf =>
      if j < i / 2 then do
        let temp ← lineBuf.load j
        let c ← lineBuf.load (i - j - 1 : Nat)
        let lineBuf ← lineBuf.store j c
        let lineBuf ← lineBuf.store (i - j - 1 : Nat) temp
        lineReverse i k (j + 1) lineBuf
      else some lineBuf

/-- The digits of `line`, the low end first. -/
def lineDigits (line : U32) (lineBuf : CArray U8 12) : Option (Nat × CArray U8 12) :=
  if line = 0 then (lineBuf.store 0 (chr '0')).map fun lineBuf => (1, lineBuf)
  else
    DigitBuffer.store (fun d => BitVec.ofNat 8 d + chr '0') 10 33 line.toNat 0 lineBuf

/-- `line_buf` after the conversion of `line`. The array is a local, so it can
hold anything before; no line number has more than 32 digits. -/
def lineText (line : U32) (lineBuf : CArray U8 12) : Option (CArray U8 12) := do
  let (i, lineBuf) ← lineDigits line lineBuf
  let lineBuf ← lineBuf.store i 0
  lineReverse i (i + 1) 0 lineBuf

/-! ## The screen -/

/-- Memory, and the address of every cell that has been stored to, in order. -/
structure PanicVga where
  mem : PhysMem
  stored : List U32

/-- The conversion of a `char`, which has a sign, to `uint16_t`. -/
def panicCell (c attr : U8) : U16 := c.signExtend 16 ||| attr.setWidth 16 <<< 8

def panicVgaPrintChar (c : U8) (x y : Int) (attr : U8) (v : PanicVga) : PanicVga :=
  if x < 0 ∨ 80 ≤ x ∨ y < 0 ∨ 25 ≤ y then v
  else
    let cell : U32 := 0xB8000 + BitVec.ofInt 32 (2 * (y * 80 + x))
    { mem := ByteMem.write v.mem cell (bytes16 (panicCell c attr))
      stored := v.stored ++ [cell] }

/-- The loop of `panic_vga_print_str`. -/
def panicPrintLoop (startX : Int) (attr : U8) :
    List U8 → Int → Int → PanicVga → Int × PanicVga
  | [], x, _, v => (x, v)
  | c :: msg, x, y, v =>
      if c = chr '\n' then panicPrintLoop startX attr msg startX (y + 1) v
      else
        let v := panicVgaPrintChar c x y attr v
        let x := x + 1
        if 80 ≤ x then panicPrintLoop startX attr msg startX (y + 1) v
        else panicPrintLoop startX attr msg x y v

def panicVgaPrintStr (msg : List U8) (x y : Int) (attr : U8) (v : PanicVga) : Int × PanicVga :=
  panicPrintLoop x attr msg x y v

/-- A call whose result is not used. -/
def panicText (msg : List U8) (x y : Int) (attr : U8) (v : PanicVga) : Option PanicVga :=
  some (panicVgaPrintStr msg x y attr v).2

def panicVgaPrintHex (n : U32) (x y : Int) (attr : U8) (v : PanicVga) : Option PanicVga := do
  let buffer ← panicHexBuffer n
  let text ← loadStr buffer 0
  panicText text x y attr v

/-- The loop of `print_stack_trace`, for at most so many more frames. -/
def traceLoop : Nat → Nat → U32 → PanicVga → Option PanicVga
  | 0, _, _, v => some v
  | k + 1, i, framePointer, v =>
      if framePointer = 0 then some v
      else
        let returnAddress := v.mem.read32 (framePointer + 4)
        if returnAddress = 0 then some v
        else do
          let frameNumStr := cstr [chr '[', chr '0' + BitVec.ofNat 8 i, chr ']']
          let v ← panicText frameNumStr 4 (9 + i) 0x0E v
          let v ← panicVgaPrintHex returnAddress 8 (9 + i) 0x0F v
          traceLoop k (i + 1) (v.mem.read32 framePointer) v

def printStackTrace (ebp : U32) (maxFrames : Int) (v : PanicVga) : Option PanicVga := do
  let v ← panicText (ascii "stack trace:") 2 8 0x0C v
  traceLoop maxFrames.toNat 0 ebp v

/-- The registers of the record that are shown. -/
structure Registers where
  edi : U32
  esi : U32
  ebp : U32
  esp : U32
  ebx : U32
  edx : U32
  ecx : U32
  eax : U32
  eip : U32
  cs : U32
  eflags : U32

def clearPanicScreen (attr : U8) (v : PanicVga) : PanicVga :=
  (List.range 25).foldl (fun v (y : Nat) =>
    (List.range 80).foldl (fun v (x : Nat) => panicVgaPrintChar (chr ' ') x y attr v) v) v

def registerDump (regs : Registers) : List (PanicVga → Option PanicVga) :=
  [panicText (ascii "register dump:") 2 6 0x0C,
    panicText (ascii "eax:") 4 7 0x0E, panicVgaPrintHex regs.eax 9 7 0x0F,
    panicText (ascii "ebx:") 24 7 0x0E, panicVgaPrintHex regs.ebx 29 7 0x0F,
    panicText (ascii "ecx:") 44 7 0x0E, panicVgaPrintHex regs.ecx 49 7 0x0F,
    panicText (ascii "edx:") 64 7 0x0E, panicVgaPrintHex regs.edx 69 7 0x0F,
    panicText (ascii "esi:") 4 8 0x0E, panicVgaPrintHex regs.esi 9 8 0x0F,
    panicText (ascii "edi:") 24 8 0x0E, panicVgaPrintHex regs.edi 29 8 0x0F,
    panicText (ascii "ebp:") 44 8 0x0E, panicVgaPrintHex regs.ebp 49 8 0x0F,
    panicText (ascii "esp:") 64 8 0x0E, panicVgaPrintHex regs.esp 69 8 0x0F,
    panicText (ascii "eip:") 4 10 0x0C, panicVgaPrintHex regs.eip 9 10 0x0F,
    panicText (ascii "cs:") 24 10 0x0C, panicVgaPrintHex regs.cs 29 10 0x0F,
    panicText (ascii "eflags:") 44 10 0x0C, panicVgaPrintHex regs.eflags 52 10 0x0F]

/-- `kernel_panic` up to the `hlt` it never leaves, with the EBP it reads where
there is no record. A second panic during the first loops for ever. -/
def kernelPanic (panicInProgress : Bool) (message file : List U8) (line : U32)
    (lineBuf : CArray U8 12) (regs : Option Registers) (ebp : U32) (v : PanicVga) :
    Option PanicVga :=
  if panicInProgress then none
  else do
    let attr := 0x4F
    let v := clearPanicScreen attr v
    let v ← panicText (ascii "!!! imperium os kernel panic !!!") 22 1 attr v
    let v ← panicText (ascii "reason:") 2 3 0x0E v
    let v ← panicText message 10 3 0x0F v
    let v ← panicText (ascii "at:") 2 4 0x0E v
    let v ← panicText file 6 4 0x0F v
    let lineBuf ← lineText line lineBuf
    let lineStr ← loadStr lineBuf 0
    let v ← panicText (ascii ":") 40 4 0x0F v
    let v ← panicText lineStr 42 4 0x0F v
    let v ← match regs with
      | some regs => do
          let v ← (registerDump regs).foldlM (fun v f => f v) v
          printStackTrace regs.ebp 5 v
      | none => printStackTrace ebp 5 v
    panicText (ascii "system halted. please reboot.") 25 23 attr v

end MicroKernel.Core
