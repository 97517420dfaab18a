import MicroKernel.Machine.System

/-!
# VGA text mode (`main.core.asm`, section 14)

The routines, by their labels: a jump to a label is a call of its function in
the place of the jump. `mov al, eax`, of which the assembler accepts no form, is
taken to move the low byte.
-/

namespace MicroKernel.Core

open X86

def vgaMemoryAddress : U32 := 0xB8000

def vgaWidth : U32 := 80

def vgaHeight : U32 := 25

/-- The calls of the section. -/
inductive VgaCall where
  | clearScreenUpdate
  | printCharScroll
  | printCharUpdate
  | printStringChar
  deriving DecidableEq, Repr

/-- Where the linker puts the variables, which follow one another, and what
comes after each call. -/
structure VgaImage where
  cursorX : U32
  ra : VgaCall → U32

def VgaImage.cursorY (img : VgaImage) : U32 := img.cursorX + 4

def VgaImage.textAttribute (img : VgaImage) : U32 := img.cursorX + 8

variable (img : VgaImage)

def updateHwCursorBody : List Insn :=
  [load .edi img.cursorY, cpu (movImm .eax vgaWidth), mul .edi, addMem .eax img.cursorX,
    cpu (mov16 .edx 0x3D4), movAl 0x0F, outDx,
    cpu (mov16 .edx 0x3D5), movAlLow .eax, outDx,
    cpu (mov16 .edx 0x3D4), movAl 0x0E, outDx,
    cpu (mov16 .edx 0x3D5), cpu (shr .eax 8), movAlLow .eax, outDx]

def vgaUpdateHwCursor : Routine := fun s =>
  some (run (cpu pushad :: updateHwCursorBody img ++ [cpu popad, ret]) s)

def clearScreenBody : List Insn :=
  [cpu (movImm .edi vgaMemoryAddress), cpu (movImm .ecx (vgaWidth * vgaHeight)),
    movAl 0x20, loadAh img.textAttribute, rep stosw,
    poke32 img.cursorX 0, poke32 img.cursorY 0]

def vgaClearScreen : Routine := fun s =>
  (callTo (img.ra .clearScreenUpdate) (vgaUpdateHwCursor img)
    (run (cpu pushad :: clearScreenBody img) s)).map (run [cpu popad, ret])

/-- Each row goes one row up, then the last one is blanked. -/
def scrollScreenBody : List Insn :=
  [cpu (movImm .esi (vgaMemoryAddress + vgaWidth * 2)), cpu (movImm .edi vgaMemoryAddress),
    cpu (movImm .ecx (vgaWidth * (vgaHeight - 1))), rep movsw,
    cpu (movImm .edi (vgaMemoryAddress + vgaWidth * (vgaHeight - 1) * 2)),
    cpu (movImm .ecx vgaWidth), movAl 0x20, loadAh img.textAttribute, rep stosw]

def vgaScrollScreen : Routine := fun s =>
  some (run (cpu pushad :: scrollScreenBody img ++ [cpu popad, ret]) s)

/-- The address of the cursor's cell, in EAX. -/
def cellAddress : List Insn :=
  [load .edi img.cursorY, cpu (movImm .eax vgaWidth), mul .edi, addMem .eax img.cursorX,
    shl1 .eax, cpu (add .eax vgaMemoryAddress)]

/-- `.update_cursor_and_exit` -/
def updateCursorAndExit : Routine := fun s =>
  (callTo (img.ra .printCharUpdate) (vgaUpdateHwCursor img) s).map (run [cpu popad, ret])

/-- `.check_scroll` -/
def checkScroll : Routine := fun s =>
  let s := run [load .edx img.cursorY, cmpImm .edx vgaHeight] s
  if s.less then updateCursorAndExit img s
  else
    (callTo (img.ra .printCharScroll) (vgaScrollScreen img) s).bind fun s =>
      updateCursorAndExit img (poke32 img.cursorY (vgaHeight - 1) s)

/-- `.handle_newline` -/
def handleNewline : Routine := fun s =>
  checkScroll img (run [poke32 img.cursorX 0, incMem img.cursorY] s)

/-- `.handle_backspace` -/
def handleBackspace : Routine := fun s =>
  let s := run [load .edx img.cursorX, cmpImm .edx 0] s
  if s.zf then updateCursorAndExit img s
  else
    -- AL and AH are the low half of the address
    updateCursorAndExit img (run (decMem img.cursorX :: cellAddress img ++
      [loadAh img.textAttribute, movAl 0x20, storeAx .eax]) s)

/-- `.print` -/
def printCell : Routine := fun s =>
  let s := run (cellAddress img ++
    [loadAh img.textAttribute, movAlLow .ecx, storeAx .eax,
      incMem img.cursorX, load .edx img.cursorX, cmpImm .edx vgaWidth]) s
  if s.less then updateCursorAndExit img s else handleNewline img s

/-- The `'\n'` of `cmp cl, '\n'`. The assembler knows no escapes in single quotes:
it is a backslash and an n, and the first of the two fills the byte there is. -/
def newlineImm : U8 := 0x5C

def vgaPrintChar : Routine := fun s =>
  let s := run [cpu pushad, movzxAl .ecx, cmpLow .ecx 0x08] s
  if s.zf then handleBackspace img s
  else
    let s := cmpLow .ecx newlineImm s
    if s.zf then handleNewline img s else printCell img s

/-- `.loop` of `vga_print_string`, for at most so many rounds. -/
def printLoop : Nat → Routine
  | 0, _ => none
  | n + 1, s =>
      let s := run [lodsb, testAl] s
      if s.zf then some (run [cpu popad, ret] s)
      else (callTo (img.ra .printStringChar) (vgaPrintChar img) s).bind (printLoop n)

/-- `vga_print_string`. A string that ends has no more bytes than memory. -/
def vgaPrintString : Routine := fun s => printLoop img (2 ^ 32) (run [cpu pushad] s)

end MicroKernel.Core
