import MicroKernel.Machine.Console

/-!
# The keyboard (`kernel/keyboard.c`)

`keyboard_handler` on the scancode it reads from the port. Its two static
variables are machine words: what it passes to `write_char_at` is their value
as an `int`, and `cursor_y` wraps as the target computes it.
-/

namespace MicroKernel.Kernel

def scancodeToAscii : List U8 :=
  ascii "??1234567890-=\x08" ++ ascii "\tqwertyuiop[]\n" ++
    ascii "?asdfghjkl;'`?" ++ ascii "\\zxcvbnm,./??? "

structure Keyboard where
  cursorX : U32
  cursorY : U32
  /-- The calls of `write_char_at`, in order. -/
  log : List Draw
  deriving DecidableEq, Repr

def Keyboard.start : Keyboard := { cursorX := 0, cursorY := 3, log := [] }

def Keyboard.writeCharAt (k : Keyboard) (c : U8) (row col : U32) (attr : U8) : Keyboard :=
  { k with log := k.log ++ [.writeCharAt c row.toInt col.toInt attr] }

def keyboardHandler (k : Keyboard) (scancode : U8) : Keyboard :=
  if h : scancode.toNat < scancodeToAscii.length then
    let c := scancodeToAscii[scancode.toNat]
    if c = chr '\n' then { k with cursorY := k.cursorY + 1, cursorX := 0 }
    else if c = chr '\x08' then
      if 0 < k.cursorX.toInt then
        let k := { k with cursorX := k.cursorX - 1 }
        k.writeCharAt (chr ' ') k.cursorY k.cursorX 0x07
      else k
    else
      let k := k.writeCharAt c k.cursorY k.cursorX 0x0F
      let k := { k with cursorX := k.cursorX + 1 }
      if 80 ≤ k.cursorX.toInt then { k with cursorX := 0, cursorY := k.cursorY + 1 }
      else k
  else k

/-- The handler on one scancode after the other, from its initial state. -/
def keyboardRun (scancodes : List U8) : Keyboard := scancodes.foldl keyboardHandler .start

end MicroKernel.Kernel
