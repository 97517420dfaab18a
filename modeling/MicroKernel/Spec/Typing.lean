import MicroKernel.Kernel.Keyboard
import MicroKernel.Lib.History

/-!
# Typing on an endless page

What the keys mean, with no machine words: the caret has ended a number of
lines and stands in a column. A line ends with Enter, and when its column 79
has been written.
-/

namespace MicroKernel.Spec

open Kernel

inductive Key where
  | enter
  | back
  | char (c : U8)
  | other
  deriving DecidableEq, Repr

/-- The key of a scancode; beyond the table there is none. -/
def keyOf (scancode : U8) : Key :=
  match scancodeToAscii[scancode.toNat]? with
  | none => .other
  | some c => if c = chr '\n' then .enter else if c = chr '\x08' then .back else .char c

structure Caret where
  lines : Nat
  col : Nat
  deriving DecidableEq, Repr

def Caret.press (p : Caret) : Key → Caret
  | .enter => ⟨p.lines + 1, 0⟩
  | .back => { p with col := p.col - 1 }
  | .char _ => if p.col + 1 < 80 then { p with col := p.col + 1 } else ⟨p.lines + 1, 0⟩
  | .other => p

/-- Whether the key puts a character on the screen; a backspace at the start of
a line does not. -/
def Caret.Writes (p : Caret) : Key → Prop
  | .char _ => True
  | .back => 0 < p.col
  | .enter | .other => False

def caretAfter (scancodes : List U8) : Caret :=
  (scancodes.map keyOf).foldl Caret.press ⟨0, 0⟩

/-- The call names a cell of the screen of 25 rows and 80 columns. -/
def OnScreen : Draw → Prop
  | .writeCharAt _ row col _ => (0 ≤ row ∧ row < 25) ∧ 0 ≤ col ∧ col < 80
  | _ => True

/-- The character last put at a place. -/
def shownAt (row col : Int) (log : List Draw) : Option U8 :=
  log.foldl (fun shown d =>
    match d with
    | .writeCharAt c r x _ => if r = row ∧ x = col then some c else shown
    | _ => shown) none

/-- What was typed between `before` and `typed` is undone: the cursor is back, and
every place that was written shows a blank. -/
structure Undone (before typed after : Keyboard) : Prop where
  x : after.cursorX = before.cursorX
  y : after.cursorY = before.cursorY
  blank : ∃ calls, typed.log = before.log ++ calls ∧
    ∀ c row col attr, .writeCharAt c row col attr ∈ calls →
      shownAt row col after.log = some (chr ' ')

end MicroKernel.Spec
