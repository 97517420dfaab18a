import MicroKernel.Kernel.Shell
import MicroKernel.Lib.Split

/-!
# A line editor, and what a line asks for

What the shell is for. The editor holds a line and nothing else: a key
appends, a backspace takes the last character back, and a newline enters the
line. A line asks for the command its first word names, with the words as
arguments. Neither knows of a buffer, a position or a tokenizer; the log is
read against both.
-/

namespace MicroKernel.Spec

open Kernel

/-- The line being edited, and the lines entered before it. A newline on an
empty line enters nothing. -/
structure Editor where
  line : List U8
  entered : List (List U8)

def Editor.key (e : Editor) (c : U8) : Editor :=
  if c = chr '\n' then
    { line := []
      entered := if e.line = [] then e.entered else e.entered ++ [e.line] }
  else if c = chr '\x08' then { e with line := e.line.dropLast }
  else if e.line.length < 255 then { e with line := e.line ++ [c] }
  else e

def edit (keys : List U8) : Editor := keys.foldl Editor.key ⟨[], []⟩

/-! ## Reading the log -/

/-- What stands after the prompt once `e` has been drawn: a character is
appended, a backspace erases the last one, a new prompt starts afresh. -/
def echo (shown : List U8) : Event → List U8
  | .draw (.writeCharAt c ..) => if c = chr '\x08' then shown.dropLast else shown ++ [c]
  | .draw (.writeVgaAt s ..) => if s = promptText then [] else shown
  | _ => shown

def echoed (log : List Event) : List U8 := log.foldl echo []

def executed : List Event → List (List U8) := List.filterMap fun
  | .execute input => some input
  | _ => none

def built : List Event → List (Nat × Argv) := List.filterMap fun
  | .argv argc argv => some (argc, argv)
  | _ => none

def called : List Event → List (ShellFunc × Nat × Argv) := List.filterMap fun
  | .call f argc argv => some (f, argc, argv)
  | _ => none

def drawn : List Event → List Draw := List.filterMap fun
  | .draw d => some d
  | _ => none

/-- Each buffer handed over starts with a line that was entered, and its
terminator. -/
def HandedOver (lines : List (List U8)) (log : List Event) : Prop :=
  List.Forall₂ (fun line input => line ++ [0] <+: input) lines (executed log)

/-- The shell holds what the editor holds, shows it, and has handed over what
was entered. -/
structure Holds (e : Editor) (s : Shell) : Prop where
  pos_nonneg : 0 ≤ s.cmdPos
  pos_le : s.cmdPos ≤ 255
  held : s.cmdBuffer.cells.take s.cmdPos.toNat = e.line
  shown : echoed s.log = e.line
  handed : HandedOver e.entered s.log

/-- The state a run ended in, whether or not it panicked; an access outside an
array leaves none. -/
def final : Except Stop Shell → Option Shell
  | .ok s => some s
  | .error (.panic _ s) => some s
  | .error .fault => none

/-! ## What a line asks for -/

def isSpace (c : U8) : Bool := c == chr ' '

/-- The maximal runs of characters that are not spaces. -/
def wordsOf (line : List U8) : List (List U8) := Split.words isSpace line

/-- A null pointer ends the vector. -/
def argvFor (args : List (List U8)) : Argv := args.map some ++ [none]

def echoOf (line : List U8) : List Draw :=
  line.map (fun c => .writeCharAt c (-1) (-1) 0x0F) ++
    [.writeCharAt (chr '\n') (-1) (-1) 0x07]

def notFound (word : List U8) : List Draw :=
  [.writeVgaAt (ascii "Command not found: ") (-1) (-1) 0x0C,
    .writeVgaAt word (-1) (-1) 0x0C, .writeCharAt (chr '\n') (-1) (-1) 0x07]

def promptDraw : Draw := .writeVgaAt promptText (-1) (-1) 0x0A

/-- The events `ev` of typing and entering `line` are the ones it asks for. -/
def Answers (line : List U8) (ev : List Event) : Prop :=
  match wordsOf line with
  | [] => called ev = [] ∧ drawn ev = echoOf line ++ [promptDraw]
  | word :: rest =>
      let args := (word :: rest).take 31
      built ev = [(args.length, argvFor args)] ∧
        match commands.find? (·.name == word) with
        | some cmd => called ev = [(cmd.func, args.length, argvFor args)]
        | none =>
            called ev = [] ∧
              drawn ev = echoOf line ++ notFound word ++ [promptDraw]

/-- A character that is only itself: it neither ends the line nor edits it. -/
def Printable (c : U8) : Prop := c ≠ 0 ∧ c ≠ chr '\n' ∧ c ≠ chr '\x08'
  deriving Decidable

/-- Typed and entered in state `s`, the line is answered. -/
def LineAnswered (s : Shell) (line : List U8) : Prop :=
  ∃ t ev, final (shellRun s (line ++ [chr '\n'])) = some t ∧
    t.log = s.log ++ ev ∧ Answers line ev

/-- A space that begins the line or follows another space has 31 spaces before
it. -/
def WellSpaced (line : List U8) : Prop :=
  ∀ q r, line = q ++ chr ' ' :: r → (∀ c ∈ q.getLast?, c = chr ' ') →
    31 ≤ q.count (chr ' ')

def Reachable (s : Shell) : Prop :=
  ∃ pmm keys, shellRun (shellInit pmm) keys = .ok s

end MicroKernel.Spec
