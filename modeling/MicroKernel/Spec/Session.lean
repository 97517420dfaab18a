import MicroKernel.Spec.LineEditor
import MicroKernel.Spec.Numerals

/-!
# A session at the shell

The language of the shell, told without its machinery. A line asks for a command
by its first word, the words being what stands between one space and the next,
and the command answers with what it draws and, for one of them, with a panic. A
session is a line being typed, the screen so far, and whether it is over.
-/

namespace MicroKernel.Spec

open Kernel Split

/-- What a command draws, and the panic it ends in. -/
structure Reply where
  draws : List Draw
  panic : Option Panic
  deriving DecidableEq

def text (s : List U8) (attr : U8) : Draw := .writeVgaAt s (-1) (-1) attr

def char (c : U8) (attr : U8) : Draw := .writeCharAt c (-1) (-1) attr

def helpRow (cmd : ShellCommand) : List Draw :=
  [text (ascii "  ") 0x07, text cmd.name 0x0E, text (ascii "\t- ") 0x07,
    text cmd.description 0x07, char (chr '\n') 0x07]

def helpDraws : List Draw :=
  text (ascii "MicroKernel++ Shell - v0.4\nAvailable commands:\n") 0x0A ::
    commands.flatMap helpRow

def echoDraws (args : List (List U8)) : List Draw :=
  args.flatMap (fun arg => [text arg 0x0F, char (chr ' ') 0x0F]) ++ [char (chr '\n') 0x07]

/-- Kibibytes, the fraction dropped. -/
def kibText (bytes : U32) : List U8 := upperText 10 (bytes.toNat / 1024)

def memstatDraws (pmm : Pmm) : List Draw :=
  [text (ascii "Physical Memory Usage:\n") 0x0B,
    text (ascii "  Used: ") 0x07, text (kibText (pmmGetUsedMem pmm)) 0x0F,
    text (ascii " KB\n") 0x07,
    text (ascii "  Total: ") 0x07, text (kibText (pmmGetTotalMem pmm)) 0x0F,
    text (ascii " KB\n") 0x07]

def respond (pmm : Pmm) (args : List (List U8)) : ShellFunc → Reply
  | .cmdHelp => ⟨helpDraws, none⟩
  | .cmdEcho => ⟨echoDraws args, none⟩
  | .cmdMemstat => ⟨memstatDraws pmm, none⟩
  | .cmdClear => ⟨[.clearScreen], none⟩
  | .cmdPanicTest => ⟨[], some ⟨"User-initiated panic test."⟩⟩

/-- What is said to a list of words. -/
def replyTo (pmm : Pmm) : List (List U8) → Reply
  | [] => ⟨[], none⟩
  | name :: args =>
      match commands.find? (·.name == name) with
      | some cmd => respond pmm args cmd.func
      | none => ⟨notFound name, none⟩

/-- A line is over at its first NUL, and no more than 31 words of it count. -/
def reply (pmm : Pmm) (line : List U8) : Reply :=
  replyTo pmm ((tokens isSpace (cstr line)).take 31)

structure ShellSession where
  line : List U8
  drawn : List Draw
  halted : Option Panic
  deriving DecidableEq

def ShellSession.start : ShellSession := ⟨[], [], none⟩

/-- The newline: the line is answered, and unless that was a panic a new one is
asked for. -/
def ShellSession.enter (pmm : Pmm) (s : ShellSession) : ShellSession :=
  let a := if s.line = [] then ⟨[], none⟩ else reply pmm s.line
  match a.panic with
  | some p =>
      { s with drawn := s.drawn ++ char (chr '\n') 0x07 :: a.draws, halted := some p }
  | none =>
      { s with line := [], drawn := s.drawn ++ char (chr '\n') 0x07 :: a.draws ++ [promptDraw] }

def ShellSession.key (pmm : Pmm) (s : ShellSession) (c : U8) : ShellSession :=
  if s.halted.isSome then s
  else if c = chr '\n' then s.enter pmm
  else if c = chr '\x08' then
    if s.line = [] then s
    else { s with line := s.line.dropLast, drawn := s.drawn ++ [char c 0x07] }
  else if s.line.length < 255 then
    { s with line := s.line ++ [c], drawn := s.drawn ++ [char c 0x0F] }
  else s

def session (pmm : Pmm) (keys : List U8) : ShellSession := keys.foldl (·.key pmm) .start

/-- The line asks for the one command that panics. -/
def AsksForPanic (line : List U8) : Prop :=
  (tokens isSpace (cstr line)).head? = some (ascii "panic")

end MicroKernel.Spec
