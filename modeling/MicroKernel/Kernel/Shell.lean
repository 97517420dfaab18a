import MicroKernel.Kernel.Pmm
import MicroKernel.Kernel.String

/-!
# The shell (`kernel/shell.c`)

Its state is the line buffer, the position in it, the static pointer of
`strtok`, and the memory manager `memstat` reports on. What the shell does to
the outside is a log. Besides the calls that draw, the log notes three moments
of `shell_execute_command` that draw nothing: the buffer it is handed, the
argument vector it has built, and the call of a command.

An access outside an array stops the shell with `fault`, and `panic` stops it
for good in the state it was called in.
-/

namespace MicroKernel.Kernel

def maxCmdLen : Nat := 256

def promptText : List U8 := ascii "MK++ > "

inductive ShellFunc where
  | cmdHelp
  | cmdEcho
  | cmdMemstat
  | cmdClear
  | cmdPanicTest
  deriving DecidableEq, Repr

structure ShellCommand where
  name : List U8
  description : List U8
  func : ShellFunc
  deriving DecidableEq, Repr

/-- `commands`, without the row of zeros that ends it. -/
def commands : List ShellCommand :=
  [⟨ascii "help", ascii "Displays this help message.", .cmdHelp⟩,
    ⟨ascii "echo", ascii "Prints back its arguments.", .cmdEcho⟩,
    ⟨ascii "memstat", ascii "Displays physical memory usage.", .cmdMemstat⟩,
    ⟨ascii "clear", ascii "Clears the screen.", .cmdClear⟩,
    ⟨ascii "panic", ascii "Tests the kernel panic.", .cmdPanicTest⟩]

/-- `argv`: pointers into the line, and null pointers. -/
abbrev ArgVector := CArray (Option Nat) 32

/-- The strings an argument vector points to, and the null pointer after them. -/
abbrev Argv := List (Option (List U8))

inductive Event where
  | draw (d : Draw)
  | execute (input : List U8)
  | argv (argc : Nat) (argv : Argv)
  | call (f : ShellFunc) (argc : Nat) (argv : Argv)
  deriving DecidableEq, Repr

structure Shell where
  cmdBuffer : CArray U8 maxCmdLen
  cmdPos : Int
  last : Option Nat
  pmm : Pmm
  log : List Event
  deriving DecidableEq, Repr

inductive Stop where
  | fault
  | panic (p : Panic) (s : Shell)
  deriving DecidableEq, Repr

/-- An access that must be inside its array. -/
def checked {α : Type} : Option α → Except Stop α
  | some x => .ok x
  | none => .error .fault

@[simp] theorem checked_some {α : Type} (x : α) : checked (some x) = .ok x := rfl

@[simp] theorem ok_bind {α β : Type} (x : α) (f : α → Except Stop β) :
    (Except.ok x >>= f) = f x := rfl

def Shell.note (s : Shell) (e : Event) : Shell := { s with log := s.log ++ [e] }

def Shell.print (s : Shell) (text : List U8) (attr : U8) : Shell :=
  s.note (.draw (.writeVgaAt text (-1) (-1) attr))

def Shell.putChar (s : Shell) (c : U8) (attr : U8) : Shell :=
  s.note (.draw (.writeCharAt c (-1) (-1) attr))

/-! ## Commands -/

def cmdHelp (s : Shell) : Shell :=
  commands.foldl
    (fun s cmd =>
      ((((s.print (ascii "  ") 0x07).print cmd.name 0x0E).print
        (ascii "\t- ") 0x07).print cmd.description 0x07).putChar (chr '\n') 0x07)
    (s.print (ascii "MicroKernel++ Shell - v0.4\nAvailable commands:\n") 0x0A)

/-- The string `argv[i]` is to point to: neither a cell outside the array nor
the null pointer does. -/
def argAt (argv : ArgVector) (i : Nat) : Option Nat := (argv.load i).join

def echoArg (s : Shell) (p : Nat) : Except Stop Shell := do
  let arg ← checked (loadStr s.cmdBuffer p)
  pure ((s.print arg 0x0F).putChar (chr ' ') 0x0F)

def cmdEcho (argc : Nat) (argv : ArgVector) (s : Shell) : Except Stop Shell := do
  let s ← (List.range' 1 (argc - 1)).foldlM
    (fun s i => checked (argAt argv i) >>= echoArg s) s
  pure (s.putChar (chr '\n') 0x07)

/-- `buffer` is a local of `cmd_memstat`; `utoa` writes it before it is read. -/
def cmdMemstat (s : Shell) : Except Stop Shell := do
  let buffer : CArray U8 12 := CArray.fill 12 0
  let usedMem := pmmGetUsedMem s.pmm
  let totalMem := pmmGetTotalMem s.pmm
  let s := s.print (ascii "Physical Memory Usage:\n") 0x0B
  let (_, buffer) ← checked (utoa (usedMem / 1024) buffer 0 10)
  let used ← checked (loadStr buffer 0)
  let s := ((s.print (ascii "  Used: ") 0x07).print used 0x0F).print
    (ascii " KB\n") 0x07
  let (_, buffer) ← checked (utoa (totalMem / 1024) buffer 0 10)
  let total ← checked (loadStr buffer 0)
  pure (((s.print (ascii "  Total: ") 0x07).print total 0x0F).print
    (ascii " KB\n") 0x07)

def cmdPanicTest (s : Shell) : Except Stop Shell :=
  .error (.panic ⟨"User-initiated panic test."⟩ s)

def cmdClear (s : Shell) : Shell := s.note (.draw .clearScreen)

def callFunc (f : ShellFunc) (argc : Nat) (argv : ArgVector) (s : Shell) :
    Except Stop Shell :=
  match f with
  | .cmdHelp => .ok (cmdHelp s)
  | .cmdEcho => cmdEcho argc argv s
  | .cmdMemstat => cmdMemstat s
  | .cmdClear => .ok (cmdClear s)
  | .cmdPanicTest => cmdPanicTest s

/-! ## Command processing -/

def Shell.strtok (s : Shell) (str : Option Nat) : Except Stop (Option Nat × Shell) := do
  let (token, cmdBuffer, last) ←
    checked (Kernel.strtok s.cmdBuffer s.last str (ascii " "))
  pure (token, { s with cmdBuffer, last })

/-- The loop that fills `argv`. -/
def collectArgs (token : Option Nat) (argc : Nat) (argv : ArgVector) (s : Shell) :
    Except Stop (Nat × ArgVector × Shell) :=
  match token with
  | none => pure (argc, argv, s)
  | some p =>
      if argc < 31 then do
        let argv ← checked (argv.store argc (some p))
        let (token, s) ← s.strtok none
        collectArgs token (argc + 1) argv s
      else pure (argc, argv, s)
termination_by 31 - argc

/-- What the first `argc + 1` cells of `argv` point to. -/
def Shell.argvOf (s : Shell) (argc : Nat) (argv : ArgVector) : Argv :=
  (argv.cells.take (argc + 1)).map (·.map fun p => cstr (s.cmdBuffer.cells.drop p))

def findCommand (name : List U8) : List ShellCommand → Except Stop (Option ShellCommand)
  | [] => pure none
  | cmd :: rest => do
      let order ← checked (strcmp (cmd.name ++ [0]) name)
      if order = 0 then pure (some cmd) else findCommand name rest

/-- `shell_execute_command`, once `argv` is built. -/
def dispatchArgs (argc : Nat) (argv : ArgVector) (s : Shell) : Except Stop Shell :=
  if argc = 0 then pure s
  else do
    let name ← checked (argAt argv 0)
    match ← findCommand (s.cmdBuffer.cells.drop name) commands with
    | some cmd =>
        callFunc cmd.func argc argv
          (s.note (.call cmd.func argc (s.argvOf argc argv)))
    | none =>
        let s := s.print (ascii "Command not found: ") 0x0C
        let word ← checked (loadStr s.cmdBuffer name)
        pure ((s.print word 0x0C).putChar (chr '\n') 0x07)

/-- `argv` is a local: before the stores its cells hold anything, here pointers
that lead somewhere, so that a null pointer in it is one that was stored. -/
def shellExecuteCommand (s : Shell) : Except Stop Shell := do
  let s := s.note (.execute s.cmdBuffer.cells)
  let (token, s) ← s.strtok (some 0)
  let (argc, argv, s) ← collectArgs token 0 (CArray.fill 32 (some 0)) s
  let argv ← checked (argv.store argc none)
  dispatchArgs argc argv (s.note (.argv argc (s.argvOf argc argv)))

def Shell.setCell (s : Shell) (i : Int) (c : U8) : Except Stop Shell := do
  let cmdBuffer ← checked (s.cmdBuffer.store i c)
  pure { s with cmdBuffer }

def shellHandleKeypress (s : Shell) (c : U8) : Except Stop Shell :=
  if c = chr '\n' then do
    let s := s.putChar c 0x07
    let s ← if s.cmdPos > 0 then do
        let s ← s.setCell s.cmdPos 0
        shellExecuteCommand s
      else pure s
    pure ({ s with cmdPos := 0 }.print promptText 0x0A)
  else if c = chr '\x08' then
    if s.cmdPos > 0 then
      pure ({ s with cmdPos := s.cmdPos - 1 }.putChar (chr '\x08') 0x07)
    else pure s
  else if s.cmdPos < maxCmdLen - 1 then do
    let s ← s.setCell s.cmdPos c
    pure ({ s with cmdPos := s.cmdPos + 1 }.putChar c 0x0F)
  else pure s

/-- The shell before the first key: its static variables are zero. -/
def shellInit (pmm : Pmm) : Shell where
  cmdBuffer := CArray.fill maxCmdLen 0
  cmdPos := 0
  last := none
  pmm := pmm
  log := []

def shellRun (s : Shell) (keys : List U8) : Except Stop Shell :=
  keys.foldlM shellHandleKeypress s

end MicroKernel.Kernel
