import MicroKernel.Core.Commands

/-!
# What the commands of `coresystem.c` show

A command's calls of `shell_printf`, carried out. `%s` goes from cell to cell up
to the terminator; a cell that holds nothing yet stops it.
-/

namespace MicroKernel.Core

/-- The characters a pointer leads to. -/
def readCells : List (Option U8) → Option (List U8)
  | [] => none
  | none :: _ => none
  | some c :: cells => if c = 0 then some [] else (readCells cells).map (c :: ·)

def Operand.arg : Operand → Option Arg
  | .int v => some (.int v)
  | .chars cells => (readCells cells).map .str

def Print.draw (p : Print) : Option Draw :=
  (p.args.mapM Operand.arg).bind (shellPrintf (p.fmt ++ [0]))

/-- The characters of a call that draws. -/
def drawText : Draw → List U8
  | .writeVgaAt s _ _ _ => s
  | .writeCharAt c _ _ _ => [c]
  | .clearScreen => []

/-- The text of all calls, one after the other: each begins where the cursor is. -/
def shownText (out : List Print) : Option (List U8) :=
  (out.mapM Print.draw).map (·.flatMap drawText)

end MicroKernel.Core
