import MicroKernel.Machine.Word

/-!
# The registers of the display's cursor

The CRT controller of the adapter has one port for the number of a register and
one for its value. Of its registers the two that hold the place of the cursor
are modelled, as the number of a cell: 0x0E the high byte, 0x0F the low one.
-/

namespace MicroKernel

structure Crtc where
  index : U8
  high : U8
  low : U8
  deriving DecidableEq, Repr

def Crtc.outb (c : Crtc) (port : U16) (b : U8) : Crtc :=
  if port = 0x3D4 then { c with index := b }
  else if port = 0x3D5 then
    if c.index = 0x0E then { c with high := b }
    else if c.index = 0x0F then { c with low := b }
    else c
  else c

def Crtc.outs (c : Crtc) (log : List (U16 × U8)) : Crtc :=
  log.foldl (fun c e => c.outb e.1 e.2) c

/-- The cell the cursor is shown at. -/
def Crtc.location (c : Crtc) : Nat := 256 * c.high.toNat + c.low.toNat

theorem Crtc.outs_append (c : Crtc) (log log' : List (U16 × U8)) :
    c.outs (log ++ log') = (c.outs log).outs log' := List.foldl_append

/-- Both registers set, in the order of the drivers that send the low byte first. -/
def cursorBytes (low high : U8) : List (U16 × U8) :=
  [(0x3D4, 0x0F), (0x3D5, low), (0x3D4, 0x0E), (0x3D5, high)]

theorem Crtc.outs_cursorBytes (c : Crtc) (low high : U8) :
    (c.outs (cursorBytes low high)).location = 256 * high.toNat + low.toNat := rfl

end MicroKernel
