import MicroKernel.Machine.Word
import Mathlib.Data.List.TakeWhile

/-!
# Characters and the screen

A `char` is a byte, and a string constant of the source is the bytes before its
terminator. The functions that draw (`kernel/vga.h`) are not in the repository;
the code that calls them is modelled by the calls it makes, in order.
-/

namespace MicroKernel

/-- The bytes of a string constant, without the terminator. -/
def ascii (s : String) : List U8 := s.toList.map fun c => BitVec.ofNat 8 c.toNat

def chr (c : Char) : U8 := BitVec.ofNat 8 c.toNat

/-- What a `char *` that points at these bytes stands for. -/
def cstr (bs : List U8) : List U8 := bs.takeWhile (· != 0)

/-- A call of one of the functions of `kernel/vga.h`. -/
inductive Draw where
  | writeVgaAt (s : List U8) (row col : Int) (attr : U8)
  | writeCharAt (c : U8) (row col : Int) (attr : U8)
  | clearScreen
  deriving DecidableEq, Repr

theorem cstr_eq_self {bs : List U8} (h : 0 ∉ bs) : cstr bs = bs := by
  rw [cstr, List.takeWhile_eq_self_iff]
  intro b hb
  exact bne_iff_ne.2 fun hz => h (hz ▸ hb)

theorem cstr_append_nul {bs : List U8} (h : 0 ∉ bs) (cs : List U8) :
    cstr (bs ++ 0 :: cs) = bs := by
  rw [cstr, List.takeWhile_append_of_pos, List.takeWhile_cons]
  · simp
  · intro b hb
    exact bne_iff_ne.2 fun hz => h (hz ▸ hb)

end MicroKernel
