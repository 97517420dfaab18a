import MicroKernel.Lib.Numeral
import MicroKernel.Machine.Console
import MicroKernel.Core.Printf

/-!
# What a format stands for

A format is a list of pieces: characters, and conversions together with the
argument each takes. The pieces determine the format string, the argument list
and the text, and the text is written with no reference to any loop.
-/

namespace MicroKernel.Spec

open MicroKernel.Core

def digitText (n : Nat) : U8 := chr n.digitChar

def numeralText (b n : Nat) : List U8 := (Numeral.numeral b n).map digitText

def decimalText (i : Int) : List U8 :=
  if i < 0 then chr '-' :: numeralText 10 i.natAbs else numeralText 10 i.natAbs

/-- At least `w` digits, with zeros on the left. -/
def paddedHex (w n : Nat) : List U8 := (numeralText 16 n).leftpad w (chr '0')

inductive Piece where
  | lit (c : U8) (hnul : c ≠ 0) (hpercent : c ≠ chr '%')
  | str (s : List U8)
  | dec (v : U32)
  | hex (v : U32)
  | hex02 (v : U32)
  | hex08 (v : U32)
  | char (v : U32)
  | percent

def Piece.fmt : Piece → List U8
  | .lit c _ _ => [c]
  | .str _ => ascii "%s"
  | .dec _ => ascii "%d"
  | .hex _ => ascii "%x"
  | .hex02 _ => ascii "%02x"
  | .hex08 _ => ascii "%08x"
  | .char _ => ascii "%c"
  | .percent => ascii "%%"

def Piece.args : Piece → List Arg
  | .str s => [.str s]
  | .dec v | .hex v | .hex02 v | .hex08 v | .char v => [.int v]
  | .lit .. | .percent => []

def Piece.text : Piece → List U8
  | .lit c _ _ => [c]
  | .str s => s
  | .dec v => decimalText v.toInt
  | .hex v => numeralText 16 v.toNat
  | .hex02 v => paddedHex 2 v.toNat
  | .hex08 v => paddedHex 8 v.toNat
  | .char v => [v.setWidth 8]
  | .percent => [chr '%']

def fmtOf (ps : List Piece) : List U8 := ps.flatMap Piece.fmt ++ [0]

def argsOf (ps : List Piece) : List Arg := ps.flatMap Piece.args

def textOf (ps : List Piece) : List U8 := ps.flatMap Piece.text

theorem fmtOf_cons (p : Piece) (ps : List Piece) :
    fmtOf (p :: ps) = p.fmt ++ fmtOf ps := by
  simp [fmtOf]

theorem argsOf_cons (p : Piece) (ps : List Piece) :
    argsOf (p :: ps) = p.args ++ argsOf ps := rfl

theorem textOf_cons (p : Piece) (ps : List Piece) :
    textOf (p :: ps) = p.text ++ textOf ps := rfl

/-- The number of a padded conversion fills its width without zeros. -/
def Piece.Fills : Piece → Prop
  | .hex02 v => 0x10 ≤ v.toNat
  | .hex08 v => 0x10000000 ≤ v.toNat
  | _ => True

/-- Padding changes nothing exactly where the number is long enough. -/
theorem paddedHex_eq_iff {w n : Nat} (hw : 0 < w) :
    numeralText 16 n = paddedHex (w + 1) n ↔ 16 ^ w ≤ n := by
  have hlen := Numeral.numeral_length_le_iff (b := 16) (n := n) (by decide) hw
  have hmap : (numeralText 16 n).length = (Numeral.numeral 16 n).length :=
    List.length_map _
  rw [← Nat.not_lt, ← hlen, paddedHex, List.leftpad]
  constructor
  · intro h
    have := congrArg List.length h
    rw [List.length_append, List.length_replicate] at this
    omega
  · intro h
    have hz : w + 1 - (numeralText 16 n).length = 0 := by omega
    rw [hz]
    rfl

end MicroKernel.Spec
