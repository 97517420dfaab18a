import MicroKernel.Machine.Word

/-!
# Taking a string apart

A sequence of cuts goes through a string from left to right. Each takes a
token and, unless the string ends first, the one character behind it. Read
together with those characters the tokens are the string, so nothing is lost
and nothing is made up.
-/

namespace MicroKernel.Spec

/-- A token and the character that ended it. -/
structure Cut where
  token : List U8
  stop : Option U8

/-- What a cut takes from the string. -/
def Cut.text (c : Cut) : List U8 := c.token ++ c.stop.toList

/-- What it leaves behind: a terminator in place of the character. -/
def Cut.ended (c : Cut) : List U8 := c.token ++ (c.stop.map fun _ => 0).toList

/-- The cut is one for these delimiters. -/
structure Cut.By (c : Cut) (delim : List U8) : Prop where
  token : ∀ x ∈ c.token, x ∉ delim
  stop : ∀ x ∈ c.stop, x ∈ delim

def cutText (cuts : List Cut) : List U8 := cuts.flatMap Cut.text

theorem cutText_cons (c : Cut) (cuts : List Cut) :
    cutText (c :: cuts) = c.text ++ cutText cuts := rfl

def cutEnded (cuts : List Cut) : List U8 := cuts.flatMap Cut.ended

/-- Where the tokens begin, when the first one begins at `p`. -/
def cutStarts : Nat → List Cut → List Nat
  | _, [] => []
  | p, c :: cuts => p :: cutStarts (p + c.text.length) cuts

/-- The string is the cuts and then `rest`; every cut takes something and is one
for its own delimiters; and only when nothing is left are there delimiters left
over. -/
structure Cuts (s : List U8) (delims : List (List U8)) (cuts : List Cut)
    (rest : List U8) : Prop where
  whole : cutText cuts ++ rest = s
  le_length : cuts.length ≤ s.length
  le_delims : cuts.length ≤ delims.length
  by_delims : List.Forall₂ Cut.By cuts (delims.take cuts.length)
  done : cuts.length < delims.length → rest = []

theorem Cuts.nil {s : List U8} {delims : List (List U8)}
    (h : delims ≠ [] → s = []) : Cuts s delims [] s where
  whole := rfl
  le_length := Nat.zero_le _
  le_delims := Nat.zero_le _
  by_delims := .nil
  done hlt := h (List.length_pos_iff.1 hlt)

theorem Cuts.cons {s rest delim : List U8} {delims : List (List U8)} {c : Cut}
    {cuts : List Cut} (h : Cuts s delims cuts rest) (hc : c.By delim)
    (hne : c.text ≠ []) : Cuts (c.text ++ s) (delim :: delims) (c :: cuts) rest where
  whole := by
    rw [cutText_cons, List.append_assoc, h.whole]
  le_length := by
    have hpos := List.length_pos_iff.2 hne
    have hle := h.le_length
    rw [List.length_append, List.length_cons]
    omega
  le_delims := Nat.succ_le_succ h.le_delims
  by_delims := by
    rw [List.length_cons, List.take_succ_cons]
    exact .cons hc h.by_delims
  done hlt := h.done (Nat.lt_of_succ_lt_succ hlt)

/-- A string of which nothing is left is not cut any more. -/
theorem Cuts.of_nil {delims : List (List U8)} {cuts : List Cut} {rest : List U8}
    (h : Cuts [] delims cuts rest) : cuts = [] :=
  List.eq_nil_of_length_eq_zero (Nat.le_zero.1 h.le_length)

end MicroKernel.Spec
