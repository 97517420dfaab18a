import Mathlib.Data.List.GetD

/-!
# Bits packed in words

A list of `w`-bit words read as one row of bits, bit `i` being bit `i % w` of
word `i / w`. A store of one word that differs from the old one in a single bit
changes that bit of the row and no other, whichever bits share the word.
-/

namespace PackedBits

variable {w : Nat}

/-- Bit `i` of the row. There are only zeros behind the last word. -/
def bitAt (ws : List (BitVec w)) (i : Nat) : Bool := (ws.getD (i / w) 0).getLsbD (i % w)

theorem bitAt_zeros (n i : Nat) : bitAt (List.replicate n (0 : BitVec w)) i = false := by
  have hword : (List.replicate n (0 : BitVec w)).getD (i / w) 0 = 0 := by
    rw [List.getD_eq_getElem?_getD, List.getElem?_replicate]
    split <;> rfl
  rw [bitAt, hword]
  exact BitVec.getLsbD_zero

/-- `v` is the word of bit `i` with that bit made `b`. -/
def Puts (ws : List (BitVec w)) (i : Nat) (b : Bool) (v : BitVec w) : Prop :=
  ∀ k < w, v.getLsbD k = if k = i % w then b else (ws.getD (i / w) 0).getLsbD k

theorem bitAt_set {ws : List (BitVec w)} {i : Nat} {b : Bool} {v : BitVec w} (hw : 0 < w)
    (hi : i / w < ws.length) (hv : Puts ws i b v) (j : Nat) :
    bitAt (ws.set (i / w) v) j = if j = i then b else bitAt ws j := by
  have hj := Nat.mod_lt j hw
  have hsame : j / w = i / w → (j % w = i % w ↔ j = i) := by
    intro hdiv
    refine ⟨fun hmod => ?_, fun h => by rw [h]⟩
    rw [← Nat.div_add_mod j w, ← Nat.div_add_mod i w, hdiv, hmod]
  rw [bitAt, List.getD_eq_getElem?_getD, List.getElem?_set]
  by_cases hdiv : i / w = j / w
  · rw [if_pos hdiv, if_pos (hdiv ▸ hi), Option.getD_some, hv _ hj]
    simp only [hsame hdiv.symm, bitAt, hdiv]
  · have hne : j ≠ i := fun h => hdiv (by rw [h])
    rw [if_neg hdiv, if_neg hne, bitAt, List.getD_eq_getElem?_getD]

end PackedBits
