import MicroKernel.Lib.Frame
import MicroKernel.Machine.Word

/-!
# A terminal

A screen of 25 rows and 80 columns, and where the next character goes. A cell
is the word that is shown there: the character below, the attribute above. The
rows follow one another, and the screen scrolls up by one row whenever the
cursor would leave it. Which character is the newline, `nl`, is left open.
-/

namespace MicroKernel.Spec

structure Terminal where
  cells : List U16
  x : Nat
  y : Nat
  deriving DecidableEq, Repr

namespace Terminal

def cell (attr c : U8) : U16 := attr ++ c

/-- The screen one row further up, the last row blank. -/
def scrolled (attr : U8) (cells : List U16) : List U16 :=
  cells.drop 80 ++ List.replicate 80 (cell attr 0x20)

def newLine (attr : U8) (t : Terminal) : Terminal :=
  if t.y + 1 < 25 then { t with x := 0, y := t.y + 1 }
  else { cells := scrolled attr t.cells, x := 0, y := 24 }

theorem newLine_x {attr : U8} {t : Terminal} : (newLine attr t).x = 0 := by
  rw [newLine]
  split <;> rfl

theorem newLine_y {attr : U8} {t : Terminal} :
    (newLine attr t).y = if t.y + 1 < 25 then t.y + 1 else 24 := by
  rw [newLine]
  split <;> rfl

/-- The newline of the character set. -/
def lineFeed : U8 := 0x0A

/-- The cell a character changes, and the character that is shown there. A
newline changes none, and a backspace none at the start of a row. -/
def target (nl : U8) (t : Terminal) (c : U8) : Option (Nat × U8) :=
  if c = 0x08 then if t.x = 0 then none else some (80 * t.y + t.x - 1, 0x20)
  else if c = nl then none
  else some (80 * t.y + t.x, c)

def shown (nl attr : U8) (t : Terminal) (c : U8) : List U16 :=
  match t.target nl c with
  | none => t.cells
  | some (i, c) => t.cells.set i (cell attr c)

/-- One character. -/
def put (nl attr : U8) (t : Terminal) (c : U8) : Terminal :=
  let cells := t.shown nl attr c
  if c = 0x08 then { t with cells, x := t.x - 1 }
  else if c = nl then newLine attr t
  else if t.x + 1 < 80 then { t with cells, x := t.x + 1 }
  else newLine attr { t with cells }

theorem shown_none {nl attr c : U8} {t : Terminal} (h : t.target nl c = none)
    (cells : List U16) : shown nl attr { t with cells } c = cells := by
  have h' : { t with cells }.target nl c = none := h
  rw [shown, h']

theorem shown_some {nl attr b c : U8} {i : Nat} {t : Terminal}
    (h : t.target nl c = some (i, b)) (cells : List U16) :
    shown nl attr { t with cells } c = cells.set i (cell attr b) := by
  have h' : { t with cells }.target nl c = some (i, b) := h
  rw [shown, h']

/-- Where the cursor goes does not depend on what is on the screen. -/
theorem put_cells (nl attr : U8) (t : Terminal) (c : U8) (cells : List U16) :
    put nl attr { t with cells } c =
      { put nl attr t c with cells := (put nl attr { t with cells } c).cells } := by
  simp only [put, newLine]
  split
  · rfl
  · split
    · split <;> rfl
    · split
      · rfl
      · split <;> rfl

/-- A string. -/
def print (nl attr : U8) (t : Terminal) (s : List U8) : Terminal := s.foldl (put nl attr) t

/-- The cursor is on the screen. -/
structure OnScreen (t : Terminal) : Prop where
  x_lt : t.x < 80
  y_lt : t.y < 25

theorem target_lt {nl : U8} {t : Terminal} {c b : U8} {i : Nat} (h : t.OnScreen)
    (htarget : t.target nl c = some (i, b)) : i < 2000 := by
  have hx := h.x_lt
  have hy := h.y_lt
  rw [target] at htarget
  split at htarget
  · split at htarget
    · cases htarget
    · cases htarget
      omega
  · split at htarget
    · cases htarget
    · cases htarget
      omega

theorem newLine_onScreen {attr : U8} {t : Terminal} : (newLine attr t).OnScreen := by
  rw [newLine]
  split
  · next h => exact ⟨Nat.succ_pos 79, h⟩
  · exact ⟨Nat.succ_pos 79, Nat.lt_succ_self 24⟩

theorem put_onScreen {nl attr : U8} {t : Terminal} {c : U8} (h : t.OnScreen) :
    (put nl attr t c).OnScreen := by
  rw [put]
  split
  · exact ⟨Nat.lt_of_le_of_lt (Nat.sub_le _ _) h.x_lt, h.y_lt⟩
  · split
    · exact newLine_onScreen
    · split
      · next hx => exact ⟨hx, h.y_lt⟩
      · exact newLine_onScreen

theorem print_onScreen {nl attr : U8} {t : Terminal} (h : t.OnScreen) (s : List U8) :
    (print nl attr t s).OnScreen := by
  induction s generalizing t with
  | nil => exact h
  | cons c s ih => exact ih (put_onScreen h)

end Terminal

/-! ## The text buffer

What the adapter shows of the memory. -/

def cellAddr (i : Nat) : U32 := 0xB8000 + BitVec.ofNat 32 (2 * i)

def screenOf (m : PhysMem) : List U16 :=
  (List.range 2000).map fun i => m.read16 (cellAddr i)

theorem screenOf_length (m : PhysMem) : (screenOf m).length = 2000 := by
  rw [screenOf, List.length_map, List.length_range]

theorem screenOf_getElem {m : PhysMem} {i : Nat} (hi : i < (screenOf m).length) :
    (screenOf m)[i] = m.read16 (cellAddr i) := by
  simp [screenOf]

-- 2000 cells are not to be computed by unification
attribute [irreducible] screenOf

def InScreen (a : U32) : Prop := ByteMem.Within 0xB8000 0xB8FA0 a

/-- The address of a store whose lower half has been overwritten by the very
word to be stored. -/
def storeAddr (attr c : U8) : U32 := 0xB0000 + BitVec.ofNat 32 (256 * attr.toNat + c.toNat)

/-- The addresses of the bytes stored for a character. -/
def storedAt (nl attr : U8) (t : Terminal) (c : U8) : List U32 :=
  match t.target nl c with
  | none => []
  | some (_, b) => [storeAddr attr b, storeAddr attr b + 1]

/-- Those of a string. -/
def storedFor (nl attr : U8) : Terminal → List U8 → List U32
  | _, [] => []
  | t, c :: s => storedAt nl attr t c ++ storedFor nl attr (t.put nl attr c) s

/-- The cell that is to change, if any, is the one at that address. -/
def Lands (nl attr : U8) (t : Terminal) (c : U8) : Prop :=
  ∀ i b, t.target nl c = some (i, b) → storeAddr attr b = cellAddr i

end MicroKernel.Spec
