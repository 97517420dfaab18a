import MicroKernel.Spec.Terminal

/-!
# Where a terminal prints next

The cursor of a terminal, whatever is on its screen. A character advances it, at
the end of a row to the next one, and the row is held at the last one: each time
it would become the 26th, the screen is scrolled instead.

What a terminal does about a request is a list of acts, in order. A row that is
one too many is counted before it is seen to be one, and put back afterwards.
-/

namespace MicroKernel.Spec

@[ext]
structure Cursor where
  x : Nat
  y : Nat
  deriving DecidableEq, Repr

/-- What a terminal is asked for. -/
inductive Request where
  | clear
  | char (c : U8)
  | string (str : List U8)

/-- The characters to be printed. -/
def Request.text : Request → List U8
  | .clear => []
  | .char c => [c]
  | .string str => str

/-- The whole screen is blanked, a cell is set, the column or the row of the
cursor is, or the screen is scrolled by a row. -/
inductive Act where
  | blank
  | cell (c : U8)
  | column
  | row
  | scroll
  deriving DecidableEq, Repr

namespace Cursor

def origin : Cursor := ⟨0, 0⟩

section
variable (nl : U8)

/-- The row that a character would take the cursor to. -/
def nextRow (p : Cursor) (c : U8) : Nat :=
  if c = 0x08 then p.y
  else if c = nl ∨ p.x + 1 = 80 then p.y + 1
  else p.y

def newLine (p : Cursor) : Cursor := ⟨0, min (p.y + 1) 24⟩

def put (p : Cursor) (c : U8) : Cursor :=
  if c = 0x08 then { p with x := p.x - 1 }
  else if c = nl then p.newLine
  else if p.x + 1 < 80 then { p with x := p.x + 1 }
  else p.newLine

def serve (p : Cursor) : Request → Cursor
  | .clear => origin
  | .char c => p.put nl c
  | .string str => str.foldl (put nl) p

/-- After so many requests. -/
def after (rs : List Request) : Cursor := rs.foldl (serve nl) origin

/-- How often the row would become 25. -/
def overflows : Cursor → List U8 → Nat
  | _, [] => 0
  | p, c :: str => (if p.nextRow nl c = 25 then 1 else 0) + overflows (p.put nl c) str

def newLineActs (p : Cursor) : List Act :=
  [.column, .row] ++ if p.y + 1 < 25 then [] else [.scroll, .row]

def putActs (p : Cursor) (c : U8) : List Act :=
  if c = 0x08 then if p.x = 0 then [] else [.column, .cell 0x20]
  else if c = nl then p.newLineActs
  else [.cell c, .column] ++ if p.x + 1 < 80 then [] else p.newLineActs

def printActs : Cursor → List U8 → List Act
  | _, [] => []
  | p, c :: str => p.putActs nl c ++ printActs (p.put nl c) str

def acts (p : Cursor) : Request → List Act
  | .clear => [.blank, .column, .row]
  | .char c => p.putActs nl c
  | .string str => printActs nl p str

/-- Where it is after each character. -/
def path : Cursor → List U8 → List Cursor
  | _, [] => []
  | p, c :: str => p.put nl c :: path (p.put nl c) str

/-- Where it is each time the request has changed it. -/
def trail (p : Cursor) : Request → List Cursor
  | .clear => [origin]
  | .char c => [p.put nl c]
  | .string str => path nl p str

end

section
variable {nl : U8}

/-! ## The bounds -/

structure OnScreen (p : Cursor) : Prop where
  x_lt : p.x < 80
  y_lt : p.y < 25

theorem origin_onScreen : origin.OnScreen := ⟨Nat.succ_pos 79, Nat.succ_pos 24⟩

theorem newLine_onScreen (p : Cursor) : p.newLine.OnScreen :=
  ⟨Nat.succ_pos 79, Nat.lt_succ_of_le (Nat.min_le_right _ _)⟩

theorem put_onScreen {p : Cursor} (h : p.OnScreen) (c : U8) : (p.put nl c).OnScreen := by
  rw [put]
  split
  · exact ⟨Nat.lt_of_le_of_lt (Nat.sub_le _ _) h.x_lt, h.y_lt⟩
  · split
    · exact newLine_onScreen p
    · split
      · next hx => exact ⟨hx, h.y_lt⟩
      · exact newLine_onScreen p

theorem print_onScreen {p : Cursor} (h : p.OnScreen) (str : List U8) :
    (str.foldl (put nl) p).OnScreen := by
  induction str generalizing p with
  | nil => exact h
  | cons c str ih => exact ih (put_onScreen h c)

theorem serve_onScreen {p : Cursor} (h : p.OnScreen) (r : Request) : (p.serve nl r).OnScreen := by
  cases r with
  | clear => exact origin_onScreen
  | char c => exact put_onScreen h c
  | string str => exact print_onScreen h str

theorem after_concat (rs : List Request) (r : Request) :
    after nl (rs ++ [r]) = (after nl rs).serve nl r := List.foldl_append ..

/-! ## The scrolls -/

theorem newLineActs_scroll {p : Cursor} (h : p.y < 25) :
    p.newLineActs.count .scroll = if p.y + 1 = 25 then 1 else 0 := by
  rw [newLineActs]
  by_cases hy : p.y + 1 < 25
  · rw [if_pos hy, if_neg (Nat.ne_of_lt hy)]
    rfl
  · rw [if_neg hy, if_pos (by omega)]
    rfl

/-- One scroll where the row would become 25, and none elsewhere. -/
theorem putActs_scroll {p : Cursor} (h : p.OnScreen) (c : U8) :
    (p.putActs nl c).count .scroll = if p.nextRow nl c = 25 then 1 else 0 := by
  have hx := h.x_lt
  have hy := h.y_lt
  have hstay : ¬ p.y = 25 := by omega
  rw [putActs, nextRow]
  by_cases hback : c = 0x08
  · rw [if_pos hback, if_pos hback, if_neg hstay]
    split <;> rfl
  · rw [if_neg hback, if_neg hback]
    by_cases hline : c = nl
    · rw [if_pos hline, if_pos (Or.inl hline)]
      exact newLineActs_scroll hy
    · rw [if_neg hline]
      by_cases hcol : p.x + 1 < 80
      · rw [if_pos hcol, if_neg (not_or.2 ⟨hline, Nat.ne_of_lt hcol⟩), if_neg hstay]
        rfl
      · rw [if_neg hcol, if_pos (Or.inr (by omega)), List.count_append]
        exact (Nat.zero_add _).trans (newLineActs_scroll hy)

theorem printActs_scroll {p : Cursor} (h : p.OnScreen) (str : List U8) :
    (printActs nl p str).count .scroll = overflows nl p str := by
  induction str generalizing p with
  | nil => rfl
  | cons c str ih =>
      rw [printActs, List.count_append, putActs_scroll h, ih (put_onScreen h c)]
      rfl

theorem acts_scroll {p : Cursor} (h : p.OnScreen) (r : Request) :
    (p.acts nl r).count .scroll = overflows nl p r.text := by
  cases r with
  | clear => rfl
  | char c => exact putActs_scroll h c
  | string str => exact printActs_scroll h str

end

end Cursor

/-! ## The cursor of a terminal -/

namespace Terminal

def cursor (t : Terminal) : Cursor := ⟨t.x, t.y⟩

theorem cursor_newLine (attr : U8) (t : Terminal) :
    (newLine attr t).cursor = t.cursor.newLine := by
  rw [newLine, Cursor.newLine]
  show _ = (⟨0, min (t.y + 1) 24⟩ : Cursor)
  split
  · next h => rw [Nat.min_eq_left (Nat.le_of_lt_succ h)]; rfl
  · next h => rw [Nat.min_eq_right (by omega)]; rfl

theorem cursor_put (nl attr : U8) (t : Terminal) (c : U8) :
    (put nl attr t c).cursor = t.cursor.put nl c := by
  rw [put, Cursor.put]
  split
  · rfl
  · split
    · exact cursor_newLine attr t
    · show (if t.x + 1 < 80 then _ else _ : Terminal).cursor =
        if t.x + 1 < 80 then _ else _
      split
      · rfl
      · exact cursor_newLine ..

/-- That of a terminal with nothing on its screen. -/
theorem put_at (nl attr : U8) (p : Cursor) (c : U8) :
    (put nl attr ⟨[], p.x, p.y⟩ c).x = (p.put nl c).x ∧
      (put nl attr ⟨[], p.x, p.y⟩ c).y = (p.put nl c).y :=
  ⟨congrArg Cursor.x (cursor_put nl attr ⟨[], p.x, p.y⟩ c),
    congrArg Cursor.y (cursor_put nl attr ⟨[], p.x, p.y⟩ c)⟩

theorem cursor_print (nl attr : U8) (t : Terminal) (str : List U8) :
    (print nl attr t str).cursor = str.foldl (Cursor.put nl) t.cursor := by
  induction str generalizing t with
  | nil => rfl
  | cons c str ih => exact (ih _).trans (by rw [cursor_put]; rfl)

theorem print_at (nl attr : U8) (p : Cursor) (str : List U8) :
    (print nl attr ⟨[], p.x, p.y⟩ str).x = (str.foldl (Cursor.put nl) p).x ∧
      (print nl attr ⟨[], p.x, p.y⟩ str).y = (str.foldl (Cursor.put nl) p).y :=
  ⟨congrArg Cursor.x (cursor_print nl attr ⟨[], p.x, p.y⟩ str),
    congrArg Cursor.y (cursor_print nl attr ⟨[], p.x, p.y⟩ str)⟩

end Terminal

end MicroKernel.Spec
