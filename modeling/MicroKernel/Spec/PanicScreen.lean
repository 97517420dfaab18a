import MicroKernel.Spec.Format
import MicroKernel.Spec.Terminal

/-!
# A text laid out on the screen

Each character of a text has a place, found by going through the text from a
corner: to the right, and back to the column of the corner, one row further
down, after column 79 and at a newline. What is past the last row is not on the
screen.
-/

namespace MicroKernel.Spec

structure Glyph where
  row : Nat
  col : Nat
  char : U8
  deriving DecidableEq, Repr

def Glyph.index (g : Glyph) : Nat := 80 * g.row + g.col

def layout (startX : Nat) : List U8 → Nat → Nat → List Glyph
  | [], _, _ => []
  | c :: msg, x, y =>
      if c = chr '\n' then layout startX msg startX (y + 1)
      else
        ⟨y, x, c⟩ ::
          if x + 1 < 80 then layout startX msg (x + 1) y else layout startX msg startX (y + 1)

/-- Those on the screen. -/
def visible (gs : List Glyph) : List Glyph := gs.filter fun g => g.row < 25

/-- Every glyph has been put on the screen, once, in the attribute, and nothing
else has: the cells before and after, and the addresses of the stores. -/
structure Printed (attr : U8) (gs : List Glyph) (cells cells' : List U16) (log : List U32) :
    Prop where
  stored : log = gs.map fun g => cellAddr g.index
  once : log.Nodup
  shown : ∀ g ∈ gs, cells'[g.index]? = some (Terminal.cell attr g.char)
  others : ∀ i, (∀ g ∈ gs, g.index ≠ i) → cells'[i]? = cells[i]?

theorem layout_start {startX x y : Nat} {msg : List U8} (hstart : startX < 80) (hx : x < 80) :
    ∀ g ∈ layout startX msg x y, 80 * y + x ≤ g.index ∧ y ≤ g.row ∧ g.col < 80 := by
  induction msg generalizing x y with
  | nil => exact fun g hg => absurd hg List.not_mem_nil
  | cons c msg ih =>
      intro g hg
      rw [layout] at hg
      have hdown := ih (x := startX) (y := y + 1) hstart g
      split at hg
      · have := hdown hg
        omega
      · obtain rfl | hg := List.mem_cons.1 hg
        · exact ⟨Nat.le_refl _, Nat.le_refl _, hx⟩
        · split at hg
          · next hroom =>
              have := ih hroom g hg
              omega
          · have := hdown hg
            omega

/-- No place is used twice. -/
theorem layout_ordered {startX x y : Nat} (msg : List U8) (hstart : startX < 80) (hx : x < 80) :
    (layout startX msg x y).Pairwise fun g h => g.index < h.index := by
  induction msg generalizing x y with
  | nil => exact List.Pairwise.nil
  | cons c msg ih =>
      rw [layout]
      split
      · exact ih hstart
      · refine List.pairwise_cons.2 ⟨fun h hh => ?_, ?_⟩
        · show 80 * y + x < h.index
          split at hh
          · next hroom =>
              have := (layout_start hstart hroom h hh).1
              omega
          · have := (layout_start hstart hstart h hh).1
            omega
        · split
          · next hroom => exact ih hroom
          · exact ih hstart

theorem visible_lt (msg : List U8) (y : Nat) {startX x : Nat} (hstart : startX < 80) (hx : x < 80) :
    ∀ g ∈ visible (layout startX msg x y), g.index < 2000 := by
  intro g hg
  obtain ⟨hmem, hrow⟩ := List.mem_filter.1 hg
  have := (layout_start hstart hx g hmem).2.2
  have := of_decide_eq_true hrow
  rw [Glyph.index]
  omega

/-- A text that stays in its row. -/
theorem mem_layout_row {startX x y : Nat} {msg : List U8} {g : Glyph}
    (hline : chr '\n' ∉ msg) (hfit : x + msg.length ≤ 80) :
    g ∈ layout startX msg x y ↔ ∃ i, ∃ hi : i < msg.length, g = ⟨y, x + i, msg[i]⟩ := by
  induction msg generalizing x with
  | nil =>
      refine iff_of_false List.not_mem_nil ?_
      rintro ⟨i, hi, -⟩
      exact Nat.not_lt_zero i hi
  | cons c msg ih =>
      rw [List.mem_cons, not_or] at hline
      rw [List.length_cons] at hfit
      have hrest : g ∈ (if x + 1 < 80 then layout startX msg (x + 1) y
          else layout startX msg startX (y + 1)) ↔
          ∃ i, ∃ hi : i < msg.length, g = ⟨y, x + 1 + i, msg[i]⟩ := by
        split
        · exact ih hline.2 (by omega)
        · next hlast =>
            obtain rfl : msg = [] := List.eq_nil_of_length_eq_zero (by omega)
            refine iff_of_false List.not_mem_nil ?_
            rintro ⟨i, hi, -⟩
            exact Nat.not_lt_zero i hi
      rw [layout, if_neg fun h => hline.1 h.symm, List.mem_cons, hrest]
      constructor
      · rintro (rfl | ⟨i, hi, rfl⟩)
        · exact ⟨0, Nat.succ_pos _, rfl⟩
        · refine ⟨i + 1, Nat.succ_lt_succ hi, ?_⟩
          rw [List.getElem_cons_succ, Nat.add_assoc, Nat.add_comm 1]
      · rintro ⟨i, hi, rfl⟩
        cases i with
        | zero => exact Or.inl rfl
        | succ i =>
            refine Or.inr ⟨i, Nat.lt_of_succ_lt_succ hi, ?_⟩
            rw [List.getElem_cons_succ, Nat.add_assoc, Nat.add_comm 1]

/-! ## The stack trace -/

/-- The text stands in row `y` from column `x` on. -/
def ShowsAt (cells : List U16) (x y : Nat) (attr : U8) (text : List U8) : Prop :=
  ∀ i (hi : i < text.length), cells[80 * y + x + i]? = some (Terminal.cell attr text[i])

/-- The cells of a text of that length. -/
def InText (x y n : Nat) (j : Nat) : Prop := 80 * y + x ≤ j ∧ j < 80 * y + x + n

theorem ShowsAt.keep {cells cells' : List U16} {x y : Nat} {attr : U8} {text : List U8}
    (h : ShowsAt cells x y attr text)
    (hkeep : ∀ j, InText x y text.length j → cells'[j]? = cells[j]?) :
    ShowsAt cells' x y attr text := fun i hi =>
  (hkeep _ ⟨Nat.le_add_right _ _, Nat.add_lt_add_left hi _⟩).trans (h i hi)

/-- `0x` and eight digits. -/
def hexText (n : U32) : List U8 := ascii "0x" ++ (Numeral.fixed 16 8 n.toNat).map digitText

def frameText (i : Nat) : List U8 := [chr '[', digitText i, chr ']']

/-- The return addresses along a chain of saved frame pointers, for at most so many
frames: each lies above the pointer to the next frame, and a null pointer or a null
address ends the chain. -/
def returnAddresses (m : PhysMem) : Nat → U32 → List U32
  | 0, _ => []
  | k + 1, frame =>
      if frame = 0 ∨ m.read32 (frame + 4) = 0 then []
      else m.read32 (frame + 4) :: returnAddresses m k (m.read32 frame)

/-- The words of the chain. -/
def chainWords (m : PhysMem) : Nat → U32 → List U32
  | 0, _ => []
  | k + 1, frame =>
      if frame = 0 then []
      else if m.read32 (frame + 4) = 0 then [frame + 4]
      else (frame + 4) :: frame :: chainWords m k (m.read32 frame)

/-- The cells of the heading, and of the `n` rows below it. -/
def TraceCell (n j : Nat) : Prop :=
  InText 2 8 12 j ∨ ∃ i < n, InText 4 (9 + i) 3 j ∨ InText 8 (9 + i) 10 j

/-- The screen with the trace on it. -/
structure TraceShown (ras : List U32) (cells cells' : List U16) : Prop where
  heading : ShowsAt cells' 2 8 0x0C (ascii "stack trace:")
  numbers : ∀ i < ras.length, ShowsAt cells' 4 (9 + i) 0x0E (frameText i)
  addresses : ∀ i (hi : i < ras.length), ShowsAt cells' 8 (9 + i) 0x0F (hexText ras[i])
  others : ∀ j, ¬ TraceCell ras.length j → cells'[j]? = cells[j]?

end MicroKernel.Spec
