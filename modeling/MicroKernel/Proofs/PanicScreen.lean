import MicroKernel.Core.Panic
import MicroKernel.Proofs.VgaMemory
import MicroKernel.Spec.PanicScreen

/-!
# What the panic printer writes

`panic_vga_print_str` stores one cell for each character the layout has on the
screen, in the order of the layout, so no store goes over another. What it
stores is the conversion of a `char`: of one that is negative the sign fills
the upper byte, where the attribute belongs.
-/

namespace MicroKernel.Proofs

open ByteMem Kernel MicroKernel.Core Spec

/-! ## One cell -/

def putGlyph (attr : U8) (v : PanicVga) (g : Glyph) : PanicVga where
  mem := ByteMem.write v.mem (cellAddr g.index) (bytes16 (panicCell g.char attr))
  stored := v.stored ++ [cellAddr g.index]

/-- The upper half of the cell is the attribute's only where the sign is clear. -/
theorem panicCell_eq (c attr : U8) :
    panicCell c attr = Terminal.cell (if c.msb then 0xFF else attr) c := by
  have hones : ∀ i (hi : i < 8), (0xFF : U8)[i] = true := by decide
  ext i hi
  rw [Terminal.cell, BitVec.getElem_append, panicCell, BitVec.getElem_or,
    BitVec.getElem_signExtend, BitVec.getElem_shiftLeft]
  split
  · next hlow => simp [hlow]
  · next hhigh =>
      have hattr : (attr.setWidth 16)[i - 8] = attr[i - 8] := by
        rw [BitVec.getElem_setWidth, BitVec.getLsbD_eq_getElem]
      cases hmsb : c.msb
      · simp [hhigh, hattr]
      · simp only [hhigh, Bool.true_or, if_pos]
        exact (hones _ _).symm

theorem panicCell_eq_iff (c attr : U8) :
    panicCell c attr = Terminal.cell attr c ↔ c.msb = false ∨ attr = 0xFF := by
  rw [panicCell_eq, Terminal.cell, Terminal.cell, BitVec.append_left_inj]
  cases c.msb
  · exact iff_of_true rfl (Or.inl rfl)
  · exact ⟨fun h => Or.inr h.symm, fun h => (h.resolve_left Bool.noConfusion).symm⟩

theorem panicVgaPrintChar_eq (c attr : U8) {x y : Nat} (hx : x < 80) (v : PanicVga) :
    panicVgaPrintChar c x y attr v = if y < 25 then putGlyph attr v ⟨y, x, c⟩ else v := by
  have haddr : 2 * ((y : Int) * 80 + x) = ((2 * (80 * y + x) : Nat) : Int) := by
    push_cast
    ring
  rw [panicVgaPrintChar]
  split
  · next hout => rw [if_neg (by omega)]
  · next hin =>
      rw [if_pos (by omega), haddr, BitVec.ofInt_natCast]
      rfl

theorem foldl_visible_cons (attr : U8) (g : Glyph) (gs : List Glyph) (v : PanicVga) :
    (visible (g :: gs)).foldl (putGlyph attr) v =
      (visible gs).foldl (putGlyph attr) (if g.row < 25 then putGlyph attr v g else v) := by
  rw [visible, List.filter_cons]
  by_cases h : g.row < 25
  · rw [if_pos (decide_eq_true h), if_pos h]
    rfl
  · rw [if_neg fun hd => h (of_decide_eq_true hd), if_neg h]
    rfl

theorem panicPrintLoop_eq (attr : U8) {startX : Nat} (hstart : startX < 80) (msg : List U8)
    {x y : Nat} (hx : x < 80) (v : PanicVga) :
    (panicPrintLoop startX attr msg x y v).2 =
      (visible (layout startX msg x y)).foldl (putGlyph attr) v := by
  induction msg generalizing x y v with
  | nil => rfl
  | cons c msg ih =>
      have hdown := ih (x := startX) (y := y + 1) hstart
      rw [panicPrintLoop, layout]
      split
      · exact hdown v
      · rw [foldl_visible_cons, panicVgaPrintChar_eq c attr hx]
        simp only []
        split
        · next hlast => rw [if_neg (show ¬ x + 1 < 80 by omega), ← hdown]; rfl
        · next hroom =>
            have hroom' : x + 1 < 80 := by omega
            rw [if_pos hroom', ← ih hroom']
            rfl

/-! ## Cells set one after the other -/

section
variable {attr : U8} {gs : List Glyph} {v : PanicVga}

theorem putGlyphs_stored (attr : U8) (gs : List Glyph) (v : PanicVga) :
    (gs.foldl (putGlyph attr) v).stored = v.stored ++ gs.map fun g => cellAddr g.index := by
  induction gs generalizing v with
  | nil => exact (List.append_nil _).symm
  | cons g gs ih =>
      rw [List.foldl_cons, ih, putGlyph, List.append_assoc]
      rfl

theorem putGlyphs_touches (hgs : ∀ g ∈ gs, g.index < 2000) :
    Touches (fun a => ∃ g ∈ gs, Within (0xB8000 + 2 * g.index) (0xB8000 + 2 * g.index + 2) a)
      v.mem (gs.foldl (putGlyph attr) v).mem := by
  induction gs generalizing v with
  | nil => exact Touches.refl _
  | cons g gs ih =>
      rw [List.forall_mem_cons] at hgs
      have haddr := cellAddr_toNat hgs.1
      have hone : Touches (Within (0xB8000 + 2 * g.index) (0xB8000 + 2 * g.index + 2)) v.mem
          (putGlyph attr v g).mem := by
        have h := touches_write (m := v.mem) (a := cellAddr g.index)
          (b := bytes16 (panicCell g.char attr)) (by rw [bytes16_length]; omega)
        rwa [bytes16_length, haddr] at h
      refine (hone.mono fun a ha => ⟨g, List.mem_cons_self, ha⟩).trans
        ((ih hgs.2).mono fun a ha => ?_)
      obtain ⟨h, hh, ha⟩ := ha
      exact ⟨h, List.mem_cons_of_mem _ hh, ha⟩

theorem putGlyphs_screen (hgs : ∀ g ∈ gs, g.index < 2000) :
    screenOf (gs.foldl (putGlyph attr) v).mem =
      gs.foldl (fun cells g => cells.set g.index (panicCell g.char attr)) (screenOf v.mem) := by
  induction gs generalizing v with
  | nil => rfl
  | cons g gs ih =>
      rw [List.forall_mem_cons] at hgs
      rw [List.foldl_cons, List.foldl_cons, ih hgs.2, putGlyph, screenOf_write hgs.1]

variable {cells : List U16}

theorem setGlyphs_other {i : Nat} (h : ∀ g ∈ gs, g.index ≠ i) :
    (gs.foldl (fun cells g => cells.set g.index (panicCell g.char attr)) cells)[i]? =
      cells[i]? := by
  induction gs generalizing cells with
  | nil => rfl
  | cons g gs ih =>
      rw [List.forall_mem_cons] at h
      rw [List.foldl_cons, ih h.2, List.getElem?_set_ne h.1]

theorem setGlyphs_mem (hordered : gs.Pairwise fun g h => g.index < h.index)
    (hlt : ∀ g ∈ gs, g.index < cells.length) {g : Glyph} (hg : g ∈ gs) :
    (gs.foldl (fun cells g => cells.set g.index (panicCell g.char attr)) cells)[g.index]? =
      some (panicCell g.char attr) := by
  induction gs generalizing cells with
  | nil => exact absurd hg List.not_mem_nil
  | cons h gs ih =>
      rw [List.pairwise_cons] at hordered
      rw [List.forall_mem_cons] at hlt
      rw [List.foldl_cons]
      obtain rfl | hg := List.mem_cons.1 hg
      · rw [setGlyphs_other fun h hh => Nat.ne_of_gt (hordered.1 h hh)]
        exact List.getElem?_set_self hlt.1
      · refine ih hordered.2 (fun g hg => ?_) hg
        rw [List.length_set]
        exact hlt.2 g hg

end

/-! ## The result -/

/-- The text is on the screen as the layout has it, and nothing else of memory has
changed. -/
structure LaidOut (msg : List U8) (x y : Nat) (attr : U8) (v w : PanicVga) : Prop where
  printed : ∃ log, w.stored = v.stored ++ log ∧
    Printed attr (visible (layout x msg x y)) (screenOf v.mem) (screenOf w.mem) log
  outside : Touches InScreen v.mem w.mem

theorem cellAddr_inj {i j : Nat} (hi : i < 2000) (hj : j < 2000) (h : cellAddr i = cellAddr j) :
    i = j := by
  have := cellAddr_toNat hi
  have := cellAddr_toNat hj
  rw [h] at *
  omega

/-- Every character is shown in its place, but the attribute is the conversion's. -/
theorem panicVgaPrintStr_screen (msg : List U8) {x : Nat} (hx : x < 80) (y : Nat) (attr : U8)
    (v : PanicVga) :
    let w := (panicVgaPrintStr msg x y attr v).2
    let gs := visible (layout x msg x y)
    (∃ log, w.stored = v.stored ++ log ∧ log = gs.map (fun g => cellAddr g.index) ∧ log.Nodup) ∧
      (∀ g ∈ gs, (screenOf w.mem)[g.index]? = some (panicCell g.char attr)) ∧
      (∀ i, (∀ g ∈ gs, g.index ≠ i) → (screenOf w.mem)[i]? = (screenOf v.mem)[i]?) ∧
      Touches InScreen v.mem w.mem := by
  have hlt := visible_lt msg y hx hx
  have hordered : (visible (layout x msg x y)).Pairwise fun g h => g.index < h.index :=
    (layout_ordered msg hx hx).filter _
  rw [panicVgaPrintStr, panicPrintLoop_eq attr hx msg hx v]
  generalize visible (layout x msg x y) = gs at *
  refine ⟨⟨_, putGlyphs_stored attr gs v, rfl, ?_⟩, fun g hg => ?_, fun i hi => ?_, ?_⟩
  · refine List.pairwise_map.2 (List.Pairwise.imp_of_mem ?_ hordered)
    intro g h hg hh hgh heq
    exact Nat.ne_of_lt hgh (cellAddr_inj (hlt g hg) (hlt h hh) heq)
  · rw [putGlyphs_screen hlt]
    exact setGlyphs_mem hordered (fun g hg => by rw [screenOf_length]; exact hlt g hg) hg
  · rw [putGlyphs_screen hlt]
    exact setGlyphs_other hi
  · refine (putGlyphs_touches hlt).mono fun a ha => ?_
    obtain ⟨g, hg, ha⟩ := ha
    have := hlt g hg
    rw [Within] at ha
    rw [InScreen, Within]
    omega

/-- All cells are the layout's where no character on the screen is negative, or the
attribute is what the sign makes of it. -/
theorem panicVgaPrintStr_laidOut (msg : List U8) {x : Nat} (hx : x < 80) (y : Nat) (attr : U8)
    (v : PanicVga) :
    LaidOut msg x y attr v (panicVgaPrintStr msg x y attr v).2 ↔
      ∀ g ∈ visible (layout x msg x y), g.char.msb = false ∨ attr = 0xFF := by
  obtain ⟨⟨log, hlog, hstored, hnodup⟩, hshown, hothers, houtside⟩ :=
    panicVgaPrintStr_screen msg hx y attr v
  constructor
  · rintro ⟨⟨_, -, hprinted⟩, -⟩ g hg
    rw [← panicCell_eq_iff]
    exact Option.some.inj ((hshown g hg).symm.trans (hprinted.shown g hg))
  · intro hplain
    refine ⟨⟨log, hlog, hstored, hnodup, fun g hg => ?_, hothers⟩, houtside⟩
    rw [hshown g hg, (panicCell_eq_iff _ _).2 (hplain g hg)]

def blankVga : PanicVga where
  mem := fun _ => 0
  stored := []

/-- A newline, the end of a row, and a letter below the last row. -/
theorem panicVgaPrintStr_laidOut_corner :
    LaidOut (ascii "a\nbcd") 78 23 0x0F blankVga
        (panicVgaPrintStr (ascii "a\nbcd") 78 23 0x0F blankVga).2 ∧
      visible (layout 78 (ascii "a\nbcd") 78 23) =
        [⟨23, 78, chr 'a'⟩, ⟨24, 78, chr 'b'⟩, ⟨24, 79, chr 'c'⟩] :=
  ⟨(panicVgaPrintStr_laidOut (ascii "a\nbcd") (by decide) 23 0x0F blankVga).2 (by decide),
    by decide⟩

/-- A byte above 0x7F comes out in the attribute 0xFF. -/
theorem panicVgaPrintStr_negative :
    ¬ LaidOut [0x80] 0 0 0x0F blankVga (panicVgaPrintStr [0x80] 0 0 0x0F blankVga).2 := by
  rintro ⟨⟨_, -, hprinted⟩, -⟩
  obtain ⟨-, hshown, -⟩ := panicVgaPrintStr_screen [0x80] (Nat.succ_pos 79) 0 0x0F blankVga
  have hg : (⟨0, 0, 0x80⟩ : Glyph) ∈ visible (layout 0 [0x80] 0 0) := by decide
  have heq := Option.some.inj ((hshown _ hg).symm.trans (hprinted.shown _ hg))
  exact absurd heq (by decide)

end MicroKernel.Proofs
