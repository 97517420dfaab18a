import MicroKernel.Spec.Typing

/-!
# Where the keyboard writes

The column wraps at 80, so it always names a column of the screen. The row
starts at 3, and nothing ever takes it back: what is written after 22 lines
have ended is below the screen.
-/

namespace MicroKernel.Proofs

open Kernel Spec

/-- The cursor is where the caret is, as machine words. -/
structure Follows (k : Keyboard) (p : Caret) : Prop where
  col_lt : p.col < 80
  col : k.cursorX = BitVec.ofNat 32 p.col
  row : k.cursorY = BitVec.ofNat 32 (3 + p.lines)

theorem toInt_small {n : Nat} (h : n < 2 ^ 31) : (BitVec.ofNat 32 n).toInt = n := by
  rw [BitVec.toInt_eq_toNat_of_lt] <;> rw [BitVec.toNat_ofNat, Nat.mod_eq_of_lt (by omega)]
  omega

/-- A row of machine words is on the screen up to its wrap. -/
theorem row_onScreen_iff (n : Nat) :
    0 ≤ (BitVec.ofNat 32 n).toInt ∧ (BitVec.ofNat 32 n).toInt < 25 ↔ n % 2 ^ 32 < 25 := by
  rw [BitVec.toInt_eq_toNat_cond, BitVec.toNat_ofNat]
  split <;> omega

section
variable {k : Keyboard} {p : Caret}

theorem Follows.col_toInt (h : Follows k p) : k.cursorX.toInt = p.col := by
  rw [h.col, toInt_small (Nat.lt_trans h.col_lt (by decide))]

theorem Follows.nextRow (h : Follows k p) :
    k.cursorY + 1 = BitVec.ofNat 32 (3 + (p.lines + 1)) := by
  rw [h.row, ← Nat.add_assoc, BitVec.ofNat_add (3 + p.lines) 1]
  rfl

theorem Follows.nextCol (h : Follows k p) : k.cursorX + 1 = BitVec.ofNat 32 (p.col + 1) := by
  rw [h.col, BitVec.ofNat_add]
  rfl

theorem Follows.prevCol (h : Follows k p) (hpos : 0 < p.col) :
    k.cursorX - 1 = BitVec.ofNat 32 (p.col - 1) := by
  rw [h.col, ← Nat.sub_add_cancel hpos, BitVec.ofNat_add, Nat.add_sub_cancel]
  exact BitVec.add_sub_cancel _ _

theorem Follows.wraps_iff (h : Follows k p) :
    80 ≤ (k.cursorX + 1).toInt ↔ ¬ p.col + 1 < 80 := by
  have := h.col_lt
  rw [h.nextCol, toInt_small (by omega)]
  omega

/-- One call at the caret's line, in a column of the screen. -/
theorem call_onScreen_iff (h : Follows k p) (c attr : U8) {col : Nat} (hcol : col < 80) :
    (∀ d ∈ [Draw.writeCharAt c k.cursorY.toInt (BitVec.ofNat 32 col).toInt attr],
      OnScreen d) ↔ (3 + p.lines) % 2 ^ 32 < 25 := by
  rw [List.forall_mem_singleton, OnScreen, h.row, row_onScreen_iff,
    toInt_small (Nat.lt_trans hcol (by decide))]
  exact and_iff_left ⟨Int.natCast_nonneg _, Int.ofNat_lt.2 hcol⟩

/-- What one key does: the cursor follows the caret, and at most one call is
made, at the caret's line. -/
theorem keyboardHandler_spec (h : Follows k p) (scancode : U8) :
    Follows (keyboardHandler k scancode) (p.press (keyOf scancode)) ∧
      ∃ calls, (keyboardHandler k scancode).log = k.log ++ calls ∧
        ((∀ d ∈ calls, OnScreen d) ↔
          (p.Writes (keyOf scancode) → (3 + p.lines) % 2 ^ 32 < 25)) := by
  have hsilent : ∀ {key : Key}, ¬ p.Writes key → ((∀ d ∈ ([] : List Draw), OnScreen d) ↔
      (p.Writes key → (3 + p.lines) % 2 ^ 32 < 25)) := fun hkey =>
    iff_of_true (fun d hd => absurd hd List.not_mem_nil) fun hw => absurd hw hkey
  have hcolumn := h.col_toInt
  rw [keyboardHandler, keyOf]
  split
  · next hmap =>
      rw [List.getElem?_eq_getElem hmap]
      generalize scancodeToAscii[scancode.toNat] = c
      simp only []
      split
      · -- Enter
        exact ⟨⟨Nat.succ_pos 79, rfl, h.nextRow⟩, [], (List.append_nil _).symm, hsilent id⟩
      · split
        · split
          · next hpos =>
              -- Backspace in a line
              rw [hcolumn] at hpos
              have hpos' : 0 < p.col := by omega
              have hlt : p.col - 1 < 80 := Nat.lt_of_le_of_lt (Nat.sub_le _ _) h.col_lt
              have hcol := h.prevCol hpos'
              refine ⟨⟨hlt, hcol, h.row⟩, _, rfl, ?_⟩
              rw [hcol, call_onScreen_iff h _ _ hlt]
              exact ⟨fun hrow _ => hrow, fun hrow => hrow hpos'⟩
          · next hpos =>
              -- Backspace at the start of a line
              have hzero : p.col = 0 := by omega
              refine ⟨⟨?_, ?_, h.row⟩, [], (List.append_nil _).symm, hsilent ?_⟩
              · exact Nat.lt_of_le_of_lt (Nat.sub_le _ _) h.col_lt
              · rw [h.col, Caret.press, hzero]
              · rw [Caret.Writes, hzero]
                exact Nat.lt_irrefl 0
        · have hcall : ∀ attr, (∀ d ∈ [Draw.writeCharAt c k.cursorY.toInt k.cursorX.toInt attr],
              OnScreen d) ↔ (p.Writes (.char c) → (3 + p.lines) % 2 ^ 32 < 25) := by
            intro attr
            rw [h.col, call_onScreen_iff h _ _ h.col_lt]
            exact ⟨fun hrow _ => hrow, fun hrow => hrow trivial⟩
          simp only [Keyboard.writeCharAt, h.wraps_iff, Caret.press]
          split
          · next hlast =>
              -- the column after the last one
              exact ⟨⟨Nat.succ_pos 79, rfl, h.nextRow⟩, _, rfl, hcall _⟩
          · next hinside =>
              have hlt : p.col + 1 < 80 := Decidable.of_not_not hinside
              rw [if_pos hlt]
              exact ⟨⟨hlt, h.nextCol, h.row⟩, _, rfl, hcall _⟩
  · next hmap =>
      rw [List.getElem?_eq_none (Nat.le_of_not_lt hmap)]
      exact ⟨h, [], (List.append_nil _).symm, hsilent id⟩

end

theorem keyboardRun_spec (scancodes : List U8) :
    Follows (keyboardRun scancodes) (caretAfter scancodes) ∧
      ((∀ d ∈ (keyboardRun scancodes).log, OnScreen d) ↔
        EachStep (fun pre scancode => (caretAfter pre).Writes (keyOf scancode) →
          (3 + (caretAfter pre).lines) % 2 ^ 32 < 25) scancodes) := by
  induction scancodes using List.reverseRecOn with
  | nil =>
      refine ⟨⟨by decide, rfl, rfl⟩, iff_of_true ?_ eachStep_nil⟩
      intro d hd
      cases hd
  | append_singleton scancodes scancode ih =>
      obtain ⟨hfollows, hiff⟩ := ih
      obtain ⟨hnext, calls, hlog, hcalls⟩ := keyboardHandler_spec hfollows scancode
      have hrun : keyboardRun (scancodes ++ [scancode]) =
          keyboardHandler (keyboardRun scancodes) scancode := by
        rw [keyboardRun, List.foldl_append]
        rfl
      have hcaret : caretAfter (scancodes ++ [scancode]) =
          (caretAfter scancodes).press (keyOf scancode) := by
        rw [caretAfter, List.map_append, List.foldl_append]
        rfl
      rw [hrun, hcaret, hlog, eachStep_concat, List.forall_mem_append, hiff, hcalls]
      exact ⟨hnext, Iff.rfl⟩

/-- Every call is on the screen exactly where every key that writes comes when at
most 21 lines have ended. -/
theorem keyboardRun_onScreen_iff (scancodes : List U8) :
    (∀ d ∈ (keyboardRun scancodes).log, OnScreen d) ↔
      EachStep (fun pre scancode => (caretAfter pre).Writes (keyOf scancode) →
        (3 + (caretAfter pre).lines) % 2 ^ 32 < 25) scancodes :=
  (keyboardRun_spec scancodes).2

/-- Enter 22 times, then an `a`. -/
theorem keyboardRun_below :
    ¬ ∀ d ∈ (keyboardRun (List.replicate 22 0x1c ++ [0x1e])).log, OnScreen d := by
  have hlog : (keyboardRun (List.replicate 22 0x1c ++ [0x1e])).log =
      [.writeCharAt (chr 'a') 25 0 0x0F] := by
    decide
  rw [hlog, List.forall_mem_singleton]
  exact fun h => absurd h.1.2 (by decide)

end MicroKernel.Proofs
