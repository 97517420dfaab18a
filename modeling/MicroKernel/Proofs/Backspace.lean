import MicroKernel.Proofs.Keyboard

/-!
# What backspace takes back

A backspace takes back the character before it in its line, and nothing at the
start of a line. So as many backspaces as characters take back all of them
where no line has ended in between, and those since the last end of a line
where one has.
-/

namespace MicroKernel.Proofs

open Kernel Spec

/-- The scancode of the backspace key. -/
def backspace : U8 := 0x0E

def typeKeys (k : Keyboard) (keys : List U8) : Keyboard := keys.foldl keyboardHandler k

/-- Keys that stand for characters other than newline and backspace. -/
def Ordinary (keys : List U8) : Prop := ∀ key ∈ keys, ∃ c, keyOf key = .char c

section
variable {k : Keyboard} {p : Caret}

theorem keyOf_char {key c : U8} (h : keyOf key = .char c) :
    ∃ hmap : key.toNat < scancodeToAscii.length,
      scancodeToAscii[key.toNat] = c ∧ c ≠ chr '\n' ∧ c ≠ chr '\x08' := by
  rw [keyOf] at h
  split at h
  · cases h
  · next d hd =>
      obtain ⟨hmap, rfl⟩ := List.getElem?_eq_some_iff.1 hd
      split at h
      · cases h
      · next hline =>
          split at h
          · cases h
          · next hback =>
              cases h
              exact ⟨hmap, rfl, hline, hback⟩

/-- A character that does not end its line. -/
theorem keyboardHandler_char (h : Follows k p) {key c : U8} (hkey : keyOf key = .char c)
    (hroom : p.col + 1 < 80) :
    keyboardHandler k key =
      { cursorX := k.cursorX + 1, cursorY := k.cursorY
        log := k.log ++ [.writeCharAt c k.cursorY.toInt k.cursorX.toInt 0x0F] } := by
  obtain ⟨hmap, rfl, hline, hback⟩ := keyOf_char hkey
  rw [keyboardHandler, dif_pos hmap, if_neg hline, if_neg hback, if_neg]
  · rfl
  · exact fun hfull => h.wraps_iff.1 hfull hroom

theorem keyboardHandler_backspace (k : Keyboard) :
    keyboardHandler k backspace =
      if 0 < k.cursorX.toInt then
        { k with
          cursorX := k.cursorX - 1
          log := k.log ++ [.writeCharAt (chr ' ') k.cursorY.toInt (k.cursorX - 1).toInt 0x07] }
      else k := by
  rw [keyboardHandler, dif_pos (by decide), if_neg (by decide), if_pos (by decide)]
  rfl

theorem shownAt_concat (row col : Int) (log : List Draw) (c : U8) (r x : Int) (attr : U8) :
    shownAt row col (log ++ [.writeCharAt c r x attr]) =
      if r = row ∧ x = col then some c else shownAt row col log := by
  rw [shownAt, List.foldl_append]
  rfl

theorem typeKeys_append (k : Keyboard) (xs ys : List U8) :
    typeKeys k (xs ++ ys) = typeKeys (typeKeys k xs) ys := List.foldl_append

theorem typeKeys_follows (h : Follows k p) (keys : List U8) :
    Follows (typeKeys k keys) ((keys.map keyOf).foldl Caret.press p) := by
  induction keys generalizing k p with
  | nil => exact h
  | cons key keys ih => exact ih (keyboardHandler_spec h key).1

/-- One backspace after the others. -/
theorem backspaces_succ (k : Keyboard) (n : Nat) :
    typeKeys k (List.replicate (n + 1) backspace) =
      keyboardHandler (typeKeys k (List.replicate n backspace)) backspace := by
  rw [List.replicate_succ', typeKeys_append]
  rfl

/-- One more key in front, and one more backspace for it. -/
theorem Undone.step (h : Follows k p) {key c : U8} (hc : keyOf key = .char c)
    (hroom : p.col + 1 < 80) {typed u : Keyboard}
    (hrest : Undone (keyboardHandler k key) typed u) :
    Undone k typed (keyboardHandler u backspace) := by
  obtain ⟨hx, hy, calls, hlog, hblank⟩ := hrest
  rw [keyboardHandler_char h hc hroom] at hx hy hlog
  have hback : u.cursorX - 1 = k.cursorX := hx ▸ BitVec.add_sub_cancel _ _
  have hpos : 0 < u.cursorX.toInt := by
    rw [hx, h.nextCol, toInt_small (by omega)]
    omega
  rw [keyboardHandler_backspace, if_pos hpos]
  refine ⟨hback, hy, .writeCharAt c k.cursorY.toInt k.cursorX.toInt 0x0F :: calls, ?_, ?_⟩
  · rw [hlog, List.append_assoc]
    rfl
  · intro d row col attr hd
    rw [hback, hy, shownAt_concat]
    split
    · rfl
    · next hother =>
        obtain hd | hd := List.mem_cons.1 hd
        · cases hd
          exact absurd ⟨rfl, rfl⟩ hother
        · exact hblank d row col attr hd

/-- In one line. -/
theorem undone_line (h : Follows k p) {keys : List U8} (hkeys : Ordinary keys)
    (hroom : p.col + keys.length < 80) :
    Undone k (typeKeys k keys)
      (typeKeys (typeKeys k keys) (List.replicate keys.length backspace)) := by
  induction keys generalizing k p with
  | nil =>
      exact ⟨rfl, rfl, [], (List.append_nil _).symm,
        fun _ _ _ _ hc => absurd hc List.not_mem_nil⟩
  | cons key keys ih =>
      obtain ⟨c, hc⟩ := hkeys key List.mem_cons_self
      rw [List.length_cons] at hroom
      have hnext := (keyboardHandler_spec h key).1
      have hpress : (p.press (keyOf key)).col = p.col + 1 := by
        rw [hc, Caret.press, if_pos (by omega)]
      have hrest := ih hnext (fun q hq => hkeys q (List.mem_cons_of_mem _ hq))
        (by rw [hpress]; omega)
      rw [List.length_cons, backspaces_succ]
      exact Undone.step h hc (by omega) hrest

theorem press_ordinary {keys : List U8} (hkeys : Ordinary keys) (hcol : p.col < 80) :
    (keys.map keyOf).foldl Caret.press p =
      ⟨p.lines + (p.col + keys.length) / 80, (p.col + keys.length) % 80⟩ := by
  induction keys generalizing p with
  | nil =>
      show p = ⟨p.lines + p.col / 80, p.col % 80⟩
      rw [Nat.div_eq_of_lt hcol, Nat.mod_eq_of_lt hcol]
      rfl
  | cons key keys ih =>
      obtain ⟨c, hc⟩ := hkeys key List.mem_cons_self
      have hrest : Ordinary keys := fun q hq => hkeys q (List.mem_cons_of_mem _ hq)
      rw [List.map_cons, List.foldl_cons, hc, Caret.press, List.length_cons]
      split
      · next hroom =>
          rw [ih hrest hroom, Nat.add_right_comm, Nat.add_assoc p.col]
      · next hroom =>
          have hlast : p.col = 79 := by omega
          rw [ih hrest (Nat.succ_pos 79), Caret.mk.injEq]
          show p.lines + 1 + (0 + _) / 80 = _ ∧ (0 + _) % 80 = _
          rw [hlast]
          omega

/-- At the start of a line backspace does nothing. -/
theorem backspaces_start (hx : k.cursorX = 0) (n : Nat) :
    typeKeys k (List.replicate n backspace) = k := by
  induction n with
  | zero => rfl
  | succ n ih =>
      rw [backspaces_succ, ih, keyboardHandler_backspace, hx]
      exact if_neg (by decide)

/-- Past the end of a line, the keys since then are undone. -/
theorem undone_wrapped (h : Follows k p) {keys : List U8} (hkeys : Ordinary keys)
    (hwrap : 80 ≤ p.col + keys.length) :
    let front := typeKeys k (keys.take (keys.length - (p.col + keys.length) % 80))
    front.cursorX = 0 ∧
      front.cursorY = BitVec.ofNat 32 (3 + (p.lines + (p.col + keys.length) / 80)) ∧
      Undone front (typeKeys k keys)
        (typeKeys (typeKeys k keys) (List.replicate keys.length backspace)) := by
  have hlt := h.col_lt
  let m := (p.col + keys.length) % 80
  have hm : m < 80 := Nat.mod_lt _ (by decide)
  have hmk : m ≤ keys.length := by
    show (p.col + keys.length) % 80 ≤ keys.length
    omega
  have hfront : Ordinary (keys.take (keys.length - m)) := fun q hq =>
    hkeys q (List.mem_of_mem_take hq)
  have hrest : Ordinary (keys.drop (keys.length - m)) := fun q hq =>
    hkeys q (List.mem_of_mem_drop hq)
  have hlen : (keys.drop (keys.length - m)).length = m := by
    rw [List.length_drop]
    omega
  have hlen' : (keys.take (keys.length - m)).length = keys.length - m := by
    rw [List.length_take]
    omega
  have hat := typeKeys_follows h (keys.take (keys.length - m))
  rw [press_ordinary hfront hlt, hlen'] at hat
  have hcol : (p.col + (keys.length - m)) % 80 = 0 := by
    show (p.col + (keys.length - (p.col + keys.length) % 80)) % 80 = 0
    omega
  have hrow : (p.col + (keys.length - m)) / 80 = (p.col + keys.length) / 80 := by
    show (p.col + (keys.length - (p.col + keys.length) % 80)) / 80 = _
    omega
  rw [hcol, hrow] at hat
  have hline := undone_line hat hrest (by
    show 0 + _ < 80
    rw [hlen, Nat.zero_add]
    exact hm)
  have hsplit : typeKeys (typeKeys k (keys.take (keys.length - m))) (keys.drop (keys.length - m)) =
      typeKeys k keys := by
    rw [← typeKeys_append, List.take_append_drop]
  rw [hsplit, hlen] at hline
  have hback : List.replicate keys.length backspace =
      List.replicate m backspace ++ List.replicate (keys.length - m) backspace := by
    rw [List.replicate_append_replicate]
    congr 1
    omega
  refine ⟨hat.col, hat.row, ?_⟩
  rw [hback, typeKeys_append, backspaces_start (hline.x.trans hat.col)]
  exact hline

end

/-- As many backspaces as ordinary keys undo those keys where none of them ends
its line, and else the ones since the last end of a line. -/
theorem keyboardRun_undone (scancodes : List U8) {keys : List U8} (hkeys : Ordinary keys) :
    let k := keyboardRun scancodes
    let typed := typeKeys k keys
    let after := typeKeys typed (List.replicate keys.length backspace)
    let reached := k.cursorX.toNat + keys.length
    (reached < 80 → Undone k typed after) ∧
      (80 ≤ reached → after.cursorX = 0 ∧
        after.cursorY = k.cursorY + BitVec.ofNat 32 (reached / 80) ∧
        Undone (typeKeys k (keys.take (keys.length - reached % 80))) typed after) := by
  have h := (keyboardRun_spec scancodes).1
  have hcol : (keyboardRun scancodes).cursorX.toNat = (caretAfter scancodes).col := by
    rw [h.col, toNat_ofNat_of_lt (Nat.lt_trans h.col_lt (by decide))]
  simp only [hcol]
  refine ⟨undone_line h hkeys, fun hwrap => ?_⟩
  obtain ⟨hx, hy, hundone⟩ := undone_wrapped h hkeys hwrap
  refine ⟨hundone.x.trans hx, ?_, hundone⟩
  rw [hundone.y, hy, h.row, ← Nat.add_assoc, BitVec.ofNat_add (3 + _)]

theorem ordinary_letters (n : Nat) : Ordinary (List.replicate n 0x1e) := by
  intro key hkey
  rw [List.eq_of_mem_replicate hkey]
  exact ⟨chr 'a', by decide⟩

theorem caretAfter_letters {n : Nat} (hn : n < 80) :
    caretAfter (List.replicate n 0x1e) = ⟨0, n⟩ := by
  rw [caretAfter, press_ordinary (ordinary_letters n) (Nat.succ_pos 79), List.length_replicate]
  simp only [Nat.zero_add, Nat.div_eq_of_lt hn, Nat.mod_eq_of_lt hn]

/-- Three keys behind five letters, and behind 79, where the first ends the line. -/
theorem keyboardRun_undone_letters :
    Undone (keyboardRun (List.replicate 5 0x1e))
        (typeKeys (keyboardRun (List.replicate 5 0x1e)) [0x1e, 0x30, 0x2e])
        (typeKeys (typeKeys (keyboardRun (List.replicate 5 0x1e)) [0x1e, 0x30, 0x2e])
          [backspace, backspace, backspace]) ∧
      Undone (typeKeys (keyboardRun (List.replicate 79 0x1e)) [0x1e])
        (typeKeys (keyboardRun (List.replicate 79 0x1e)) [0x1e, 0x30, 0x2e])
        (typeKeys (typeKeys (keyboardRun (List.replicate 79 0x1e)) [0x1e, 0x30, 0x2e])
          [backspace, backspace, backspace]) := by
  have hkeys : Ordinary [0x1e, 0x30, 0x2e] := by
    simp only [Ordinary, List.forall_mem_cons]
    exact ⟨⟨chr 'a', by decide⟩, ⟨chr 'b', by decide⟩, ⟨chr 'c', by decide⟩, List.forall_mem_nil _⟩
  have hcol {n : Nat} (hn : n < 80) : (keyboardRun (List.replicate n 0x1e)).cursorX.toNat = n := by
    have h := (keyboardRun_spec (List.replicate n 0x1e)).1
    rw [h.col, caretAfter_letters hn, toNat_ofNat_of_lt (Nat.lt_trans hn (by decide))]
  refine ⟨(keyboardRun_undone (List.replicate 5 0x1e) hkeys).1 ?_, ?_⟩
  · rw [hcol (by decide)]
    decide
  · obtain ⟨-, -, hline⟩ := (keyboardRun_undone (List.replicate 79 0x1e) hkeys).2 (by
      rw [hcol (by decide)]
      decide)
    rw [hcol (by decide)] at hline
    exact hline

/-- An `a` in column 79: the backspace after it does nothing. -/
theorem keyboardRun_wrapped :
    ¬ Undone (keyboardRun (List.replicate 79 0x1e))
      (typeKeys (keyboardRun (List.replicate 79 0x1e)) [0x1e])
      (typeKeys (typeKeys (keyboardRun (List.replicate 79 0x1e)) [0x1e]) [backspace]) := by
  have h := (keyboardRun_spec (List.replicate 79 0x1e)).1
  rw [caretAfter_letters (by decide)] at h
  obtain ⟨hx, -, hline⟩ := undone_wrapped h (ordinary_letters 1) (by decide)
  intro hundone
  have hback := (hundone.x.symm.trans (hline.x.trans hx)).symm.trans h.col
  exact absurd hback (by decide)

end MicroKernel.Proofs
