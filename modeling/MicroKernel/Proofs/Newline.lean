import MicroKernel.Lib.History
import MicroKernel.Spec.Cursor

/-!
# Two newlines

Two terminals that take different characters for the newline. They do the same
with a string that has neither, and their cursors part at the first of the two
that is not printed in the last column. What they show can still be the same by
chance; but not on a screen that shows one character throughout, if one of them
is to print nothing: the first newline is a mark that the other one leaves.
-/

namespace MicroKernel.Proofs

open Spec Spec.Terminal

section
variable {nl nl' attr c : U8}

theorem put_other (h : c ≠ nl) (h' : c ≠ nl') (t : Terminal) :
    t.put nl attr c = t.put nl' attr c := by
  simp only [put, shown, target, if_neg h, if_neg h']

theorem print_other {str : List U8} (h : ∀ c ∈ str, c ≠ nl ∧ c ≠ nl') (t : Terminal) :
    t.print nl attr str = t.print nl' attr str := by
  induction str generalizing t with
  | nil => rfl
  | cons c str ih =>
      rw [List.forall_mem_cons] at h
      rw [print, List.foldl_cons, put_other h.1.1 h.1.2 t]
      exact ih h.2 _

/-! ## The cursors -/

/-- Neither newline is printed but in the last column. -/
def Undisputed (nl nl' : U8) (p : Cursor) (str : List U8) : Prop :=
  EachStep (fun pre c => c = nl ∨ c = nl' → (pre.foldl (Cursor.put nl) p).x = 79) str

theorem cursor_newline_iff (hback : nl ≠ 0x08) (hne : nl ≠ nl') {p : Cursor} (hp : p.OnScreen) :
    p.put nl nl = p.put nl' nl ↔ p.x = 79 := by
  have hx := hp.x_lt
  rw [Cursor.put, if_neg hback, if_pos rfl, Cursor.put, if_neg hback, if_neg hne]
  by_cases hcol : p.x + 1 < 80
  · rw [if_pos hcol]
    refine iff_of_false (fun h => ?_) (by omega)
    have hzero : 0 = p.x + 1 := congrArg Cursor.x h
    omega
  · rw [if_neg hcol]
    exact iff_of_true rfl (by omega)

theorem nextRow_newline (hne : nl ≠ nl') {p : Cursor} (hx : p.x = 79) :
    p.nextRow nl nl = p.nextRow nl' nl := by
  simp [Cursor.nextRow, hx, hne]

/-- One character, wherever the cursor is. -/
theorem cursor_put_iff (hback : nl ≠ 0x08) (hback' : nl' ≠ 0x08) (hne : nl ≠ nl') {p : Cursor}
    (hp : p.OnScreen) :
    p.put nl c = p.put nl' c ↔ (c = nl ∨ c = nl' → p.x = 79) := by
  by_cases h : c = nl
  · subst h
    rw [cursor_newline_iff hback hne hp]
    exact ⟨fun hx _ => hx, fun hx => hx (Or.inl rfl)⟩
  by_cases h' : c = nl'
  · subst h'
    rw [eq_comm, cursor_newline_iff hback' hne.symm hp]
    exact ⟨fun hx _ => hx, fun hx => hx (Or.inr rfl)⟩
  · refine iff_of_true ?_ fun hc => hc.elim (absurd · h) (absurd · h')
    rw [Cursor.put, Cursor.put, if_neg h, if_neg h']

theorem nextRow_undisputed (hne : nl ≠ nl') {p : Cursor} (hx : c = nl ∨ c = nl' → p.x = 79) :
    p.nextRow nl c = p.nextRow nl' c := by
  by_cases h : c = nl
  · subst h
    exact nextRow_newline hne (hx (Or.inl rfl))
  by_cases h' : c = nl'
  · subst h'
    exact (nextRow_newline hne.symm (hx (Or.inr rfl))).symm
  · simp only [Cursor.nextRow, h, h']

theorem Undisputed.print (hback : nl ≠ 0x08) (hback' : nl' ≠ 0x08) (hne : nl ≠ nl')
    {str : List U8} {p : Cursor} (hp : p.OnScreen) (h : Undisputed nl nl' p str) :
    str.foldl (Cursor.put nl) p = str.foldl (Cursor.put nl') p ∧
      Cursor.overflows nl p str = Cursor.overflows nl' p str := by
  induction str generalizing p with
  | nil => exact ⟨rfl, rfl⟩
  | cons c str ih =>
      obtain ⟨hc, hrest⟩ := eachStep_cons.1 h
      have hput := (cursor_put_iff hback hback' hne hp).2 hc
      obtain ⟨hfold, hover⟩ := ih (Cursor.put_onScreen hp c) hrest
      rw [hput] at hfold hover
      rw [List.foldl_cons, List.foldl_cons, hput, Cursor.overflows, Cursor.overflows, hput,
        nextRow_undisputed (p := p) hne hc]
      exact ⟨hfold, congrArg _ hover⟩

theorem Undisputed.serve (hback : nl ≠ 0x08) (hback' : nl' ≠ 0x08) (hne : nl ≠ nl')
    {p : Cursor} {r : Request} (hp : p.OnScreen) (h : Undisputed nl nl' p r.text) :
    p.serve nl r = p.serve nl' r ∧
      Cursor.overflows nl p r.text = Cursor.overflows nl' p r.text := by
  obtain ⟨hfold, hover⟩ := h.print hback hback' hne hp
  refine ⟨?_, hover⟩
  cases r with
  | clear => rfl
  | char c => exact hfold
  | string str => exact hfold

/-- Over any number of requests. -/
theorem after_undisputed (hback : nl ≠ 0x08) (hback' : nl' ≠ 0x08) (hne : nl ≠ nl')
    {rs : List Request}
    (h : EachStep (fun pre r => Undisputed nl nl' (Cursor.after nl pre) r.text) rs) :
    (Cursor.after nl rs).OnScreen ∧ Cursor.after nl rs = Cursor.after nl' rs := by
  induction rs using List.reverseRecOn with
  | nil => exact ⟨Cursor.origin_onScreen, rfl⟩
  | append_singleton rs r ih =>
      obtain ⟨hrs, hr⟩ := eachStep_concat.1 h
      obtain ⟨hon, heq⟩ := ih hrs
      rw [Cursor.after_concat, Cursor.after_concat, ← heq]
      exact ⟨Cursor.serve_onScreen hon r, (hr.serve hback hback' hne hon).1⟩

/-! ## The screens -/

/-- The row above the cursor's ends in `v`. -/
def Behind (v : U16) (t : Terminal) : Prop :=
  0 < t.y ∧ t.cells[80 * (t.y - 1) + 79]? = some v

/-- What a newline that was printed in the `i`-th cell, in row `y`, leaves on a
screen full of `v`: it stands at the end of the row above the cursor's, or the cursor
is in row `y` yet, with the newline or a blank in its cell. -/
def Marked (nl attr : U8) (v : U16) (i y : Nat) (t : Terminal) : Prop :=
  Behind (cell attr nl) t ∨
    t.y = y ∧ (t.cells[i]? = some (cell attr nl) ∨ t.cells[i]? = some (cell attr 0x20)) ∧
      t.cells[1999]? = some v

theorem scrolled_getElem {cells : List U16} (hlen : cells.length = 2000) {i : Nat} (hi : i < 1920) :
    (scrolled attr cells)[i]? = cells[80 + i]? := by
  rw [scrolled, List.getElem?_append_left (by rw [List.length_drop]; omega), List.getElem?_drop]

/-- A row that has been filled goes up with the cursor's going down. -/
theorem behind_newLine {v : U16} {t : Terminal} (hlen : t.cells.length = 2000) (hy : t.y < 25)
    (hv : t.cells[80 * t.y + 79]? = some v) : Behind v (newLine attr t) := by
  rw [newLine]
  split
  · exact ⟨Nat.succ_pos _, hv⟩
  · obtain hrow : t.y = 24 := by omega
    rw [hrow] at hv
    exact ⟨Nat.succ_pos 23, (scrolled_getElem (i := 1919) hlen (by decide)).trans hv⟩

theorem put_length {t : Terminal} (hlen : t.cells.length = 2000) (c : U8) :
    (t.put nl attr c).cells.length = 2000 := by
  have hshown : (t.shown nl attr c).length = 2000 := by
    rw [shown]
    split
    · exact hlen
    · rw [List.length_set]
      exact hlen
  have hline : ∀ u : Terminal, u.cells.length = 2000 → (newLine attr u).cells.length = 2000 := by
    intro u hu
    rw [newLine]
    split
    · exact hu
    · rw [scrolled, List.length_append, List.length_drop, List.length_replicate, hu]
  rw [put]
  split
  · exact hshown
  · split
    · exact hline t hlen
    · split
      · exact hshown
      · exact hline _ hshown

/-- A backspace in the first column does nothing, whatever the newline is. -/
theorem put_back_first {t : Terminal} (hx : t.x = 0) : t.put nl attr 0x08 = t := by
  rw [put, if_pos rfl, shown, target, if_pos rfl, if_pos hx]
  show (⟨t.cells, t.x - 1, t.y⟩ : Terminal) = ⟨t.cells, t.x, t.y⟩
  rw [hx]

/-- A backspace. -/
theorem marked_back {v : U16} {i y : Nat} {t : Terminal} (ht : t.OnScreen)
    (h : Marked nl attr v i y t) : Marked nl attr v i y (t.put nl' attr 0x08) := by
  have hx := ht.x_lt
  have hy := ht.y_lt
  by_cases hcol : t.x = 0
  · rw [put_back_first hcol]
    exact h
  · rw [put, if_pos rfl, shown, target, if_pos rfl, if_neg hcol]
    have hset : ∀ k, k ≠ 80 * t.y + t.x - 1 →
        (t.cells.set (80 * t.y + t.x - 1) (cell attr 0x20))[k]? = t.cells[k]? :=
      fun k hk => List.getElem?_set_ne (Ne.symm hk)
    refine h.imp (fun hb => ⟨hb.1, ?_⟩) fun hm => ⟨hm.1, ?_, ?_⟩
    · exact (hset _ (by have := hb.1; omega)).trans hb.2
    · by_cases hi : i = 80 * t.y + t.x - 1
      · refine Or.inr ?_
        have hlt : i < t.cells.length := by
          obtain hc | hc := hm.2.1 <;> exact (List.getElem?_eq_some_iff.1 hc).1
        rw [← hi]
        exact List.getElem?_set_self hlt
      · rw [hset i hi]
        exact hm.2.1
    · exact (hset _ (by omega)).trans hm.2.2

/-- The newline itself, which the other terminal prints. -/
theorem marked_print (hback : nl ≠ 0x08) (hne : nl ≠ nl') {v : U16} {i y : Nat} {t : Terminal}
    (ht : t.OnScreen) (hlen : t.cells.length = 2000)
    (h : Marked nl attr v i y t ∨
      t.y = y ∧ 80 * t.y + t.x = i ∧ t.cells[1999]? = some v) :
    Marked nl attr v i y (t.put nl' attr nl) := by
  have hx := ht.x_lt
  have hy := ht.y_lt
  have hshown : t.shown nl' attr nl = t.cells.set (80 * t.y + t.x) (cell attr nl) := by
    rw [shown, target, if_neg hback, if_neg hne]
  have hself : (t.shown nl' attr nl)[80 * t.y + t.x]? = some (cell attr nl) := by
    rw [hshown]
    exact List.getElem?_set_self (by omega)
  have hset : ∀ k, k ≠ 80 * t.y + t.x → (t.shown nl' attr nl)[k]? = t.cells[k]? := by
    intro k hk
    rw [hshown]
    exact List.getElem?_set_ne (Ne.symm hk)
  have hlen' : (t.shown nl' attr nl).length = 2000 := by
    rw [hshown, List.length_set]
    exact hlen
  rw [put, if_neg hback, if_neg hne]
  by_cases hcol : t.x + 1 < 80
  · rw [if_pos hcol]
    obtain (hb | ⟨hrow, hmark, hlast⟩) | ⟨hrow, hi, hlast⟩ := h
    · exact Or.inl ⟨hb.1, (hset _ (by have := hb.1; omega)).trans hb.2⟩
    · refine Or.inr ⟨hrow, ?_, (hset _ (by omega)).trans hlast⟩
      by_cases hi : i = 80 * t.y + t.x
      · exact Or.inl (hi ▸ hself)
      · exact (hset i hi).symm ▸ hmark
    · exact Or.inr ⟨hrow, Or.inl (hi ▸ hself), (hset _ (by omega)).trans hlast⟩
  · rw [if_neg hcol]
    obtain hx79 : t.x = 79 := by omega
    rw [hx79] at hself
    exact Or.inl (behind_newLine hlen' hy hself)

theorem marked_run (hback : nl ≠ 0x08) (hne : nl ≠ nl') {v : U16} {i y : Nat} {str : List U8}
    (hstr : ∀ c ∈ str, c = 0x08 ∨ c = nl) {t : Terminal} (ht : t.OnScreen)
    (hlen : t.cells.length = 2000) (h : Marked nl attr v i y t) :
    Marked nl attr v i y (t.print nl' attr str) := by
  induction str generalizing t with
  | nil => exact h
  | cons c str ih =>
      rw [List.forall_mem_cons] at hstr
      refine ih hstr.2 (put_onScreen ht) (put_length hlen c) ?_
      obtain rfl | rfl := hstr.1
      · exact marked_back ht h
      · exact marked_print hback hne ht hlen (Or.inl h)

/-- A screen full of `v` that has only been scrolled. -/
def Bare (attr : U8) (v : U16) (cells : List U16) : Prop :=
  (∀ w ∈ cells, w = v) ∨
    cells[1999]? = some (cell attr 0x20) ∧ ∀ w ∈ cells, w = v ∨ w = cell attr 0x20

theorem bare_scrolled {v : U16} {cells : List U16} (hlen : cells.length = 2000)
    (h : Bare attr v cells) : Bare attr v (scrolled attr cells) := by
  refine Or.inr ⟨?_, fun w hw => ?_⟩
  · rw [scrolled, List.getElem?_append_right (by rw [List.length_drop]; omega),
      List.getElem?_replicate_of_lt (by rw [List.length_drop]; omega)]
  · rw [scrolled, List.mem_append] at hw
    obtain hw | hw := hw
    · have hmem := List.mem_of_mem_drop hw
      obtain hall | ⟨-, hall⟩ := h
      · exact Or.inl (hall w hmem)
      · exact hall w hmem
    · exact Or.inr (List.eq_of_mem_replicate hw)

theorem bare_put {v : U16} {t : Terminal} (hlen : t.cells.length = 2000)
    (hnone : t.target nl c = none) (h : Bare attr v t.cells) :
    Bare attr v (t.put nl attr c).cells := by
  have hshown : t.shown nl attr c = t.cells := by rw [shown, hnone]
  rw [put]
  split
  · exact hshown ▸ h
  · split
    · rw [newLine]
      split
      · exact h
      · exact bare_scrolled hlen h
    · next hback hline =>
        rw [target, if_neg hback, if_neg hline] at hnone
        cases hnone

/-- Nothing is printed of the string. -/
def Quiet (nl attr : U8) (t : Terminal) (str : List U8) : Prop :=
  EachStep (fun pre c => (t.print nl attr pre).target nl c = none) str

theorem quiet_cons {str : List U8} {t : Terminal} : Quiet nl attr t (c :: str) ↔
    t.target nl c = none ∧ Quiet nl attr (t.put nl attr c) str :=
  eachStep_cons

theorem Quiet.bare {v : U16} {str : List U8} {t : Terminal} (hlen : t.cells.length = 2000)
    (hquiet : Quiet nl attr t str) (h : Bare attr v t.cells) :
    Bare attr v (t.print nl attr str).cells := by
  induction str generalizing t with
  | nil => exact h
  | cons c str ih =>
      obtain ⟨hc, hrest⟩ := quiet_cons.1 hquiet
      exact ih (put_length hlen c) hrest (bare_put hlen hc h)

theorem target_none {t : Terminal} (h : t.target nl c = none) : c = 0x08 ∧ t.x = 0 ∨ c = nl := by
  rw [target] at h
  split at h
  · next hback =>
      split at h
      · next hx => exact Or.inl ⟨hback, hx⟩
      · cases h
  · split at h
    · next hline => exact Or.inr hline
    · cases h

theorem Quiet.mem {str : List U8} {t : Terminal} (h : Quiet nl attr t str) :
    ∀ c ∈ str, c = 0x08 ∨ c = nl := by
  intro c hc
  obtain ⟨pre, post, rfl⟩ := List.append_of_mem hc
  exact (target_none (h pre c post rfl)).imp_left And.left

theorem not_marked_bare (hblank : nl ≠ 0x20) {v : U16} (hv : v ≠ cell attr nl)
    (hv' : v ≠ cell attr 0x20) {i y : Nat} {t : Terminal} (hm : Marked nl attr v i y t)
    (hb : Bare attr v t.cells) : False := by
  have hcells : cell attr nl ≠ cell attr 0x20 := fun h =>
    hblank ((BitVec.append_right_inj _).1 h)
  obtain ⟨-, hend⟩ | ⟨-, hmark, hlast⟩ := hm
  · have hmem := List.mem_of_getElem? hend
    obtain hall | ⟨-, hall⟩ := hb
    · exact hv (hall _ hmem).symm
    · exact (hall _ hmem).elim (fun h => hv h.symm) hcells
  · obtain hall | ⟨hlast', -⟩ := hb
    · obtain hmark | hmark := hmark
      · exact hv (hall _ (List.mem_of_getElem? hmark)).symm
      · exact hv' (hall _ (List.mem_of_getElem? hmark)).symm
    · exact hv' (Option.some.inj (hlast.symm.trans hlast'))

/-- On a screen full of one word the two show different things, if the one prints
nothing and there is a newline for the other to print. -/
theorem print_differs (hback : nl ≠ 0x08) (hne : nl ≠ nl') (hblank : nl ≠ 0x20) {v : U16}
    (hv : v ≠ cell attr nl) (hv' : v ≠ cell attr 0x20) {t : Terminal} (ht : t.OnScreen)
    (hcells : t.cells = List.replicate 2000 v) {str : List U8} (hquiet : Quiet nl attr t str)
    (hmem : nl ∈ str) : (t.print nl attr str).cells ≠ (t.print nl' attr str).cells := by
  have hlen : t.cells.length = 2000 := by rw [hcells, List.length_replicate]
  have hbare : Bare attr v t.cells := Or.inl fun w hw =>
    List.eq_of_mem_replicate (hcells ▸ hw)
  intro heq
  have hall := hquiet.bare hlen hbare
  rw [heq] at hall
  clear heq
  refine not_marked_bare hblank hv hv' (i := 80 * t.y + t.x) (y := t.y) ?_ hall
  clear hall
  induction str with
  | nil => cases hmem
  | cons c str ih =>
      obtain ⟨hc, hrest⟩ := quiet_cons.1 hquiet
      obtain ⟨rfl, hx⟩ | rfl := target_none hc
      · -- a backspace in the first column, before any newline
        rw [put_back_first hx] at hrest
        rw [print, List.foldl_cons, put_back_first hx]
        exact ih hrest ((List.mem_cons.1 hmem).resolve_left hback)
      · have hlast : t.cells[1999]? = some v := by
          rw [hcells]
          exact List.getElem?_replicate_of_lt (by decide)
        have hfirst : Marked c attr v (80 * t.y + t.x) t.y (t.put nl' attr c) :=
          marked_print hback hne ht hlen (Or.inr ⟨rfl, rfl, hlast⟩)
        exact marked_run hback hne (fun d hd => hquiet.mem d (List.mem_cons_of_mem c hd))
          (put_onScreen ht) (put_length hlen c) hfirst

end

end MicroKernel.Proofs
