import MicroKernel.Proofs.ShellExec

/-!
# The shell edits like the editor

`Sim` relates the editor to the shell: the buffer starts with the line, the
position is its length, the screen shows it. One key keeps it. Only the newline
is of interest. It puts a terminator behind the line, so what is executed is
the line; whatever the tokenizer then does to the buffer is forgotten when the
position goes back to zero, because no cell behind the position is ever read.

A run ends early in one way, a command that panics, and that happens inside the
handling of a newline, after the line has been handed over.
-/

namespace MicroKernel.Proofs

open Kernel Spec

structure Sim (e : Editor) (s : Shell) : Prop where
  pos : s.cmdPos = e.line.length
  short : e.line.length ≤ 255
  buffer : ∃ junk, s.cmdBuffer.cells = e.line ++ junk
  shown : echoed s.log = e.line
  handed : HandedOver e.entered s.log

theorem Sim.holds {e : Editor} {s : Shell} (h : Sim e s) : Holds e s where
  pos_nonneg := by rw [h.pos]; omega
  pos_le := by
    have := h.short
    rw [h.pos]
    omega
  held := by
    obtain ⟨junk, hbuf⟩ := h.buffer
    rw [h.pos, Int.toNat_natCast, hbuf, List.take_left]
  shown := h.shown
  handed := h.handed

/-! ## Reading a longer log -/

theorem echoed_append (log ev : List Event) :
    echoed (log ++ ev) = ev.foldl echo (echoed log) := List.foldl_append ..

@[simp] theorem executed_append (log ev : List Event) :
    executed (log ++ ev) = executed log ++ executed ev := List.filterMap_append

section
variable {α : Type} {g : Event → Option α} (hdraw : ∀ d, g (.draw d) = none)
include hdraw

theorem filterMap_draws (ds : List Draw) : (ds.map Event.draw).filterMap g = [] := by
  induction ds with
  | nil => rfl
  | cons d ds ih => rw [List.map_cons, List.filterMap_cons_none (hdraw d), ih]

/-- A command is called, or something is drawn. -/
theorem Dispatches.filterMap {args : List (List U8)} {ev : List Event}
    (h : Dispatches args ev) (hcall : ∀ f argc argv, g (.call f argc argv) = none) :
    ev.filterMap g = [] := by
  unfold Dispatches at h
  split at h
  · rw [h]
    rfl
  · split at h
    · obtain ⟨ds, rfl⟩ := h
      rw [List.filterMap_cons_none (hcall ..), filterMap_draws hdraw]
    · rw [h, filterMap_draws hdraw]

end

theorem Dispatches.quiet {args : List (List U8)} {ev : List Event}
    (h : Dispatches args ev) : executed ev = [] :=
  h.filterMap (fun _ => rfl) fun _ _ _ => rfl

theorem handedOver_quiet {lines : List (List U8)} {log ev : List Event}
    (h : HandedOver lines log) (hev : executed ev = []) :
    HandedOver lines (log ++ ev) := by
  rw [HandedOver, executed_append, hev, List.append_nil]
  exact h

theorem handedOver_enter {lines : List (List U8)} {log ev : List Event}
    {line input : List U8} (h : HandedOver lines log)
    (hev : executed ev = [input]) (hin : line ++ [0] <+: input) :
    HandedOver (lines ++ [line]) (log ++ ev) := by
  rw [HandedOver, executed_append, hev]
  exact List.rel_append h (.cons hin .nil)

/-! ## One key -/

theorem Sim.room {e : Editor} {s : Shell} (h : Sim e s) :
    ∃ x junk, s.cmdBuffer.cells = e.line ++ x :: junk := by
  obtain ⟨junk, hbuf⟩ := h.buffer
  cases junk with
  | nil =>
      have hsize := s.cmdBuffer.size
      have hshort := h.short
      rw [hbuf, List.append_nil] at hsize
      exact absurd (hsize ▸ hshort) (by decide)
  | cons x junk => exact ⟨x, junk, hbuf⟩

theorem setCell_ok {s : Shell} {line junk : List U8} {x : U8}
    (hpos : s.cmdPos = line.length) (hbuf : s.cmdBuffer.cells = line ++ x :: junk)
    (c : U8) : ∃ b, s.setCell s.cmdPos c = .ok { s with cmdBuffer := b } ∧
      b.cells = line ++ c :: junk := by
  obtain ⟨b, hstore, hb⟩ := CArray.store_eq hbuf c
  refine ⟨b, ?_, hb⟩
  rw [Shell.setCell, hpos, hstore]
  rfl

/-- A key that neither ends the line nor erases, while there is room. -/
theorem keypress_append {s : Shell} {line junk : List U8} {x c : U8}
    (hnl : c ≠ chr '\n') (hbs : c ≠ chr '\x08') (hpos : s.cmdPos = line.length)
    (hbuf : s.cmdBuffer.cells = line ++ x :: junk) (hroom : line.length < 255) :
    ∃ b, shellHandleKeypress s c =
        .ok ({ s with cmdBuffer := b, cmdPos := s.cmdPos + 1 }.putChar c 0x0F) ∧
      b.cells = line ++ c :: junk := by
  have hlt : s.cmdPos < maxCmdLen - 1 := by
    rw [hpos]
    show (line.length : Int) < 255
    omega
  obtain ⟨b, hset, hb⟩ := setCell_ok hpos hbuf c
  refine ⟨b, ?_, hb⟩
  rw [shellHandleKeypress, if_neg hnl, if_neg hbs, if_pos hlt, hset, ok_bind]
  rfl

theorem keypress_char {e : Editor} {s : Shell} (h : Sim e s) {c : U8}
    (hnl : c ≠ chr '\n') (hbs : c ≠ chr '\x08') :
    ∃ t, shellHandleKeypress s c = .ok t ∧ Sim (e.key c) t := by
  rw [Editor.key, if_neg hnl, if_neg hbs]
  by_cases hroom : e.line.length < 255
  · obtain ⟨x, junk, hbuf⟩ := h.room
    obtain ⟨b, hrun, hb⟩ := keypress_append hnl hbs h.pos hbuf hroom
    rw [if_pos hroom]
    refine ⟨_, hrun, ?_, ?_, ⟨junk, ?_⟩, ?_, ?_⟩
    · show s.cmdPos + 1 = _
      rw [h.pos, List.length_append]
      rfl
    · show (e.line ++ [c]).length ≤ 255
      rw [List.length_append]
      exact hroom
    · show b.cells = _
      rw [hb]
      simp
    · show echoed (s.log ++ [_]) = _
      rw [echoed_append, h.shown]
      show (if c = chr '\x08' then _ else _) = _
      rw [if_neg hbs]
    · exact handedOver_quiet h.handed rfl
  · have hfull : ¬ s.cmdPos < maxCmdLen - 1 := by
      rw [h.pos]
      show ¬ (e.line.length : Int) < 255
      omega
    rw [shellHandleKeypress, if_neg hnl, if_neg hbs, if_neg hfull, if_neg hroom]
    exact ⟨s, rfl, h⟩

theorem keypress_backspace {e : Editor} {s : Shell} (h : Sim e s) :
    ∃ t, shellHandleKeypress s (chr '\x08') = .ok t ∧ Sim (e.key (chr '\x08')) t := by
  have hnl : chr '\x08' ≠ chr '\n' := by decide
  have hkey : e.key (chr '\x08') = { e with line := e.line.dropLast } := by
    rw [Editor.key, if_neg hnl, if_pos rfl]
  rw [shellHandleKeypress, if_neg hnl, if_pos rfl, hkey]
  split
  · next hpos =>
      refine ⟨_, rfl, ?_, ?_, ?_, ?_, ?_⟩
      · show s.cmdPos - 1 = _
        rw [h.pos] at hpos ⊢
        rw [List.length_dropLast]
        omega
      · have := h.short
        show e.line.dropLast.length ≤ 255
        rw [List.length_dropLast]
        omega
      · obtain ⟨junk, hbuf⟩ := h.buffer
        have hne : e.line ≠ [] := by
          intro hnil
          rw [h.pos, hnil] at hpos
          exact absurd hpos (by decide)
        refine ⟨e.line.getLast hne :: junk, ?_⟩
        show s.cmdBuffer.cells = _
        rw [hbuf]
        conv => lhs; rw [← List.dropLast_append_getLast hne]
        simp
      · show echoed (s.log ++ [_]) = _
        rw [echoed_append, h.shown]
        rfl
      · exact handedOver_quiet h.handed rfl
  · next hpos =>
      have hnil : e.line = [] := by
        rw [h.pos] at hpos
        exact List.eq_nil_of_length_eq_zero (by omega)
      refine ⟨s, rfl, ?_⟩
      rw [hnil]
      have hsame : ({ line := [], entered := e.entered } : Editor) = e := by
        rw [← hnil]
      exact hsame ▸ h

/-- Up to its first terminator, what was handed over is a string. -/
theorem first_nul (line junk : List U8) :
    ∃ str rest, line ++ 0 :: junk = str ++ 0 :: rest ∧ 0 ∉ str :=
  List.eq_append_cons_of_mem (by simp)

theorem sim_prompt {s : Shell} {lines : List (List U8)}
    (h : HandedOver lines s.log) :
    Sim ⟨[], lines⟩ ({ s with cmdPos := 0 }.print promptText 0x0A) where
  pos := rfl
  short := Nat.zero_le _
  buffer := ⟨s.cmdBuffer.cells, rfl⟩
  shown := by
    show echoed (s.log ++ [_]) = []
    rw [echoed_append]
    rfl
  handed := handedOver_quiet h rfl

theorem final_eq_some {r : Except Stop Shell} {t : Shell} (h : final r = some t) :
    r = .ok t ∨ ∃ p, r = .error (.panic p t) := by
  match r with
  | .ok s =>
      obtain rfl := Option.some.inj h
      exact Or.inl rfl
  | .error (.panic p s) =>
      obtain rfl := Option.some.inj h
      exact Or.inr ⟨p, rfl⟩
  | .error .fault => cases h

theorem keypress_empty {s : Shell} (h : s.cmdPos = 0) :
    shellHandleKeypress s (chr '\n') = .ok
      ({ s.putChar (chr '\n') 0x07 with cmdPos := 0 }.print promptText 0x0A) := by
  have hpos : ¬ (s.putChar (chr '\n') 0x07).cmdPos > 0 := by
    show ¬ s.cmdPos > 0
    omega
  rw [shellHandleKeypress, if_pos rfl]
  simp only [if_neg hpos]
  rfl

/-- The newline on a line: `s₁` is the state `shell_execute_command` is called
in. -/
theorem keypress_execute {s : Shell} {line junk : List U8} {x : U8}
    (hne : line ≠ []) (hpos : s.cmdPos = line.length)
    (hbuf : s.cmdBuffer.cells = line ++ x :: junk) :
    ∃ s₁, shellHandleKeypress s (chr '\n') = (shellExecuteCommand s₁ >>= fun t =>
        pure ({ t with cmdPos := 0 }.print promptText 0x0A)) ∧
      s₁.cmdBuffer.cells = line ++ 0 :: junk ∧ s₁.cmdPos = s.cmdPos ∧
      s₁.log = s.log ++ [.draw (.writeCharAt (chr '\n') (-1) (-1) 0x07)] := by
  have hlen := List.length_pos_of_ne_nil hne
  have hgo : (s.putChar (chr '\n') 0x07).cmdPos > 0 := by
    show s.cmdPos > 0
    omega
  obtain ⟨b, hset, hb⟩ := setCell_ok (s := s.putChar (chr '\n') 0x07) hpos hbuf 0
  refine ⟨{ s.putChar (chr '\n') 0x07 with cmdBuffer := b }, ?_, hb, rfl, rfl⟩
  rw [shellHandleKeypress, if_pos rfl]
  simp only [if_pos hgo, hset, ok_bind]

/-- How a run from a state in step with the editor can go: it stays in step,
or a command panics at a newline. -/
def RunsLike (e : Editor) (keys : List U8) (r : Except Stop Shell) : Prop :=
  match r with
  | .ok s => Sim (keys.foldl Editor.key e) s
  | .error (.panic _ s) => 0 ≤ s.cmdPos ∧ s.cmdPos ≤ 255 ∧
      ∃ done rest, keys = done ++ chr '\n' :: rest ∧
        HandedOver ((done ++ [chr '\n']).foldl Editor.key e).entered s.log
  | .error .fault => False

theorem keypress_newline {e : Editor} {s : Shell} (h : Sim e s) :
    RunsLike e [chr '\n'] (shellHandleKeypress s (chr '\n')) := by
  have hkey : e.key (chr '\n') = ⟨[], if e.line = [] then e.entered
      else e.entered ++ [e.line]⟩ := by rw [Editor.key, if_pos rfl]
  by_cases hnil : e.line = []
  · have hpos : s.cmdPos = 0 := by
      rw [h.pos, hnil]
      rfl
    have hquiet : HandedOver e.entered (s.putChar (chr '\n') 0x07).log :=
      handedOver_quiet h.handed rfl
    rw [keypress_empty hpos]
    show Sim (e.key (chr '\n')) _
    rw [hkey, if_pos hnil]
    exact sim_prompt hquiet
  · obtain ⟨x, junk, hbuf⟩ := h.room
    obtain ⟨s₁, hrun, hb, hpos₁, hlog₁⟩ := keypress_execute hnil h.pos hbuf
    obtain ⟨str, rest, hsplit, hnul⟩ := first_nul e.line junk
    obtain ⟨t, ev, hfinal, hpos, hlog, hev, -⟩ :=
      shellExecuteCommand_spec (hb.trans hsplit) hnul
    have hhanded : HandedOver (e.entered ++ [e.line]) t.log := by
      have hinput : e.line ++ [0] <+: s₁.cmdBuffer.cells := by
        rw [hb]
        exact ⟨junk, by simp⟩
      rw [hlog, hlog₁, List.append_assoc]
      refine handedOver_enter h.handed ?_ hinput
      show s₁.cmdBuffer.cells :: executed ev = _
      rw [hev.quiet]
    rw [if_neg hnil] at hkey
    rw [hrun]
    obtain hok | ⟨p, herr⟩ := final_eq_some hfinal
    · rw [hok, ok_bind]
      show Sim (e.key (chr '\n')) _
      rw [hkey]
      exact sim_prompt hhanded
    · -- the command panicked, so there is no state after the key
      have hshort := h.short
      rw [hpos₁, h.pos] at hpos
      rw [herr]
      refine ⟨by omega, by omega, [], [], rfl, ?_⟩
      show HandedOver (e.key (chr '\n')).entered t.log
      rw [hkey]
      exact hhanded

/-! ## Any number of keys -/

theorem RunsLike.cons {e : Editor} {c : U8} {keys : List U8} {r : Except Stop Shell}
    (h : RunsLike (e.key c) keys r) : RunsLike e (c :: keys) r := by
  match r with
  | .ok s => exact h
  | .error (.panic _ s) =>
      obtain ⟨hnonneg, hle, done, rest, hkeys, hhanded⟩ := h
      exact ⟨hnonneg, hle, c :: done, rest, by rw [hkeys]; rfl, hhanded⟩
  | .error .fault => exact h

theorem keypress_runsLike {e : Editor} {s : Shell} (h : Sim e s) (c : U8) :
    RunsLike e [c] (shellHandleKeypress s c) := by
  by_cases hnl : c = chr '\n'
  · subst hnl
    exact keypress_newline h
  · by_cases hbs : c = chr '\x08'
    · subst hbs
      obtain ⟨t, hr, hsim⟩ := keypress_backspace h
      rw [hr]
      exact hsim
    · obtain ⟨t, hr, hsim⟩ := keypress_char h hnl hbs
      rw [hr]
      exact hsim

theorem shellRun_runsLike (keys : List U8) {e : Editor} {s : Shell} (h : Sim e s) :
    RunsLike e keys (shellRun s keys) := by
  induction keys generalizing e s with
  | nil => exact h
  | cons c keys ih =>
      have hone := keypress_runsLike h c
      rw [shellRun, List.foldlM_cons]
      cases hr : shellHandleKeypress s c with
      | ok t =>
          rw [hr] at hone
          exact RunsLike.cons (ih hone)
      | error stop =>
          rw [hr] at hone
          cases stop with
          | fault => exact hone
          | panic p t =>
              obtain ⟨hnonneg, hle, done, rest, hkeys, hhanded⟩ := hone
              exact ⟨hnonneg, hle, done, rest ++ keys, by
                rw [← List.cons_append, ← List.append_assoc, ← hkeys]
                rfl, hhanded⟩

theorem sim_init (pmm : Pmm) : Sim ⟨[], []⟩ (shellInit pmm) where
  pos := rfl
  short := Nat.zero_le _
  buffer := ⟨_, rfl⟩
  shown := rfl
  handed := .nil

/-- After any keys the shell holds and shows the line the editor holds, and
every line it executed was the line held at its newline. A run that panics has
handed over the line that did it. -/
theorem shellRun_edits (pmm : Pmm) (keys : List U8) :
    match shellRun (shellInit pmm) keys with
    | .ok s => Holds (edit keys) s
    | .error (.panic _ s) => 0 ≤ s.cmdPos ∧ s.cmdPos ≤ 255 ∧
        ∃ done rest, keys = done ++ chr '\n' :: rest ∧
          HandedOver (edit (done ++ [chr '\n'])).entered s.log
    | .error .fault => False := by
  have h := shellRun_runsLike keys (sim_init pmm)
  cases hr : shellRun (shellInit pmm) keys with
  | ok s =>
      rw [hr] at h
      exact h.holds
  | error stop =>
      rw [hr] at h
      cases stop with
      | fault => exact h
      | panic p s => exact h

end MicroKernel.Proofs
