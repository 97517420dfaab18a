import MicroKernel.Proofs.ShellEdit

/-!
# Which lines the shell answers

`strtok` ends a token at every space, so a space that begins the line or
follows another one gives the shell an empty word. It becomes the name of the
command, or an argument, or takes up one of the 31 places. A line is answered
exactly when no such space comes early enough to count.
-/

namespace MicroKernel.Proofs

open Kernel Spec Split

/-! ## Typing the line -/

def typed (line : List U8) : List Event :=
  line.map fun c => .draw (.writeCharAt c (-1) (-1) 0x0F)

theorem shellRun_type (line : List U8) : ∀ (s : Shell) (q junk : List U8),
    (∀ c ∈ line, Printable c) → s.cmdPos = q.length →
    s.cmdBuffer.cells = q ++ junk → q.length + line.length ≤ 255 →
    ∃ b junk', shellRun s line = .ok { s with
        cmdBuffer := b, cmdPos := (q ++ line).length, log := s.log ++ typed line } ∧
      b.cells = q ++ line ++ junk' := by
  induction line with
  | nil =>
      intro s q junk _ hpos hbuf _
      refine ⟨s.cmdBuffer, junk, ?_, by rw [hbuf, List.append_nil]⟩
      rw [List.append_nil, ← hpos]
      simp [shellRun, typed, pure, Except.pure]
  | cons c line ih =>
      intro s q junk hline hpos hbuf hlen
      rw [List.forall_mem_cons] at hline
      rw [List.length_cons] at hlen
      obtain ⟨⟨-, hnl, hbs⟩, hrest⟩ := hline
      cases junk with
      | nil =>
          have hsize := s.cmdBuffer.size
          rw [hbuf, List.append_nil, maxCmdLen] at hsize
          omega
      | cons x junk =>
          obtain ⟨b, hkey, hb⟩ := keypress_append hnl hbs hpos hbuf (by omega)
          have hb' : b.cells = (q ++ [c]) ++ junk := by
            rw [hb]
            simp
          let t := { s with cmdBuffer := b, cmdPos := s.cmdPos + 1 }.putChar c 0x0F
          have hpos' : t.cmdPos = (q ++ [c]).length := by
            show s.cmdPos + 1 = _
            rw [hpos, List.length_append]
            rfl
          obtain ⟨b', junk', hrun, hb''⟩ := ih t (q ++ [c]) junk hrest hpos' hb'
            (by rw [List.length_append, List.length_singleton]; omega)
          refine ⟨b', junk', ?_, by rw [hb'']; simp⟩
          rw [shellRun, List.foldlM_cons, hkey, ok_bind]
          refine hrun.trans ?_
          simp [t, Shell.putChar, Shell.note, typed]

/-- What typing and entering a line that is not empty does: the keys, the
newline, the two notes of `shell_execute_command`, and what came of it. -/
def lineEvents (line input : List U8) (args : List (List U8))
    (ev tail : List Event) : List Event :=
  typed line ++ .draw (.writeCharAt (chr '\n') (-1) (-1) 0x07) :: .execute input ::
    .argv args.length (argvFor args) :: (ev ++ tail)

/-- The prompt comes back, unless a command was called and panicked. -/
def PromptAfter (ev tail : List Event) : Prop :=
  tail = [.draw promptDraw] ∨ (tail = [] ∧ called ev ≠ [])

theorem shellRun_line {s : Shell} {line : List U8} (hpos : s.cmdPos = 0)
    (hlen : line.length ≤ 255) (hline : ∀ c ∈ line, Printable c) (hne : line ≠ []) :
    ∃ t input ev tail, final (shellRun s (line ++ [chr '\n'])) = some t ∧
      t.log = s.log ++
        lineEvents line input ((tokens isSpace line).take 31) ev tail ∧
      Dispatches ((tokens isSpace line).take 31) ev ∧ PromptAfter ev tail := by
  obtain ⟨b, junk, htype, hbuf⟩ :=
    shellRun_type line s [] s.cmdBuffer.cells hline hpos rfl (by simpa using hlen)
  rw [List.nil_append] at htype hbuf
  have hnul : 0 ∉ line := fun h => (hline 0 h).1 rfl
  cases junk with
  | nil =>
      have hsize := b.size
      rw [hbuf, List.append_nil, maxCmdLen] at hsize
      omega
  | cons x junk =>
      let u : Shell := { s with
        cmdBuffer := b, cmdPos := line.length, log := s.log ++ typed line }
      obtain ⟨s₁, henter, hbuf₁, -, hlog₁⟩ :=
        keypress_execute (s := u) hne rfl hbuf
      obtain ⟨t, ev, hfinal, -, hlog, hev, hok⟩ :=
        shellExecuteCommand_spec hbuf₁ hnul
      have hrun : shellRun s (line ++ [chr '\n']) = shellHandleKeypress u (chr '\n') := by
        rw [shellRun, List.foldlM_append, ← shellRun, htype, ok_bind,
          List.foldlM_cons]
        exact bind_pure _
      have hlog' : ∀ tail, t.log ++ tail = s.log ++ lineEvents line
          s₁.cmdBuffer.cells ((tokens isSpace line).take 31) ev tail := by
        intro tail
        rw [hlog, hlog₁, lineEvents]
        simp [u]
      rw [hrun, henter]
      obtain hend | ⟨p, hend⟩ := final_eq_some hfinal
      · rw [hend, ok_bind]
        exact ⟨_, _, ev, [.draw promptDraw], rfl, hlog' _, hev, Or.inl rfl⟩
      · -- no prompt after a panic, and only a command that was called panics
        rw [hend]
        refine ⟨t, s₁.cmdBuffer.cells, ev, [], rfl, ?_, hev,
          Or.inr ⟨rfl, fun hquiet => ?_⟩⟩
        · rw [← hlog', List.append_nil]
        · rw [hok hquiet] at hend
          cases hend

/-! ## The events of a line -/

section
variable {args : List (List U8)} {ev : List Event}

theorem called_append (log ev : List Event) :
    called (log ++ ev) = called log ++ called ev := List.filterMap_append

theorem drawn_append (log ev : List Event) :
    drawn (log ++ ev) = drawn log ++ drawn ev := List.filterMap_append

theorem built_append (log ev : List Event) :
    built (log ++ ev) = built log ++ built ev := List.filterMap_append

@[simp] theorem drawn_draws (ds : List Draw) : drawn (ds.map .draw) = ds := by
  induction ds with
  | nil => rfl
  | cons d ds ih => exact congrArg (d :: ·) ih

@[simp] theorem called_draws (ds : List Draw) : called (ds.map .draw) = [] :=
  filterMap_draws (fun _ => rfl) ds

@[simp] theorem built_draws (ds : List Draw) : built (ds.map .draw) = [] :=
  filterMap_draws (fun _ => rfl) ds

theorem Dispatches.built (h : Dispatches args ev) : built ev = [] :=
  h.filterMap (fun _ => rfl) fun _ _ _ => rfl

/-- Some argument means a call or a complaint. -/
theorem Dispatches.silent (h : Dispatches args ev) (hcalled : called ev = [])
    (hdrawn : drawn ev = []) : args = [] := by
  unfold Dispatches at h
  split at h
  · rfl
  · split at h
    · obtain ⟨ds, rfl⟩ := h
      cases hcalled
    · rw [h, drawn_draws] at hdrawn
      cases hdrawn

theorem argvFor_inj {a b : List (List U8)} (h : argvFor a = argvFor b) : a = b :=
  List.map_injective_iff.2 (Option.some_injective _) (List.append_cancel_right h)

/-! ### What the log shows -/

variable {line input : List U8} {tail : List Event}

theorem PromptAfter.built (h : PromptAfter ev tail) : built tail = [] := by
  obtain rfl | ⟨rfl, -⟩ := h <;> rfl

theorem PromptAfter.called (h : PromptAfter ev tail) : called tail = [] := by
  obtain rfl | ⟨rfl, -⟩ := h <;> rfl

theorem PromptAfter.quiet (h : PromptAfter ev tail) (hquiet : Spec.called ev = []) :
    tail = [.draw promptDraw] := by
  obtain htail | ⟨-, hcall⟩ := h
  · exact htail
  · exact absurd hquiet hcall

theorem typed_draws (line : List U8) : typed line =
    (line.map fun c => Draw.writeCharAt c (-1) (-1) 0x0F).map .draw := by
  rw [typed, List.map_map]
  rfl

theorem built_line (hev : Dispatches args ev) (htail : PromptAfter ev tail) :
    built (lineEvents line input args ev tail) = [(args.length, argvFor args)] := by
  rw [lineEvents, built_append, typed_draws, built_draws]
  show (args.length, argvFor args) :: built (ev ++ tail) = _
  rw [built_append, hev.built, htail.built]
  rfl

theorem called_line (htail : PromptAfter ev tail) :
    called (lineEvents line input args ev tail) = called ev := by
  rw [lineEvents, called_append, typed_draws, called_draws]
  show called (ev ++ tail) = _
  rw [called_append, htail.called, List.append_nil]

theorem drawn_line : drawn (lineEvents line input args ev tail) =
    echoOf line ++ (drawn ev ++ drawn tail) := by
  rw [lineEvents, drawn_append, typed_draws, drawn_draws, echoOf, List.append_assoc]
  show _ ++ _ :: drawn (ev ++ tail) = _
  rw [drawn_append]
  rfl

/-- The log answers the line when the arguments are the words: the argument
vector shows the arguments, and a line without words must draw nothing more. -/
theorem answers_iff (hev : Dispatches args ev) (htail : PromptAfter ev tail) :
    Answers line (lineEvents line input args ev tail) ↔
      args = (wordsOf line).take 31 := by
  rw [Answers]
  simp only [built_line hev htail, called_line htail, drawn_line]
  cases hwords : wordsOf line with
  | nil =>
      refine ⟨fun ⟨hquiet, hdrawn⟩ => ?_, fun hargs => ?_⟩
      · rw [htail.quiet hquiet] at hdrawn
        have hdrawn' : drawn ev = [] := by
          simpa [drawn] using hdrawn
        exact hev.silent hquiet hdrawn'
      · subst hargs
        obtain rfl : ev = [] := hev
        rw [htail.quiet rfl]
        exact ⟨rfl, rfl⟩
  | cons w rest =>
      refine ⟨fun ⟨hbuilt, _⟩ => ?_, fun hargs => ?_⟩
      · rw [List.cons.injEq, Prod.mk.injEq] at hbuilt
        exact argvFor_inj hbuilt.1.2
      · subst hargs
        refine ⟨rfl, ?_⟩
        rw [List.take_succ_cons, Dispatches] at hev
        cases hfind : commands.find? (·.name == w) with
        | some cmd =>
            rw [hfind] at hev
            obtain ⟨ds, rfl⟩ := hev
            exact congrArg _ (called_draws ds)
        | none =>
            rw [hfind] at hev
            obtain rfl : ev = _ := hev
            have hquiet := called_draws (notFound w)
            rw [htail.quiet hquiet, drawn_draws, List.append_assoc]
            exact ⟨hquiet, rfl⟩

end

/-! ## Spaces -/

/-- A line is spaced well when no token the shell keeps is empty. -/
theorem wellSpaced_iff {line : List U8} : WellSpaced line ↔
    (tokens isSpace line).take 31 = (wordsOf line).take 31 := by
  have hcount : ∀ q : List U8, q.countP isSpace = q.count (chr ' ') := fun q => rfl
  rw [wordsOf, take_words_iff, take_tokens_ne_nil_iff, WellSpaced]
  refine ⟨fun h q d r hl hd hq => ?_, fun h q r hl hq => ?_⟩
  · obtain rfl := eq_of_beq hd
    rw [hcount]
    exact h q r hl fun c hc => eq_of_beq (hq c hc)
  · rw [← hcount]
    exact h q (chr ' ') r hl rfl fun c hc => beq_iff_eq.2 (hq c hc)

/-! ## The whole line -/

theorem lineAnswered_nil {s : Shell} (hpos : s.cmdPos = 0) : LineAnswered s [] := by
  refine ⟨({ s.putChar (chr '\n') 0x07 with cmdPos := 0 }.print promptText 0x0A),
    [.draw (.writeCharAt (chr '\n') (-1) (-1) 0x07), .draw promptDraw], ?_, ?_, ?_⟩
  · rw [List.nil_append, shellRun, List.foldlM_cons, keypress_empty hpos]
    rfl
  · simp [Shell.print, Shell.putChar, Shell.note, promptDraw]
  · exact ⟨rfl, rfl⟩

theorem lineAnswered_tokens {s : Shell} {line : List U8} (hpos : s.cmdPos = 0)
    (hlen : line.length ≤ 255) (hline : ∀ c ∈ line, Printable c) :
    LineAnswered s line ↔
      (tokens isSpace line).take 31 = (wordsOf line).take 31 := by
  by_cases hnil : line = []
  · subst hnil
    exact iff_of_true (lineAnswered_nil hpos) rfl
  · obtain ⟨t, input, ev, tail, hrun, hlog, hev, htail⟩ :=
      shellRun_line hpos hlen hline hnil
    refine Iff.trans ⟨?_, fun h => ⟨t, _, hrun, hlog, h⟩⟩ (answers_iff hev htail)
    intro ⟨t', ev', hrun', hlog', h⟩
    obtain rfl := Option.some.inj (hrun.symm.trans hrun')
    rw [← List.append_cancel_left (hlog.symm.trans hlog')] at h
    exact h

/-- At an empty line, a line typed and entered is answered exactly when its
spaces are well placed. -/
theorem lineAnswered_iff {s : Shell} {line : List U8} (hpos : s.cmdPos = 0)
    (hlen : line.length ≤ 255) (hline : ∀ c ∈ line, Printable c) :
    LineAnswered s line ↔ WellSpaced line :=
  (lineAnswered_tokens hpos hlen hline).trans wellSpaced_iff.symm

def pmm128 : Pmm := ⟨0x8000000, 0x200000, 0x200000⟩

theorem lineAnswered_echo :
    LineAnswered (shellInit pmm128) (ascii "echo one two") :=
  (lineAnswered_iff rfl (by decide) (by decide)).2 (wellSpaced_iff.2 (by decide))

/-- A space before the command makes the shell look for a command without a
name. -/
theorem lineAnswered_indented : Reachable (shellInit pmm128) ∧
    (shellInit pmm128).cmdPos = 0 ∧ (∀ c ∈ ascii " help", Printable c) ∧
    ¬ LineAnswered (shellInit pmm128) (ascii " help") := by
  have hline : ∀ c ∈ ascii " help", Printable c := by decide
  refine ⟨⟨pmm128, [], rfl⟩, rfl, hline, ?_⟩
  rw [lineAnswered_tokens rfl (by decide) hline]
  decide

end MicroKernel.Proofs
