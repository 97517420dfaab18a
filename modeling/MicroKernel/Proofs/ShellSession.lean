import MicroKernel.Proofs.Numerals
import MicroKernel.Proofs.ShellWords
import MicroKernel.Spec.Session

/-!
# The shell conducts the session

The buffer, the position in it, the tokenizer that cuts the line up in place, the
argument vector that points into it, the table and the digits of a number: none
of them shows. For any keys the shell draws what the session draws, call by call,
and stops when it stops.
-/

namespace MicroKernel.Proofs

open Kernel Spec Split

def withDraws (s : Shell) (ds : List Draw) : Shell := { s with log := s.log ++ ds.map .draw }

theorem withDraws_nil (s : Shell) : withDraws s [] = s := by
  rw [withDraws, List.map_nil, List.append_nil]

theorem withDraws_append (s : Shell) (ds es : List Draw) :
    withDraws (withDraws s ds) es = withDraws s (ds ++ es) := by
  rw [withDraws, withDraws, withDraws, List.map_append, List.append_assoc]

theorem print_withDraws (s : Shell) (t : List U8) (attr : U8) :
    s.print t attr = withDraws s [text t attr] := rfl

theorem putChar_withDraws (s : Shell) (c attr : U8) :
    s.putChar c attr = withDraws s [char c attr] := rfl

/-! ## The commands -/

theorem cmdHelp_eq (s : Shell) : cmdHelp s = withDraws s helpDraws := by
  have hrows : ∀ (cmds : List ShellCommand) (t : Shell), cmds.foldl
      (fun s cmd => ((((s.print (ascii "  ") 0x07).print cmd.name 0x0E).print
        (ascii "\t- ") 0x07).print cmd.description 0x07).putChar (chr '\n') 0x07) t =
      withDraws t (cmds.flatMap helpRow) := by
    intro cmds
    induction cmds with
    | nil => exact fun t => (withDraws_nil t).symm
    | cons cmd cmds ih =>
        intro t
        rw [List.foldl_cons, ih, List.flatMap_cons, ← withDraws_append]
        simp only [print_withDraws, putChar_withDraws, withDraws_append]
        rfl
  rw [cmdHelp, hrows, print_withDraws, withDraws_append]
  rfl

theorem PointTo.loadStr {s : Shell} {argv : List Nat} {args : List (List U8)}
    (h : PointTo s argv args) :
    List.Forall₂ (fun p w => Kernel.loadStr s.cmdBuffer p = some w) argv args := by
  refine h.imp fun p w hp => ?_
  obtain ⟨q, r, hbuf, rfl, hw⟩ := hp
  exact loadStr_eq hw hbuf

theorem cmdEcho_eq {s : Shell} {argv : ArgVector} {ps : List Nat} {args : List (List U8)}
    (h : PointTo s ps args) (hl : Lists argv ps) :
    cmdEcho ps.length argv s = .ok (withDraws s (echoDraws args.tail)) := by
  have hargs : ∀ (ps : List Nat) (ws : List (List U8)) (t : Shell),
      t.cmdBuffer = s.cmdBuffer →
      List.Forall₂ (fun p w => Kernel.loadStr s.cmdBuffer p = some w) ps ws →
      ps.foldlM echoArg t =
      .ok (withDraws t (ws.flatMap fun w => [text w 0x0F, char (chr ' ') 0x0F])) := by
    intro ps ws t ht hps
    induction hps generalizing t with
    | nil =>
        rw [List.flatMap_nil, withDraws_nil]
        rfl
    | @cons p w ps ws hp _ ih =>
        rw [List.foldlM_cons, echoArg, ht, hp, List.flatMap_cons, ← withDraws_append]
        have hround : (t.print w 0x0F).putChar (chr ' ') 0x0F =
            withDraws t [text w 0x0F, char (chr ' ') 0x0F] := withDraws_append t [_] [_]
        have hrest := ih (withDraws t [text w 0x0F, char (chr ' ') 0x0F]) ht
        rw [← hround] at hrest ⊢
        exact hrest
  have htail : List.Forall₂ (fun p w => Kernel.loadStr s.cmdBuffer p = some w)
      (ps.drop 1) args.tail := by
    cases h.loadStr with
    | nil => exact .nil
    | cons _ hrest => exact hrest
  rw [cmdEcho_list hl, hargs _ _ s rfl htail, Kernel.ok_bind, echoDraws, ← withDraws_append]
  rfl

theorem kibText_eq (v : U32) (a : CArray U8 12) :
    ∃ b, utoa (v / 1024) a 0 10 = some (0, b) ∧ loadStr b 0 = some (kibText v) := by
  have hkib : (v / 1024).toNat = v.toNat / 1024 := BitVec.toNat_udiv
  have hlen := decimalText_length (v / 1024)
  have hroom : 0 + (upperText 10 (v / 1024).toNat).length < 12 := by omega
  obtain ⟨b, hb, hload⟩ : ∃ b, utoa (v / 1024) a 0 10 = some (0, b) ∧ loadStr b 0 = _ :=
    utoa_loadStr 0 (by decide) (by decide) hroom
  refine ⟨b, hb, hload.trans ?_⟩
  show some (upperText 10 (v / 1024).toNat) = _
  rw [hkib]
  rfl

theorem cmdMemstat_eq (s : Shell) : cmdMemstat s = .ok (withDraws s (memstatDraws s.pmm)) := by
  obtain ⟨b, hb, hused⟩ := kibText_eq (pmmGetUsedMem s.pmm) (CArray.fill 12 0)
  obtain ⟨c, hc, htotal⟩ := kibText_eq (pmmGetTotalMem s.pmm) b
  simp only [cmdMemstat, hb, hused, hc, htotal, checked_some, Kernel.ok_bind, print_withDraws,
    withDraws_append]
  rfl

/-- What has been drawn and what the session's reply adds to it, and whether it
panics, for a computation that leaves the line alone. -/
def Gives (a : Reply) (s : Shell) (r : Except Stop Shell) : Prop :=
  ∃ t, t.pmm = s.pmm ∧ drawn t.log = drawn s.log ++ a.draws ∧
    r = match a.panic with
      | none => .ok t
      | some p => .error (.panic p t)

theorem drawn_withDraws (s : Shell) (ds : List Draw) :
    drawn (withDraws s ds).log = drawn s.log ++ ds := by
  rw [withDraws, drawn_append, drawn_draws]

theorem gives_draws (s : Shell) (ds : List Draw) : Gives ⟨ds, none⟩ s (.ok (withDraws s ds)) :=
  ⟨withDraws s ds, rfl, drawn_withDraws s ds, rfl⟩

theorem callFunc_gives {s : Shell} {argv : ArgVector} {ps : List Nat} {args : List (List U8)}
    (f : ShellFunc) (h : PointTo s ps args) (hl : Lists argv ps) :
    Gives (respond s.pmm args.tail f) s (callFunc f ps.length argv s) := by
  cases f with
  | cmdHelp =>
      rw [callFunc, cmdHelp_eq]
      exact gives_draws s _
  | cmdEcho =>
      rw [callFunc, cmdEcho_eq h hl]
      exact gives_draws s _
  | cmdMemstat =>
      rw [callFunc, cmdMemstat_eq]
      exact gives_draws s _
  | cmdClear => exact gives_draws s [.clearScreen]
  | cmdPanicTest => exact ⟨s, rfl, (List.append_nil _).symm, rfl⟩

/-! ## A line -/

theorem dispatchArgs_gives {s : Shell} {argv : ArgVector} {ps : List Nat}
    {args : List (List U8)} (h : PointTo s ps args) (hl : Lists argv ps) :
    Gives (replyTo s.pmm args) s (dispatchArgs ps.length argv s) := by
  have hfull := h
  cases h with
  | nil => exact ⟨s, rfl, (List.append_nil _).symm, rfl⟩
  | @cons p w ps args hp _ =>
      obtain ⟨q, r, hbuf, rfl, hw⟩ := hp
      have hdrop : s.cmdBuffer.cells.drop q.length = w ++ 0 :: r := by
        rw [hbuf, List.append_assoc, List.drop_left]
      have hname : argAt argv 0 = some q.length := hl.argAt (Nat.succ_pos _)
      simp only [dispatchArgs, List.length_cons, Nat.add_one_ne_zero, if_false, hname,
        checked_some, hdrop, findCommand_spec hw r commands_nul, Kernel.ok_bind, replyTo]
      cases commands.find? (·.name == w) with
      | some cmd =>
          let s' := s.note (.call cmd.func (q.length :: ps).length
            (s.argvOf (q.length :: ps).length argv))
          have hdrawn : drawn s'.log = drawn s.log := by
            show drawn (s.log ++ [_]) = _
            rw [drawn_append]
            exact List.append_nil _
          obtain ⟨t, hpmm, hdraws, hrun⟩ := callFunc_gives (s := s') cmd.func hfull hl
          exact ⟨t, hpmm, hdraws.trans (by rw [hdrawn]; rfl), hrun⟩
      | none =>
          have hword : Kernel.loadStr s.cmdBuffer q.length = some w := loadStr_eq hw hbuf
          have hrun : (checked (Kernel.loadStr s.cmdBuffer q.length) >>= fun word =>
              pure (((s.print (ascii "Command not found: ") 0x0C).print word
                0x0C).putChar (chr '\n') 0x07) : Except Stop Shell) =
              .ok (withDraws s (notFound w)) := by
            rw [hword, checked_some, Kernel.ok_bind]
            simp only [print_withDraws, putChar_withDraws, withDraws_append]
            rfl
          exact hrun ▸ gives_draws s (notFound w)

theorem shellExecuteCommand_gives {s : Shell} {line junk : List U8}
    (hbuf : s.cmdBuffer.cells = line ++ 0 :: junk) :
    Gives (reply s.pmm line) s (shellExecuteCommand s) := by
  obtain ⟨str, rest, hsplit, hnul⟩ := first_nul line junk
  have hstr : cstr line = str := by
    have h := congrArg cstr hsplit
    rw [cstr_append_nul hnul] at h
    rw [← h, cstr, cstr, List.takeWhile_append]
    split
    · next hall =>
        rw [List.takeWhile_cons_of_neg (by decide), List.append_nil]
        exact List.IsPrefix.eq_of_length (List.takeWhile_prefix _) hall
    · rfl
  obtain ⟨ps, argv, s₂, hs₂, hargs, hl, hexec⟩ :=
    shellExecuteCommand_dispatches (hbuf.trans hsplit) hnul
  let s₃ := s₂.note (.argv ps.length (s₂.argvOf ps.length argv))
  have hpmm : s₃.pmm = s.pmm := congrArg (·.pmm) hs₂
  have hdrawn : drawn s₃.log = drawn s.log := by
    have hlog₂ : s₂.log = s.log ++ [.execute s.cmdBuffer.cells] := congrArg (·.log) hs₂
    show drawn (s₂.log ++ [_]) = _
    rw [hlog₂, drawn_append, drawn_append]
    show (_ ++ []) ++ [] = _
    rw [List.append_nil, List.append_nil]
  obtain ⟨t, hp, hd, hrun⟩ := dispatchArgs_gives (s := s₃) hargs hl
  rw [hpmm, ← hstr] at hd hrun
  exact ⟨t, hp.trans hpmm, by rw [hd, hdrawn]; rfl, hexec.trans hrun⟩

/-! ## One key -/

/-- The session's line is the buffer up to the position, and all that has been drawn
is the session's. -/
structure Conducts (pmm : Pmm) (ss : ShellSession) (s : Shell) : Prop where
  pmm : s.pmm = pmm
  pos : s.cmdPos = ss.line.length
  short : ss.line.length ≤ 255
  buffer : ∃ junk, s.cmdBuffer.cells = ss.line ++ junk
  drawn : drawn s.log = ss.drawn
  going : ss.halted = none

/-- How a run may end. -/
def EndsAs (pmm : Pmm) (ss : ShellSession) : Except Stop Shell → Prop
  | .ok s => Conducts pmm ss s
  | .error (.panic p s) => ss.halted = some p ∧ Spec.drawn s.log = ss.drawn
  | .error .fault => False

section
variable {pmm : Pmm} {ss : ShellSession} {s : Shell}

theorem Conducts.room (h : Conducts pmm ss s) :
    ∃ x junk, s.cmdBuffer.cells = ss.line ++ x :: junk := by
  obtain ⟨junk, hbuf⟩ := h.buffer
  cases junk with
  | nil =>
      have hsize := s.cmdBuffer.size
      have hshort := h.short
      rw [hbuf, List.append_nil] at hsize
      exact absurd (hsize ▸ hshort) (by decide)
  | cons x junk => exact ⟨x, junk, hbuf⟩

/-- The prompt on a new line. -/
theorem conducts_prompt {t : Shell} {ds : List Draw} (hgoing : ss.halted = none)
    (hpmm : t.pmm = pmm) (hdrawn : Spec.drawn t.log = ds) :
    Conducts pmm ⟨[], ds ++ [promptDraw], ss.halted⟩
      ({ t with cmdPos := 0 }.print promptText 0x0A) where
  pmm := hpmm
  pos := rfl
  short := Nat.zero_le _
  buffer := ⟨t.cmdBuffer.cells, rfl⟩
  drawn := by
    show Spec.drawn (t.log ++ [_]) = _
    rw [drawn_append, hdrawn]
    rfl
  going := hgoing

/-- The line handed over with its terminator. -/
theorem keypress_enter {line junk : List U8} {x : U8} (hne : line ≠ [])
    (hpos : s.cmdPos = line.length) (hbuf : s.cmdBuffer.cells = line ++ x :: junk) :
    ∃ b : CArray U8 maxCmdLen, b.cells = line ++ 0 :: junk ∧
      shellHandleKeypress s (chr '\n') =
        (shellExecuteCommand { s.putChar (chr '\n') 0x07 with cmdBuffer := b } >>= fun t =>
          pure ({ t with cmdPos := 0 }.print promptText 0x0A)) := by
  have hlen := List.length_pos_of_ne_nil hne
  have hgo : (s.putChar (chr '\n') 0x07).cmdPos > 0 := by
    show s.cmdPos > 0
    omega
  obtain ⟨b, hset, hb⟩ := setCell_ok (s := s.putChar (chr '\n') 0x07) hpos hbuf 0
  refine ⟨b, hb, ?_⟩
  rw [shellHandleKeypress, if_pos rfl]
  simp only [if_pos hgo, hset, Kernel.ok_bind]

theorem Conducts.newline (h : Conducts pmm ss s) :
    EndsAs pmm (ss.enter pmm) (shellHandleKeypress s (chr '\n')) := by
  have hout (t : Shell) (ht : t.log = (s.putChar (chr '\n') 0x07).log) :
      Spec.drawn t.log = ss.drawn ++ [char (chr '\n') 0x07] := by
    rw [ht]
    show Spec.drawn (s.log ++ [_]) = _
    rw [drawn_append, h.drawn]
    rfl
  by_cases hnil : ss.line = []
  · have hpos : s.cmdPos = 0 := by
      rw [h.pos, hnil]
      rfl
    have hpmm : (s.putChar (chr '\n') 0x07).pmm = pmm := h.pmm
    have hprompt := conducts_prompt h.going hpmm (hout _ rfl)
    rw [keypress_empty hpos]
    simp only [ShellSession.enter, if_pos hnil]
    exact hprompt
  · obtain ⟨x, junk, hbuf⟩ := h.room
    obtain ⟨b, hb, hrun⟩ := keypress_enter hnil h.pos hbuf
    have hpmm : ({ s.putChar (chr '\n') 0x07 with cmdBuffer := b } : Shell).pmm = pmm := h.pmm
    have hlog := hout { s.putChar (chr '\n') 0x07 with cmdBuffer := b } rfl
    obtain ⟨t, htp, htd, hexec⟩ := shellExecuteCommand_gives
      (s := { s.putChar (chr '\n') 0x07 with cmdBuffer := b }) hb
    rw [hpmm] at htp htd hexec
    rw [hlog, List.append_assoc] at htd
    rw [hrun, hexec, ShellSession.enter]
    simp only [if_neg hnil]
    cases (reply pmm ss.line).panic with
    | none =>
        exact conducts_prompt h.going htp htd
    | some p => exact ⟨rfl, htd⟩

theorem Conducts.key (h : Conducts pmm ss s) (c : U8) :
    EndsAs pmm (ss.key pmm c) (shellHandleKeypress s c) := by
  have hgoing : ¬ ss.halted.isSome := by
    rw [h.going]
    exact Bool.false_ne_true
  rw [ShellSession.key, if_neg hgoing]
  by_cases hnl : c = chr '\n'
  · rw [if_pos hnl, hnl]
    exact h.newline
  rw [if_neg hnl]
  by_cases hbs : c = chr '\x08'
  · rw [if_pos hbs, shellHandleKeypress, if_neg hnl, if_pos hbs]
    by_cases hnil : ss.line = []
    · have hpos : ¬ s.cmdPos > 0 := by
        rw [h.pos, hnil]
        decide
      rw [if_pos hnil, if_neg hpos]
      exact h
    · have hlen := List.length_pos_of_ne_nil hnil
      have hpos : s.cmdPos > 0 := by
        rw [h.pos]
        omega
      rw [if_neg hnil, if_pos hpos, hbs]
      obtain ⟨junk, hbuf⟩ := h.buffer
      refine ⟨h.pmm, ?_, ?_, ⟨ss.line.getLast hnil :: junk, ?_⟩, ?_, h.going⟩
      · show s.cmdPos - 1 = _
        rw [h.pos, List.length_dropLast]
        omega
      · have := h.short
        rw [List.length_dropLast]
        omega
      · show s.cmdBuffer.cells = _
        rw [hbuf]
        conv => lhs; rw [← List.dropLast_append_getLast hnil]
        simp
      · show Spec.drawn (s.log ++ [_]) = _
        rw [drawn_append, h.drawn]
        rfl
  rw [if_neg hbs]
  by_cases hroom : ss.line.length < 255
  · obtain ⟨x, junk, hbuf⟩ := h.room
    obtain ⟨b, hrun, hb⟩ := keypress_append hnl hbs h.pos hbuf hroom
    rw [if_pos hroom, hrun]
    refine ⟨h.pmm, ?_, ?_, ⟨junk, ?_⟩, ?_, h.going⟩
    · show s.cmdPos + 1 = _
      rw [h.pos, List.length_append]
      rfl
    · rw [List.length_append]
      exact hroom
    · show b.cells = _
      rw [hb, List.append_assoc]
      rfl
    · show Spec.drawn (s.log ++ [_]) = _
      rw [drawn_append, h.drawn]
      rfl
  · have hfull : ¬ s.cmdPos < maxCmdLen - 1 := by
      rw [h.pos]
      show ¬ (ss.line.length : Int) < 255
      omega
    rw [shellHandleKeypress, if_neg hnl, if_neg hbs, if_neg hfull, if_neg hroom]
    exact h

end

/-! ## Any number of keys -/

/-- A session that is over takes no more keys. -/
theorem session_over (pmm : Pmm) {ss : ShellSession} (h : ss.halted.isSome) (keys : List U8) :
    keys.foldl (·.key pmm) ss = ss := by
  induction keys with
  | nil => rfl
  | cons c keys ih =>
      rw [List.foldl_cons, ShellSession.key, if_pos h]
      exact ih

theorem shellRun_endsAs {pmm : Pmm} (keys : List U8) {ss : ShellSession} {s : Shell}
    (h : Conducts pmm ss s) :
    EndsAs pmm (keys.foldl (·.key pmm) ss) (shellRun s keys) := by
  induction keys generalizing ss s with
  | nil => exact h
  | cons c keys ih =>
      have hone := h.key c
      rw [List.foldl_cons, shellRun, List.foldlM_cons]
      cases hr : shellHandleKeypress s c with
      | ok t =>
          rw [hr] at hone
          exact ih hone
      | error stop =>
          rw [hr] at hone
          cases stop with
          | fault => exact hone.elim
          | panic p t =>
              have hover : (ss.key pmm c).halted.isSome := by
                rw [hone.1]
                rfl
              rw [session_over pmm hover]
              exact hone

theorem shellRun_gives (pmm : Pmm) (keys : List U8) :
    EndsAs pmm (session pmm keys) (shellRun (shellInit pmm) keys) :=
  shellRun_endsAs keys ⟨rfl, rfl, Nat.zero_le _, ⟨_, rfl⟩, rfl, rfl⟩

/-- Whatever is typed, and whatever the memory manager has to report: the shell draws
call by call what the session draws, it is stopped by a panic exactly when the session
is, with the same message, and it never reaches outside its arrays. -/
theorem shellRun_session (pmm : Pmm) (keys : List U8) :
    match shellRun (shellInit pmm) keys with
    | .ok s => (session pmm keys).halted = none ∧ drawn s.log = (session pmm keys).drawn ∧
        s.cmdBuffer.cells.take s.cmdPos.toNat = (session pmm keys).line
    | .error (.panic p s) =>
        (session pmm keys).halted = some p ∧ drawn s.log = (session pmm keys).drawn
    | .error .fault => False := by
  have h := shellRun_gives pmm keys
  cases hr : shellRun (shellInit pmm) keys with
  | ok s =>
      rw [hr] at h
      obtain ⟨junk, hbuf⟩ := h.buffer
      refine ⟨h.going, h.drawn, ?_⟩
      rw [h.pos, Int.toNat_natCast, hbuf, List.take_left]
  | error stop =>
      rw [hr] at h
      cases stop with
      | fault => exact h
      | panic p s => exact h

/-! ## When it is over -/

theorem find_panic {w : List U8} (pmm : Pmm) (args : List (List U8)) :
    (replyTo pmm (w :: args)).panic.isSome ↔ w = ascii "panic" := by
  have hnames : ∀ cmd ∈ commands, (respond pmm args cmd.func).panic.isSome ↔
      cmd.name = ascii "panic" := by
    intro cmd hcmd
    simp only [commands, List.mem_cons, List.not_mem_nil, or_false] at hcmd
    obtain rfl | rfl | rfl | rfl | rfl := hcmd <;> simp [respond, ascii]
  rw [replyTo]
  cases hfind : commands.find? (·.name == w) with
  | some cmd =>
      have hname := List.find?_some (p := fun cmd : ShellCommand => cmd.name == w) hfind
      obtain rfl := eq_of_beq hname
      exact hnames cmd (List.mem_of_find?_eq_some hfind)
  | none =>
      refine iff_of_false Bool.false_ne_true fun hw => ?_
      rw [hw] at hfind
      revert hfind
      decide

theorem reply_panic (pmm : Pmm) (line : List U8) :
    (reply pmm line).panic.isSome ↔ AsksForPanic line := by
  rw [reply, AsksForPanic]
  cases tokens isSpace (cstr line) with
  | nil => exact iff_of_false Bool.false_ne_true (by simp)
  | cons w args =>
      rw [List.take_succ_cons, find_panic, List.head?_cons, Option.some.injEq]

theorem enter_halted (pmm : Pmm) {ss : ShellSession} (h : ss.halted = none) :
    (ss.enter pmm).halted.isSome ↔ AsksForPanic ss.line := by
  rw [ShellSession.enter]
  by_cases hnil : ss.line = []
  · simp only [if_pos hnil, h]
    rw [hnil]
    exact iff_of_false Bool.false_ne_true (by simp [AsksForPanic, cstr, tokens])
  · simp only [if_neg hnil]
    rw [← reply_panic pmm]
    cases (reply pmm ss.line).panic with
    | none =>
        show ss.halted.isSome ↔ _
        rw [h]
    | some p => exact iff_of_true rfl rfl

theorem session_concat (pmm : Pmm) (keys : List U8) (c : U8) :
    session pmm (keys ++ [c]) = (session pmm keys).key pmm c := List.foldl_append

theorem edit_concat (keys : List U8) (c : U8) : edit (keys ++ [c]) = (edit keys).key c :=
  List.foldl_append

/-- A key edits the line as the editor does, unless it ends the session. -/
theorem key_line (pmm : Pmm) {ss : ShellSession} {e : Editor} (h : ss.line = e.line) {c : U8}
    (hend : (ss.key pmm c).halted = none) : (ss.key pmm c).line = (e.key c).line := by
  rw [ShellSession.key] at hend ⊢
  split at hend
  · next hover => rw [hend] at hover; cases hover
  · next hgoing =>
      rw [if_neg hgoing, Editor.key]
      split
      · rw [if_pos ‹c = _›, ShellSession.enter] at hend
        rw [ShellSession.enter]
        dsimp only at hend ⊢
        split at hend
        · cases hend
        · rfl
      · split
        · split
          · next hnil => rw [← h, hnil]; rfl
          · rw [h]
        · rw [h]
          split
          · rfl
          · exact h

/-- Until it is over, the session's line is the editor's. -/
theorem session_line (pmm : Pmm) (keys : List U8) (h : (session pmm keys).halted = none) :
    (session pmm keys).line = (edit keys).line := by
  induction keys using List.reverseRecOn with
  | nil => rfl
  | append_singleton keys c ih =>
      rw [session_concat] at h ⊢
      rw [edit_concat]
      refine key_line pmm (ih ?_) h
      cases hover : (session pmm keys).halted with
      | none => rfl
      | some p =>
          rw [ShellSession.key, if_pos (by rw [hover]; rfl), hover] at h
          cases h

/-- What ends a session is a newline on a line that asks for it. -/
theorem key_halted (pmm : Pmm) {ss : ShellSession} (h : ss.halted = none) (c : U8) :
    (ss.key pmm c).halted.isSome ↔ c = chr '\n' ∧ AsksForPanic ss.line := by
  have hgoing : ¬ ss.halted.isSome := by
    rw [h]
    exact Bool.false_ne_true
  rw [ShellSession.key, if_neg hgoing]
  split
  · next hnl => rw [enter_halted pmm h, and_iff_right hnl]
  · next hnl =>
      refine iff_of_false ?_ fun hc => hnl hc.1
      split
      · split <;> exact hgoing
      · split <;> exact hgoing

theorem session_halted (pmm : Pmm) (keys : List U8) :
    (session pmm keys).halted.isSome ↔
      ∃ done rest, keys = done ++ chr '\n' :: rest ∧ AsksForPanic (edit done).line := by
  induction keys using List.reverseRecOn with
  | nil =>
      refine iff_of_false Bool.false_ne_true ?_
      rintro ⟨done, rest, h, -⟩
      cases done <;> cases h
  | append_singleton keys c ih =>
      rw [session_concat]
      cases hover : (session pmm keys).halted with
      | some p =>
          have hsome : (session pmm keys).halted.isSome := by
            rw [hover]
            rfl
          obtain ⟨done, rest, hkeys, hasks⟩ := ih.1 hsome
          rw [ShellSession.key, if_pos hsome]
          exact iff_of_true hsome ⟨done, rest ++ [c], by rw [hkeys, List.append_assoc]; rfl, hasks⟩
      | none =>
          rw [key_halted pmm hover, session_line pmm keys hover]
          constructor
          · rintro ⟨rfl, hasks⟩
            exact ⟨keys, [], rfl, hasks⟩
          · rintro ⟨done, rest, hkeys, hasks⟩
            cases rest using List.reverseRecOn with
            | nil =>
                obtain ⟨rfl, hc⟩ := List.append_inj' hkeys rfl
                exact ⟨List.head_eq_of_cons_eq hc, hasks⟩
            | append_singleton rest d _ =>
                rw [← List.cons_append, ← List.append_assoc] at hkeys
                obtain ⟨hkeys, -⟩ := List.append_inj' hkeys rfl
                have hsome := ih.2 ⟨done, rest, hkeys, hasks⟩
                rw [hover] at hsome
                cases hsome

/-- The shell panics if and only if a line is entered whose first word is `panic`; the
line is the one the keys have edited, up to its first NUL. -/
theorem shellRun_panics_iff (pmm : Pmm) (keys : List U8) :
    (∃ p s, shellRun (shellInit pmm) keys = .error (.panic p s)) ↔
      ∃ done rest, keys = done ++ chr '\n' :: rest ∧ AsksForPanic (edit done).line := by
  have h := shellRun_gives pmm keys
  rw [← session_halted pmm]
  cases hr : shellRun (shellInit pmm) keys with
  | ok s =>
      rw [hr] at h
      refine iff_of_false (by rintro ⟨_, _, he⟩; cases he) ?_
      rw [h.going]
      exact Bool.false_ne_true
  | error stop =>
      rw [hr] at h
      cases stop with
      | fault => exact h.elim
      | panic p s => exact iff_of_true ⟨p, s, rfl⟩ (by rw [h.1]; rfl)

end MicroKernel.Proofs
