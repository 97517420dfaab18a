import MicroKernel.Proofs.StringFns
import MicroKernel.Spec.LineEditor

/-!
# What `shell_execute_command` does with a line

The arguments it collects are the tokens of the line, an empty one for every
space too many, and at most 31 of them. What it logs is those arguments and
then either nothing, or the complaint, or the call of the command followed by
what the command draws.

The tokens are followed through the buffer from left to right. The part behind
the static pointer is finished, the part before the terminator is still the
line; each token stays readable because later terminators go in behind it.
-/

namespace MicroKernel.Proofs

open Kernel Spec Split

theorem isDelim_space : isDelim (ascii " ") = isSpace := by
  funext c
  rw [Bool.eq_iff_iff, isDelim_iff, isSpace, beq_iff_eq]
  exact List.mem_singleton

/-! ## Collecting the arguments -/

theorem shellStrtok_ok {s : Shell} {str token last : Option Nat}
    {b : CArray U8 maxCmdLen}
    (h : Kernel.strtok s.cmdBuffer s.last str (ascii " ") = some (token, b, last)) :
    s.strtok str = .ok (token, { s with cmdBuffer := b, last := last }) := by
  rw [Shell.strtok, h]
  rfl

/-- From `token` on the loop collects `ps`, `n` cells being left for it,
whatever it has collected before. -/
def Gathers (n : Nat) (token : Option Nat) (s : Shell) (ps : List Nat) (t : Shell) : Prop :=
  ∀ (done : List Nat) (argv : ArgVector), done.length + n = 31 →
    argv.cells.take done.length = done.map some →
    ∃ argv', collectArgs token done.length argv s = .ok ((done ++ ps).length, argv', t) ∧
      argv'.cells.take (done ++ ps).length = (done ++ ps).map some

theorem gathers_none (n : Nat) (s : Shell) : Gathers n none s [] s := by
  intro done argv _ hargv
  rw [List.append_nil, collectArgs]
  exact ⟨argv, rfl, hargv⟩

theorem gathers_zero (token : Option Nat) (s : Shell) : Gathers 0 token s [] s := by
  intro done argv hroom hargv
  rw [List.append_nil]
  cases token with
  | none =>
      rw [collectArgs]
      exact ⟨argv, rfl, hargv⟩
  | some p =>
      rw [collectArgs, if_neg (by omega)]
      exact ⟨argv, rfl, hargv⟩

theorem gathers_succ {n p : Nat} {s t u : Shell} {token : Option Nat}
    {ps : List Nat} (hnext : s.strtok none = .ok (token, t))
    (hrest : Gathers n token t ps u) : Gathers (n + 1) (some p) s (p :: ps) u := by
  intro done argv hroom hargv
  have hlt : done.length < argv.cells.length := by
    rw [argv.size]
    omega
  obtain ⟨argv₁, hstore, hcells⟩ := CArray.store_lt (a := argv) (p := done.length)
    (by omega) (some p)
  have hargv₁ : argv₁.cells.take (done ++ [p]).length = (done ++ [p]).map some := by
    rw [hcells, List.length_append, List.length_singleton, List.take_set,
      List.take_succ_eq_append_getElem hlt, hargv, List.map_append,
      List.set_append_right _ _ (by simp), List.length_map, Nat.sub_self]
    rfl
  obtain ⟨argv', hloop, hargv'⟩ := hrest (done ++ [p]) argv₁
    (by rw [List.length_append, List.length_singleton]; omega) hargv₁
  rw [List.append_assoc, List.singleton_append] at hloop hargv'
  refine ⟨argv', ?_, hargv'⟩
  rw [collectArgs, if_pos (by omega), hstore, checked_some, ok_bind, hnext, ok_bind]
  rw [List.length_append, List.length_singleton] at hloop
  exact hloop

/-- `argv` is the pointers `ps` and a null pointer. -/
def Lists (argv : ArgVector) (ps : List Nat) : Prop :=
  argv.cells.take (ps.length + 1) = ps.map some ++ [none]

/-- The array has room for what the loop collects and the null pointer. -/
theorem Gathers.lists {token : Option Nat} {s t : Shell} {ps : List Nat}
    (h : Gathers 31 token s ps t) (hlen : ps.length ≤ 31) (argv : ArgVector) :
    ∃ argv' argv'', collectArgs token 0 argv s = .ok (ps.length, argv', t) ∧
      argv'.store ps.length none = some argv'' ∧ Lists argv'' ps := by
  obtain ⟨argv', hloop, hargv'⟩ := h [] argv rfl rfl
  rw [List.nil_append] at hloop hargv'
  obtain ⟨argv'', hstore, hcells⟩ := CArray.store_lt (a := argv') (p := ps.length)
    (by omega) none
  have hlt : ps.length < argv'.cells.length := by
    rw [argv'.size]
    omega
  refine ⟨argv', argv'', hloop, hstore, ?_⟩
  rw [Lists, hcells, List.take_set, List.take_succ_eq_append_getElem hlt, hargv',
    List.set_append_right _ _ (by simp), List.length_map, Nat.sub_self]
  rfl

theorem Lists.argAt {argv : ArgVector} {ps : List Nat} (h : Lists argv ps) {i : Nat}
    (hi : i < ps.length) : argAt argv i = some ps[i] := by
  have hcell : argv.cells[i]? = some (some ps[i]) := by
    rw [← List.getElem?_take_of_lt (Nat.lt_succ_of_lt hi), h,
      List.getElem?_append_left (by simpa using hi), List.getElem?_map,
      List.getElem?_eq_getElem hi]
    rfl
  rw [Kernel.argAt, CArray.load_natCast, hcell]
  rfl

/-- A loop over the cells from `k` on is one over the pointers there. -/
theorem Lists.foldlM {argv : ArgVector} {ps : List Nat} (h : Lists argv ps)
    (f : Shell → Nat → Except Stop Shell) : ∀ (m k : Nat) (s : Shell), k + m = ps.length →
    (List.range' k m).foldlM (fun s i => checked (Kernel.argAt argv i) >>= f s) s =
      (ps.drop k).foldlM f s := by
  intro m
  induction m with
  | zero =>
      intro k s hk
      rw [List.drop_eq_nil_of_le (by omega)]
      rfl
  | succ m ih =>
      intro k s hk
      have hlt : k < ps.length := by omega
      rw [List.range'_succ, List.drop_eq_getElem_cons hlt, List.foldlM_cons,
        List.foldlM_cons, h.argAt hlt, checked_some, ok_bind]
      exact congrArg _ (funext fun t => ih (k + 1) t (by omega))

theorem cmdEcho_list {argv : ArgVector} {ps : List Nat} (h : Lists argv ps) (s : Shell) :
    cmdEcho ps.length argv s =
      ((ps.drop 1).foldlM echoArg s >>= fun t => pure (t.putChar (chr '\n') 0x07)) := by
  rw [cmdEcho]
  cases ps with
  | nil => rfl
  | cons p ps => rw [h.foldlM echoArg _ 1 s (by rw [List.length_cons]; omega)]

/-- The pointers in `argv`, as long as they lead to the strings `args`. -/
def PointTo (s : Shell) (argv : List Nat) (args : List (List U8)) : Prop :=
  List.Forall₂ (fun p w => ∃ q r, s.cmdBuffer.cells = q ++ w ++ 0 :: r ∧
    q.length = p ∧ 0 ∉ w) argv args

/-- `strtok` on `str` and the loop after it collect `args`. In front of `q` and
behind the terminator the buffer is as it was, and between them there is still
something that ends where the line did. -/
def Collects (n : Nat) (s : Shell) (q junk : List U8) (str : Option Nat)
    (args : List (List U8)) : Prop :=
  ∃ token s₁ argv s₂ line, s.strtok str = .ok (token, s₁) ∧
    Gathers n token s₁ argv s₂ ∧
    s₂ = { s with cmdBuffer := s₂.cmdBuffer, last := s₂.last } ∧
    s₂.cmdBuffer.cells = q ++ line ++ 0 :: junk ∧ PointTo s₂ argv args

theorem collects_last {s : Shell} {q t junk : List U8} {str : Option Nat}
    (ht : Plain isSpace t) (hnul : 0 ∉ t)
    (hbuf : s.cmdBuffer.cells = q ++ t ++ 0 :: junk)
    (hstart : str.or s.last = some q.length) (n : Nat) :
    Collects n s q junk str ((tokens isSpace t).take n) := by
  by_cases hne : t = []
  · subst hne
    have hbuf' : s.cmdBuffer.cells = q ++ 0 :: junk := by
      rw [hbuf, List.append_nil]
    refine ⟨none, _, [], _, [], shellStrtok_ok (strtok_nul hstart hbuf'),
      gathers_none _ _, rfl, hbuf, ?_⟩
    simp [tokens, PointTo]
  · rw [tokens_plain ht hne]
    rw [← isDelim_space] at ht
    have htok := shellStrtok_ok (strtok_last hstart hne ht hnul hbuf)
    cases n with
    | zero =>
        exact ⟨_, _, [], _, t, htok, gathers_zero _ _, rfl, hbuf, .nil⟩
    | succ n =>
        -- the static pointer is on the terminator now
        have hend : Kernel.strtok s.cmdBuffer (some (q.length + t.length)) none
            (ascii " ") = some (none, s.cmdBuffer, some (q ++ t).length) :=
          strtok_nul (by simp) hbuf
        refine ⟨_, _, [q.length], _, t, htok, gathers_succ
          (shellStrtok_ok hend) (gathers_none _ _), rfl, hbuf, ?_⟩
        rw [List.take_succ_cons, List.take_nil]
        exact .cons ⟨q, junk, hbuf, rfl, hnul⟩ .nil

theorem collectArgs_spec (line : List U8) : ∀ (n : Nat) (s : Shell)
    (q junk : List U8) (str : Option Nat), 0 ∉ line →
    s.cmdBuffer.cells = q ++ line ++ 0 :: junk → str.or s.last = some q.length →
    Collects n s q junk str ((tokens isSpace line).take n) := by
  induction line using cutInduct (p := isSpace) with
  | last t ht =>
      intro n s q junk str hnul hbuf hstart
      exact collects_last ht hnul hbuf hstart n
  | cut t d r ht hd ih =>
      intro n s q junk str hnul hbuf hstart
      rw [tokens_cut ht hd]
      rw [← isDelim_space] at ht hd
      obtain ⟨b, hcut, hb⟩ := strtok_cut hstart ht hd hnul hbuf
      have htok := shellStrtok_ok hcut
      rw [List.mem_append, List.mem_cons, not_or, not_or] at hnul
      cases n with
      | zero =>
          refine ⟨_, _, [], _, t ++ 0 :: r, htok, gathers_zero _ _, rfl, ?_, .nil⟩
          show b.cells = _
          rw [hb]
          simp
      | succ n =>
          let s₁ : Shell := { s with
            cmdBuffer := b, last := some (q.length + t.length + 1) }
          have hb₁ : s₁.cmdBuffer.cells = (q ++ t ++ [0]) ++ r ++ 0 :: junk := by
            show b.cells = _
            rw [hb]
            simp
          obtain ⟨token, s₂, argv, s₃, r', hnext, hrest, hs₃, hb₃, hargs⟩ :=
            ih n s₁ (q ++ t ++ [0]) junk none hnul.2.2 hb₁ (by simp [s₁, Nat.add_assoc])
          refine ⟨_, s₁, q.length :: argv, s₃, t ++ 0 :: r', htok,
            gathers_succ hnext hrest, ?_, ?_, ?_⟩
          · rw [hs₃]
          · rw [hb₃]
            simp
          · rw [List.take_succ_cons]
            refine .cons ⟨q, r' ++ 0 :: junk, ?_, rfl, hnul.1⟩ hargs
            rw [hb₃]
            simp

/-! ## The table -/

theorem findCommand_spec {w : List U8} (hw : 0 ∉ w) (r : List U8)
    {cmds : List ShellCommand} (h : ∀ cmd ∈ cmds, 0 ∉ cmd.name) :
    findCommand (w ++ 0 :: r) cmds = .ok (cmds.find? (·.name == w)) := by
  induction cmds with
  | nil => rfl
  | cons cmd cmds ih =>
      rw [List.forall_mem_cons] at h
      obtain ⟨k, hk, hiff⟩ := strcmp_spec h.1 hw r
      rw [findCommand, hk]
      show (if k = 0 then pure (some cmd) else findCommand (w ++ 0 :: r) cmds) = _
      rw [List.find?_cons, ih h.2]
      by_cases hz : k = 0
      · rw [if_pos hz, beq_iff_eq.2 (hiff.1 hz)]
        rfl
      · rw [if_neg hz, beq_false_of_ne fun he => hz (hiff.2 he)]

theorem commands_nul : ∀ cmd ∈ commands, 0 ∉ cmd.name := by decide

/-! ## The commands draw and do nothing else -/

/-- From `s` to `t` the log has grown by drawing, and the line buffer and the
position are the same. -/
structure Draws (s t : Shell) : Prop where
  buffer : t.cmdBuffer = s.cmdBuffer
  pos : t.cmdPos = s.cmdPos
  log : ∃ ds : List Draw, t.log = s.log ++ ds.map .draw

theorem Draws.refl (s : Shell) : Draws s s := ⟨rfl, rfl, [], by simp⟩

theorem Draws.trans {s t u : Shell} (h : Draws s t) (h' : Draws t u) :
    Draws s u := by
  obtain ⟨ds, hd⟩ := h.log
  obtain ⟨ds', hd'⟩ := h'.log
  exact ⟨h'.buffer.trans h.buffer, h'.pos.trans h.pos, ds ++ ds', by
    rw [hd', hd]
    simp⟩

theorem Draws.print (s : Shell) (text : List U8) (attr : U8) :
    Draws s (s.print text attr) := ⟨rfl, rfl, [_], rfl⟩

theorem Draws.putChar (s : Shell) (c : U8) (attr : U8) :
    Draws s (s.putChar c attr) := ⟨rfl, rfl, [_], rfl⟩

theorem cmdHelp_draws (s : Shell) : Draws s (cmdHelp s) := by
  have hrows : ∀ (cmds : List ShellCommand) (t : Shell), Draws t (cmds.foldl
      (fun s cmd => ((((s.print (ascii "  ") 0x07).print cmd.name 0x0E).print
        (ascii "\t- ") 0x07).print cmd.description 0x07).putChar (chr '\n') 0x07)
      t) := by
    intro cmds
    induction cmds with
    | nil => exact Draws.refl
    | cons cmd cmds ih =>
        intro t
        refine Draws.trans ?_ (ih _)
        exact ((((Draws.print t _ _).trans (Draws.print _ _ _)).trans
          (Draws.print _ _ _)).trans (Draws.print _ _ _)).trans (Draws.putChar _ _ _)
  exact (Draws.print s _ _).trans (hrows commands _)

theorem cmdEcho_draws {s : Shell} {argv : ArgVector} {ps : List Nat} (hl : Lists argv ps)
    (h : ∀ p ∈ ps, (loadStr s.cmdBuffer p).isSome) :
    ∃ t, cmdEcho ps.length argv s = .ok t ∧ Draws s t := by
  have hargs : ∀ (ps : List Nat) (t : Shell), t.cmdBuffer = s.cmdBuffer →
      (∀ p ∈ ps, (loadStr s.cmdBuffer p).isSome) →
      ∃ u, ps.foldlM echoArg t = .ok u ∧ Draws t u := by
    intro ps
    induction ps with
    | nil => exact fun t _ _ => ⟨t, rfl, Draws.refl t⟩
    | cons p ps ih =>
        intro t ht hps
        rw [List.forall_mem_cons] at hps
        obtain ⟨w, hw⟩ := Option.isSome_iff_exists.1 hps.1
        let t' := (t.print w 0x0F).putChar (chr ' ') 0x0F
        obtain ⟨u, hu, hd⟩ := ih t' ht hps.2
        refine ⟨u, ?_, ((Draws.print t _ _).trans (Draws.putChar _ _ _)).trans hd⟩
        rw [List.foldlM_cons, echoArg, ht, hw]
        exact hu
  obtain ⟨u, hu, hd⟩ := hargs (ps.drop 1) s rfl
    fun p hp => h p (List.mem_of_mem_drop hp)
  refine ⟨u.putChar (chr '\n') 0x07, ?_, hd.trans (Draws.putChar _ _ _)⟩
  rw [cmdEcho_list hl, hu]
  rfl

/-- Twelve cells are enough for a number, whatever they held before. -/
theorem utoa_twelve (v : U32) (a : CArray U8 12) :
    ∃ b w, utoa v a 0 10 = some (0, b) ∧ loadStr b 0 = some w := by
  have hlen : (Numeral.numeral 10 v.toNat).length ≤ 10 :=
    (Numeral.numeral_length_le_iff (by decide) (by decide)).2
      (Nat.lt_trans v.isLt (by decide))
  have hlt : (Numeral.numeral 10 v.toNat).length < a.cells.length := by
    rw [a.size]
    omega
  have hsplit : a.cells = [] ++ a.cells.take (Numeral.numeral 10 v.toNat).length ++
      a.cells[(Numeral.numeral 10 v.toNat).length] ::
        a.cells.drop ((Numeral.numeral 10 v.toNat).length + 1) := by simp
  have hlo : (2 : Int) ≤ 10 := by decide
  have hhi : (10 : Int) ≤ 36 := by decide
  obtain ⟨b, hb, hbc⟩ := utoa_spec hlo hhi hsplit
    (by rw [List.length_take, Nat.min_eq_left (Nat.le_of_lt hlt)]; rfl)
  refine ⟨b, _, hb, if_pos ?_⟩
  rw [hbc]
  simp

theorem cmdMemstat_draws (s : Shell) : ∃ t, cmdMemstat s = .ok t ∧ Draws s t := by
  obtain ⟨b, used, hb, hused⟩ := utoa_twelve (pmmGetUsedMem s.pmm / 1024)
    (CArray.fill 12 0)
  obtain ⟨c, total, hc, htotal⟩ := utoa_twelve (pmmGetTotalMem s.pmm / 1024) b
  let t := ((((s.print (ascii "Physical Memory Usage:\n") 0x0B).print
    (ascii "  Used: ") 0x07).print used 0x0F).print (ascii " KB\n") 0x07)
  refine ⟨((t.print (ascii "  Total: ") 0x07).print total 0x0F).print
    (ascii " KB\n") 0x07, ?_, ?_⟩
  · simp only [cmdMemstat, hb, hc, hused, htotal, checked_some, ok_bind]
    rfl
  · have ht : Draws s t := (((Draws.print s _ _).trans (Draws.print _ _ _)).trans
      (Draws.print _ _ _)).trans (Draws.print _ _ _)
    exact ((ht.trans (Draws.print _ _ _)).trans (Draws.print _ _ _)).trans
      (Draws.print _ _ _)

theorem callFunc_draws {s : Shell} {argv : ArgVector} {ps : List Nat} (f : ShellFunc)
    (hl : Lists argv ps) (h : ∀ p ∈ ps, (loadStr s.cmdBuffer p).isSome) :
    ∃ t, final (callFunc f ps.length argv s) = some t ∧ Draws s t := by
  cases f with
  | cmdHelp => exact ⟨_, rfl, cmdHelp_draws s⟩
  | cmdEcho =>
      obtain ⟨t, hrun, hd⟩ := cmdEcho_draws hl h
      exact ⟨t, congrArg final hrun, hd⟩
  | cmdMemstat =>
      obtain ⟨t, hrun, hd⟩ := cmdMemstat_draws s
      exact ⟨t, congrArg final hrun, hd⟩
  | cmdClear => exact ⟨_, rfl, rfl, rfl, [.clearScreen], rfl⟩
  | cmdPanicTest => exact ⟨s, rfl, Draws.refl s⟩

/-! ## The whole line -/

/-- What follows the two notes of `shell_execute_command`. -/
def Dispatches (args : List (List U8)) (ev : List Event) : Prop :=
  match args with
  | [] => ev = []
  | w :: _ =>
      match commands.find? (·.name == w) with
      | some cmd => ∃ ds : List Draw, ev =
          .call cmd.func args.length (argvFor args) :: ds.map .draw
      | none => ev = (notFound w).map .draw

theorem PointTo.argvOf {s : Shell} {argv : ArgVector} {ps : List Nat}
    {args : List (List U8)} (h : PointTo s ps args) (hl : Lists argv ps) :
    s.argvOf ps.length argv = argvFor args := by
  rw [Shell.argvOf, hl, argvFor, List.map_append, List.map_map]
  congr 1
  clear hl
  induction h with
  | nil => rfl
  | cons hp _ ih =>
      obtain ⟨q, r, hbuf, rfl, hw⟩ := hp
      rw [List.map_cons, List.map_cons, ih, Function.comp_apply, Option.map_some,
        cstr_drop hw hbuf]

theorem PointTo.loads {s : Shell} {argv : List Nat} {args : List (List U8)}
    (h : PointTo s argv args) : ∀ p ∈ argv, (loadStr s.cmdBuffer p).isSome := by
  induction h with
  | nil => simp
  | cons hp _ ih =>
      obtain ⟨q, r, hbuf, rfl, hw⟩ := hp
      rw [List.forall_mem_cons, loadStr_eq hw hbuf]
      exact ⟨rfl, ih⟩

theorem dispatchArgs_spec {s : Shell} {argv : ArgVector} {ps : List Nat}
    {args : List (List U8)} (h : PointTo s ps args) (hl : Lists argv ps) :
    ∃ t ev, final (dispatchArgs ps.length argv s) = some t ∧ t.cmdPos = s.cmdPos ∧
      t.log = s.log ++ ev ∧ Dispatches args ev ∧
      (called ev = [] → dispatchArgs ps.length argv s = .ok t) := by
  have hloads := h.loads
  have hargv := h.argvOf hl
  have hlen : ps.length = args.length := List.Forall₂.length_eq h
  cases h with
  | nil => exact ⟨s, [], rfl, rfl, (List.append_nil _).symm, rfl, fun _ => rfl⟩
  | @cons p w ps args hp _ =>
      obtain ⟨q, r, hbuf, rfl, hw⟩ := hp
      have hdrop : s.cmdBuffer.cells.drop q.length = w ++ 0 :: r := by
        rw [hbuf, List.append_assoc, List.drop_left]
      have hname : argAt argv 0 = some q.length := hl.argAt (Nat.succ_pos _)
      simp only [dispatchArgs, List.length_cons, Nat.add_one_ne_zero, if_false, hname,
        checked_some, hdrop, findCommand_spec hw r commands_nul, ok_bind, Dispatches]
      cases commands.find? (·.name == w) with
      | some cmd =>
          obtain ⟨t, hrun, hd⟩ := callFunc_draws (s := s.note (.call cmd.func
            (q.length :: ps).length (s.argvOf (q.length :: ps).length argv))) cmd.func
            hl hloads
          obtain ⟨ds, hds⟩ := hd.log
          refine ⟨t, _, hrun, hd.pos, ?_, ⟨ds, rfl⟩, fun hcalled => ?_⟩
          · rw [hds, Shell.note, hargv, hlen, List.append_assoc]
            rfl
          · cases hcalled
      | none =>
          have hword : loadStr s.cmdBuffer q.length = some w := loadStr_eq hw hbuf
          have hrun : (checked (loadStr s.cmdBuffer q.length) >>= fun word =>
              pure (((s.print (ascii "Command not found: ") 0x0C).print word
                0x0C).putChar (chr '\n') 0x07) : Except Stop Shell) = .ok
              (((s.print (ascii "Command not found: ") 0x0C).print w 0x0C).putChar
                (chr '\n') 0x07) := by
            rw [hword, checked_some, ok_bind]
            rfl
          refine ⟨_, _, congrArg final hrun, rfl, ?_, rfl, fun _ => hrun⟩
          simp [Shell.print, Shell.putChar, Shell.note, notFound]

/-- What is dispatched: the tokens of the line, at most 31, listed in `argv`. -/
theorem shellExecuteCommand_dispatches {s : Shell} {line junk : List U8}
    (hbuf : s.cmdBuffer.cells = line ++ 0 :: junk) (hnul : 0 ∉ line) :
    ∃ ps argv t, t = { s.note (.execute s.cmdBuffer.cells) with
        cmdBuffer := t.cmdBuffer, last := t.last } ∧
      PointTo t ps ((tokens isSpace line).take 31) ∧ Lists argv ps ∧
      shellExecuteCommand s = dispatchArgs ps.length argv
        (t.note (.argv ps.length (t.argvOf ps.length argv))) := by
  obtain ⟨token, s₁, ps, s₂, line', hfirst, hrest, hs₂, -, hargs⟩ :=
    collectArgs_spec line 31 (s.note (.execute s.cmdBuffer.cells)) [] junk (some 0)
      hnul hbuf rfl
  have hlen : ps.length ≤ 31 := by
    rw [List.Forall₂.length_eq hargs, List.length_take]
    exact Nat.min_le_left _ _
  obtain ⟨argv, argv', hloop, hstore, hl⟩ := hrest.lists hlen (CArray.fill 32 (some 0))
  refine ⟨ps, argv', s₂, hs₂, hargs, hl, ?_⟩
  simp only [shellExecuteCommand, hfirst, hloop, hstore, checked_some, ok_bind]

theorem shellExecuteCommand_spec {s : Shell} {line junk : List U8}
    (hbuf : s.cmdBuffer.cells = line ++ 0 :: junk) (hnul : 0 ∉ line) :
    ∃ t ev, final (shellExecuteCommand s) = some t ∧ t.cmdPos = s.cmdPos ∧
      t.log = s.log ++ .execute s.cmdBuffer.cells ::
        .argv ((tokens isSpace line).take 31).length
          (argvFor ((tokens isSpace line).take 31)) :: ev ∧
      Dispatches ((tokens isSpace line).take 31) ev ∧
      (called ev = [] → shellExecuteCommand s = .ok t) := by
  obtain ⟨ps, argv, s₂, hs₂, hargs, hl, hexec⟩ := shellExecuteCommand_dispatches hbuf hnul
  have hlen := List.Forall₂.length_eq hargs
  have hnoted : PointTo (s₂.note (.argv ps.length (s₂.argvOf ps.length argv))) ps
      ((tokens isSpace line).take 31) := hargs
  obtain ⟨t, ev, hrun, hpos, hlog, hev, hok⟩ := dispatchArgs_spec hnoted hl
  rw [hexec]
  refine ⟨t, ev, hrun, ?_, ?_, hev, hok⟩
  · rw [hpos, hs₂]
    rfl
  · have hlog₂ : s₂.log = s.log ++ [.execute s.cmdBuffer.cells] := by
      rw [hs₂]
      rfl
    rw [hlog, Shell.note, hlog₂, hargs.argvOf hl, hlen]
    simp

end MicroKernel.Proofs
