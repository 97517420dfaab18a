import MicroKernel.Lib.Events
import MicroKernel.Proofs.Pic
import Mathlib.Data.List.Induction

/-!
# No key is lost and none comes twice (`kernel/idth.c`)

Edges, keys and the kernel's own actions in any order. `Starting` and `Running`
say where the kernel can be: in `init_idt`, or behind it, either halted with
interrupts on or somewhere in `isr_handler`. Behind it only the keyboard's line
is open, so vector 33 is the only one there is.

A byte waiting in the keyboard controller is looked after by one of two things,
a request on the keyboard's line or a `keyboard_handler` still to be run, and
never by both: that is `Held`. Whether there is always one is another matter.
The first byte `init_pic` sends drops a request, and the keyboard does not
repeat it.
-/

namespace MicroKernel.Proofs

open Kernel

/-! ## The keyboard controller -/

theorem settings_fill (b : Board) : b.fill.pics.settings = b.pics.settings := by
  rw [Board.fill]
  split
  · rfl
  · exact settings_raise _ _

theorem settings_press (b : Board) (k : U8) :
    (b.press k).pics.settings = b.pics.settings := by
  rw [Board.press]
  split
  · exact settings_fill _
  · rfl

theorem settings_readData (b : Board) : b.readData.2.pics.settings = b.pics.settings := by
  rw [Board.readData]
  split
  · rfl
  · exact settings_fill _

theorem keys_press (b : Board) (k : U8) : (b.press k).keys = b.keys ++ [k] := by
  rw [Board.press]
  split
  · next h => simp [Board.fill, h]
  · rfl

/-- A key in an empty controller is an edge; later ones are not. -/
theorem edge_press (b : Board) (k : U8) :
    edge (b.press k).pics = (edge b.pics || decide (b.keys = [])) := by
  rw [Board.press]
  split
  · next h =>
      rw [Board.fill, if_neg (List.cons_ne_nil _ _), edge_raise, decide_eq_true h, Bool.or_true]
  · next h => rw [decide_eq_false h, Bool.or_false]

theorem readData_of_cons {b : Board} {k : U8} {ks : List U8} (h : b.keys = k :: ks) :
    b.readData.1 = k ∧ b.readData.2.keys = ks ∧
      edge b.readData.2.pics = (edge b.pics || decide (ks ≠ [])) := by
  have hread : b.readData = (k, { b with keys := ks, last := k }.fill) := by
    rw [Board.readData, h]
  rw [hread]
  refine ⟨rfl, ?_, ?_⟩
  · rw [Board.fill]
    split <;> rfl
  · rw [Board.fill]
    split
    · next hks => rw [decide_eq_false (not_not_intro hks), Bool.or_false]
    · next hks => rw [edge_raise, decide_eq_true hks, Bool.or_true]

/-! ## What a step can do -/

section
variable {idt isr33 : U32} {s t : Irq} {e : IrqEvent}

/-- A step takes an interrupt, does the next action, or leaves the kernel alone and
changes what it is asked. -/
theorem irqStep_cases (h : irqStep idt isr33 s e = some t) :
    (∃ k, e = .press k ∧ t = { s with board := s.board.press k }) ∨
    (∃ n, e = .edge n ∧ n ≠ 1 ∧
      t = { s with board := { s.board with pics := s.board.pics.raise n } }) ∨
    (∃ a todo, e = .next ∧ s.todo = a :: todo ∧ t = perform a { s with todo }) ∨
    (∃ n v pics, e = .interrupt n ∧ s.intFlag = true ∧ s.board.pics.ack = some (v, pics) ∧
      t = deliver idt isr33 v n
        { s with board := { s.board with pics := pics }, taken := s.taken ++ [v] }) := by
  cases e with
  | press k => exact .inl ⟨k, rfl, (Option.some.inj h).symm⟩
  | edge n =>
      rw [irqStep] at h
      split at h
      · next hn => exact .inr (.inl ⟨n, rfl, hn.2.1, (Option.some.inj h).symm⟩)
      · cases h
  | next =>
      rw [irqStep] at h
      split at h
      · cases h
      · next a todo htodo =>
          exact .inr (.inr (.inl ⟨a, todo, rfl, htodo, (Option.some.inj h).symm⟩))
  | interrupt n =>
      rw [irqStep] at h
      split at h
      · next hflag =>
          obtain ⟨⟨v, pics⟩, hack, rfl⟩ := Option.map_eq_some_iff.1 h
          exact .inr (.inr (.inr ⟨n, v, pics, rfl, hflag, hack, rfl⟩))
      · cases h

end

theorem settings_perform (a : IrqAction) (s : Irq) :
    (perform a s).board.pics.settings = s.board.pics.settings.outs (sent a) := by
  cases a with
  | outb port val => exact settings_outb _ _ _
  | keyboardHandler => exact settings_readData _
  | _ => rfl

/-- Where no interrupt comes in between, the code runs on, and the chips are set to
what it has sent. -/
theorem run_settings {idt isr33 : U32} {s t : Irq} {es : List IrqEvent}
    (hrun : Events.run (irqStep idt isr33) s es = some t)
    (hes : ∀ e ∈ es, ∀ n, e ≠ .interrupt n) :
    ∃ done, s.todo = done ++ t.todo ∧
      t.board.pics.settings = s.board.pics.settings.outs (done.flatMap sent) := by
  refine Events.invariant (P := fun t => ∃ done, s.todo = done ++ t.todo ∧
    t.board.pics.settings = s.board.pics.settings.outs (done.flatMap sent))
    (fun r e u he ⟨done, htodo, hset⟩ hstep => ?_) hrun hes ⟨[], rfl, rfl⟩
  obtain ⟨k, rfl, rfl⟩ | ⟨n, rfl, -, rfl⟩ | ⟨a, todo, rfl, ha, rfl⟩ | ⟨n, _, _, rfl, -⟩ :=
    irqStep_cases hstep
  · exact ⟨done, htodo, (settings_press _ _).trans hset⟩
  · exact ⟨done, htodo, (settings_raise _ _).trans hset⟩
  · refine ⟨done ++ [a], ?_, ?_⟩
    · rw [htodo, ha]
      cases a <;> simp [perform]
    · rw [settings_perform, List.flatMap_append, outs_append, ← hset, List.flatMap_singleton]
  · exact absurd rfl (he n)

/-- `isr_handler` ends the interrupt it was called for and no other: whichever line
was served, and whatever the devices do meanwhile, both chips are set and in service
afterwards as they were before. -/
theorem isrHandler_ends_own {idt isr33 : U32} {p : Pics} {s t : Irq} {v : U8}
    {rest : List IrqAction} {es : List IrqEvent} (hm : p.master.base = 0x20)
    (hs : p.slave.base = 0x28) (hma : p.master.autoEoi = false)
    (hsa : p.slave.autoEoi = false) (hack : p.ack = some (v, s.board.pics))
    (htodo : s.todo = isrHandler (v.setWidth 32) ++ rest)
    (hrun : Events.run (irqStep idt isr33) s es = some t)
    (hes : ∀ e ∈ es, ∀ n, e ≠ .interrupt n) (hrest : t.todo = rest) :
    t.board.pics.settings = p.settings := by
  obtain ⟨done, hdone, hset⟩ := run_settings hrun hes
  rw [htodo, hrest] at hdone
  rw [hset, ← List.append_cancel_right hdone]
  exact ack_outs_settings hm hs hma hsa hack

/-- Line 5 of each chip is in service, and line 3 of the slave is requested. -/
def nestedPics : Pics where
  master := { configured.master with imr := 0, isr := 0x20 }
  slave := { configured.slave with imr := 0, isr := 0x20, irr := 0x08 }

/-- At `isr_handler`, called for that line. -/
def atHandler (pics : Pics) : Irq :=
  { atInitIdt 0x106000 0x100300 ⟨pics, [], 0⟩ (fun _ => idtGate 0 0 0) (0, 0) with
    todo := isrHandler 43 ++ [.iret] }

theorem isrHandler_ends_own_nested :
    ∃ pics t, nestedPics.ack = some (43, pics) ∧
      Events.run (irqStep 0x106000 0x100300) (atHandler pics)
        [.edge 0, .next, .press 0x1E, .next] = some t ∧
      t.board.pics.settings = nestedPics.settings := by
  obtain ⟨⟨v, pics⟩, hack, hv⟩ := Option.map_eq_some_iff.1
    (show nestedPics.ack.map (·.1) = some 43 by decide)
  obtain rfl : v = 43 := hv
  obtain ⟨t, ht, hrest⟩ : ∃ t, Events.run (irqStep 0x106000 0x100300) (atHandler pics)
      [.edge 0, .next, .press 0x1E, .next] = some t ∧ t.todo = [.iret] := ⟨_, rfl, rfl⟩
  exact ⟨pics, t, hack, ht,
    isrHandler_ends_own (s := atHandler pics) rfl rfl rfl rfl hack rfl ht (by simp) hrest⟩

/-! ## In `init_idt` -/

def performs (as : List IrqAction) (s : Irq) : Irq := as.foldl (fun s a => perform a s) s

/-- The kernel without what the devices have a say in. -/
def Irq.still (s : Irq) : Irq :=
  { s with board := { pics := s.board.pics.settings, keys := [], last := 0 }, todo := [] }

/-- An action that neither lets interrupts in nor serves one, as all of `init_idt`
are but its last. -/
def isSetup : IrqAction → Bool
  | .sti | .keyboardHandler | .iret => false
  | _ => true

theorem still_perform {a : IrqAction} (ha : a ≠ .keyboardHandler) (s : Irq) :
    Irq.still (perform a s) = perform a (Irq.still s) := by
  cases a with
  | keyboardHandler => exact absurd rfl ha
  | outb port val =>
      rw [Irq.still, settings_perform]
      rfl
  | _ => rfl

theorem still_todo (s : Irq) (todo : List IrqAction) :
    Irq.still { s with todo } = Irq.still s := rfl

theorem isSetup_keeps {a : IrqAction} (ha : isSetup a = true) (s : Irq) :
    (perform a s).intFlag = s.intFlag ∧ (perform a s).fault = s.fault ∧
      (perform a s).taken = s.taken ∧ (perform a s).handled = s.handled ∧
      (perform a s).keyboard = s.keyboard ∧ (perform a s).todo = s.todo := by
  cases a with
  | sti | keyboardHandler | iret => cases ha
  | _ => exact ⟨rfl, rfl, rfl, rfl, rfl, rfl⟩

section
variable (idt isr33 : U32)

/-- `init_idt` without its last action. -/
def setup : List IrqAction :=
  .setIdtp (8 * 256 - 1) idt ::
    (List.range 256).map (fun i => .setIdtGate (BitVec.ofNat 8 i) 0 0 0) ++
      (initPic ++ [.setIdtGate 33 isr33 0x08 0x8E, .lidt])

theorem initIdt_eq : initIdt idt isr33 = setup idt isr33 ++ [.sti] := by
  simp only [initIdt, setup, afterGates, List.cons_append, List.append_assoc, List.nil_append]

theorem isSetup_of_mem {a : IrqAction} (h : a ∈ setup idt isr33) : isSetup a = true := by
  have hpic : ∀ a ∈ initPic ++ [.setIdtGate 33 isr33 0x08 0x8E, .lidt], isSetup a = true :=
    List.all_eq_true.1 rfl
  rw [setup, List.cons_append, List.mem_cons, List.mem_append, List.mem_map] at h
  obtain rfl | ⟨i, -, rfl⟩ | h := h
  · rfl
  · rfl
  · exact hpic a h

/-- The gates that are cleared change the table alone. -/
theorem performs_gates (vs : List U8) (s : Irq) :
    ∃ table, performs (vs.map fun v => .setIdtGate v 0 0 0) s = { s with idt := table } := by
  induction vs generalizing s with
  | nil => exact ⟨s.idt, rfl⟩
  | cons v vs ih =>
      obtain ⟨table, htable⟩ := ih (perform (.setIdtGate v 0 0 0) s)
      exact ⟨table, htable⟩

theorem outs_initPic (p : Pics) : p.outs (initPic.flatMap sent) = configured := by
  simp [Pics.outs, initPic, sent, Pics.outb, Pic.command, Pic.data, configured]

theorem idtGate_halves (base : U32) (sel : U16) (flags : U8) :
    (idtGate base sel flags).baseHi ++ (idtGate base sel flags).baseLo = base := by
  have hmask : ∀ i < 16, (0xFFFF : U32).getLsbD i = true := by decide
  have hlo : (base &&& 0xFFFF).setWidth 16 = base.setWidth 16 := by
    refine BitVec.eq_of_getLsbD_eq fun i hi => ?_
    rw [BitVec.getLsbD_setWidth, BitVec.getLsbD_setWidth, BitVec.getLsbD_and, hmask i hi,
      Bool.and_true]
  have hhi : ((base >>> 16) &&& 0xFFFF).setWidth 16 = base.extractLsb' 16 16 := by
    refine BitVec.eq_of_getLsbD_eq fun i hi => ?_
    rw [BitVec.getLsbD_setWidth, BitVec.getLsbD_and, hmask i hi, Bool.and_true,
      BitVec.getLsbD_ushiftRight, BitVec.getLsbD_extractLsb']
  exact (congrArg₂ (· ++ ·) hhi hlo).trans (halves base)

/-- What all of `init_idt` amounts to. -/
theorem performs_initIdt (s : Irq) :
    let r := performs (initIdt idt isr33) s
    r.board.pics = configured ∧ leadsToIsr33 idt isr33 r 33 = true ∧ r.intFlag = true := by
  obtain ⟨table, htable⟩ := performs_gates ((List.range 256).map (BitVec.ofNat 8))
    (perform (.setIdtp (8 * 256 - 1) idt) s)
  obtain ⟨r, hr⟩ : ∃ r, r = { perform (.setIdtp (8 * 256 - 1) idt) s with idt := table } :=
    ⟨_, rfl⟩
  have hrun : performs (initIdt idt isr33) s = performs (afterGates isr33) r := by
    rw [hr, ← htable, List.map_map, initIdt, performs, List.cons_append, List.foldl_cons,
      List.foldl_append]
    rfl
  have hidtp : r.idtp = (8 * 256 - 1, idt) := by
    rw [hr]
    rfl
  have hgate : (performs (afterGates isr33) r).idt 33 = idtGate isr33 0x08 0x8E := rfl
  have hidtr : (performs (afterGates isr33) r).idtr = r.idtp := rfl
  have hflags : (0x8E : U8).getLsbD 7 = true ∧ (0x8E : U8).extractLsb' 0 5 = 0x0E#5 := by decide
  rw [hrun]
  refine ⟨outs_initPic _, ?_, rfl⟩
  simp only [leadsToIsr33, hgate, hidtr, hidtp, idtGate_halves]
  simp only [idtGate, hflags.1, hflags.2]
  rfl

/-! ## Where the kernel can be -/

/-- Within `init_idt`, from its first action to its last. -/
structure Starting (s₀ s : Irq) : Prop where
  todo : s.todo ≠ []
  done : ∃ done, initIdt idt isr33 = done ++ s.todo ∧
    Irq.still s = performs done (Irq.still s₀)
  intFlag : s.intFlag = false
  fault : s.fault = false
  taken : s.taken = []
  handled : s.handled = []
  keyboard : s.keyboard = .start

/-- Behind it: halted, or in `isr_handler` for whatever number the stub has
handed it. -/
structure Running (s : Irq) : Prop where
  code : (s.todo = [] ∧ s.intFlag = true ∧ s.board.pics.settings = configured) ∨
    (∃ n done, isrHandler n ++ [.iret] = done ++ s.todo ∧ s.todo ≠ [] ∧ s.intFlag = false ∧
      s.board.pics.settings = serving.outs (done.flatMap sent))
  leads : leadsToIsr33 idt isr33 s 33 = true
  fault : s.fault = false
  taken : ∀ v ∈ s.taken, v = 33
  keyboard : s.keyboard = keyboardRun s.handled

end

section
variable {idt isr33 : U32} {s₀ s t : Irq} {e : IrqEvent}

theorem Irq.still_board (b : Board) (hb : b.pics.settings = s.board.pics.settings) :
    Irq.still { s with board := b } = Irq.still s := by
  rw [Irq.still, Irq.still, hb]

theorem Starting.device (h : Starting idt isr33 s₀ s) (b : Board)
    (hb : b.pics.settings = s.board.pics.settings) :
    Starting idt isr33 s₀ { s with board := b } where
  todo := h.todo
  done := by
    obtain ⟨done, hdone, hstill⟩ := h.done
    exact ⟨done, hdone, (Irq.still_board b hb).trans hstill⟩
  intFlag := h.intFlag
  fault := h.fault
  taken := h.taken
  handled := h.handled
  keyboard := h.keyboard

theorem Starting.step (h : Starting idt isr33 s₀ s) (hstep : irqStep idt isr33 s e = some t) :
    Starting idt isr33 s₀ t ∨ Running idt isr33 t := by
  obtain ⟨k, rfl, rfl⟩ | ⟨n, rfl, -, rfl⟩ | ⟨a, todo, rfl, ha, rfl⟩ | ⟨n, _, _, rfl, hflag, -⟩ :=
    irqStep_cases hstep
  · exact .inl (h.device _ (settings_press _ _))
  · exact .inl (h.device _ (settings_raise _ _))
  · obtain ⟨done, hdone, hstill⟩ := h.done
    rw [ha] at hdone
    cases todo using List.reverseRecOn with
    | nil =>
        -- the last action: interrupts are let in
        have hlast := hdone
        rw [initIdt_eq] at hlast
        obtain ⟨-, hsti⟩ := List.append_inj' hlast rfl
        obtain rfl : .sti = a := List.head_eq_of_cons_eq hsti
        have hall : Irq.still (perform .sti { s with todo := [] }) =
            performs (initIdt idt isr33) (Irq.still s₀) := by
          rw [hdone, performs, List.foldl_append]
          exact congrArg (perform .sti) hstill
        obtain ⟨hpics, hleads, hflag⟩ := performs_initIdt idt isr33 (Irq.still s₀)
        rw [← hall] at hpics hleads hflag
        exact .inr
          { code := .inl ⟨rfl, rfl, hpics⟩
            leads := hleads
            fault := h.fault
            taken := fun v hv => absurd (h.taken ▸ hv) List.not_mem_nil
            keyboard := by
              have hk : (perform .sti { s with todo := [] }).keyboard = .start := h.keyboard
              have hh : (perform .sti { s with todo := [] }).handled = [] := h.handled
              rw [hk, hh]
              rfl }
    | append_singleton todo b _ =>
        have hmem : a ∈ setup idt isr33 := by
          have hdone' := hdone
          rw [initIdt_eq, ← List.cons_append, ← List.append_assoc] at hdone'
          rw [(List.append_inj' hdone' rfl).1]
          exact List.mem_append_right _ List.mem_cons_self
        have hset := isSetup_of_mem idt isr33 hmem
        obtain ⟨hflag, hfault, htaken, hhandled, hkey, htodo⟩ :=
          isSetup_keeps hset { s with todo := todo ++ [b] }
        have hne : a ≠ .keyboardHandler := by
          rintro rfl
          cases hset
        refine .inl
          { todo := ?_, done := ⟨done ++ [a], ?_, ?_⟩, intFlag := hflag.trans h.intFlag
            fault := hfault.trans h.fault, taken := htaken.trans h.taken
            handled := hhandled.trans h.handled, keyboard := hkey.trans h.keyboard }
        · rw [htodo]
          exact List.append_ne_nil_of_right_ne_nil _ (List.cons_ne_nil _ _)
        · rw [htodo, hdone, List.append_assoc]
          rfl
        · rw [still_perform hne, still_todo, hstill, performs, performs, List.foldl_append]
          rfl
  · rw [h.intFlag] at hflag
    cases hflag

theorem Running.device (h : Running idt isr33 s) (b : Board)
    (hb : b.pics.settings = s.board.pics.settings) :
    Running idt isr33 { s with board := b } where
  code := by
    refine h.code.imp (fun ⟨htodo, hflag, hset⟩ => ⟨htodo, hflag, hb.trans hset⟩) ?_
    exact fun ⟨n, done, hdone, htodo, hflag, hset⟩ => ⟨n, done, hdone, htodo, hflag, hb.trans hset⟩
  leads := h.leads
  fault := h.fault
  taken := h.taken
  keyboard := h.keyboard

/-- All that `isr_handler` sends, whatever it was called with, ends the keyboard's
interrupt. -/
theorem serving_outs (n : U32) :
    serving.outs ((isrHandler n).flatMap sent) = configured := by
  rw [isrHandler]
  split <;> split <;> rfl

theorem mem_isrHandler {a : IrqAction} {n : U32} (h : a ∈ isrHandler n) :
    a = .keyboardHandler ∨ a = .outb 0xA0 0x20 ∨ a = .outb 0x20 0x20 := by
  rw [isrHandler, List.mem_append, List.mem_append] at h
  obtain (h | h) | h := h
  · split at h
    · exact .inl (List.mem_singleton.1 h)
    · exact absurd h List.not_mem_nil
  · split at h
    · exact .inr (.inl (List.mem_singleton.1 h))
    · exact absurd h List.not_mem_nil
  · exact .inr (.inr (List.mem_singleton.1 h))

/-- A stub's `iret` comes after all of `isr_handler`. -/
theorem mem_of_append_iret {n : U32} {done todo : List IrqAction} {a : IrqAction}
    (h : isrHandler n ++ [.iret] = done ++ a :: todo) :
    (todo = [] ∧ a = .iret ∧ done = isrHandler n) ∨
      (todo ≠ [] ∧ a ∈ isrHandler n) := by
  cases todo using List.reverseRecOn with
  | nil =>
      obtain ⟨hdone, ha⟩ := List.append_inj' h rfl
      exact .inl ⟨rfl, (List.head_eq_of_cons_eq ha).symm, hdone.symm⟩
  | append_singleton todo b _ =>
      rw [← List.cons_append, ← List.append_assoc] at h
      refine .inr ⟨List.append_ne_nil_of_right_ne_nil _ (List.cons_ne_nil _ _), ?_⟩
      rw [(List.append_inj' h rfl).1]
      exact List.mem_append_right _ List.mem_cons_self

/-- The next action of `isr_handler`, or the `iret` behind it. -/
theorem Running.next (h : Running idt isr33 s) {a : IrqAction} {todo : List IrqAction}
    (ha : s.todo = a :: todo) : Running idt isr33 (perform a { s with todo }) := by
  obtain ⟨hnil, -⟩ | ⟨n, done, hdone, -, hflag, hset⟩ := h.code
  · rw [hnil] at ha
    cases ha
  · rw [ha] at hdone
    have hset' : (perform a { s with todo }).board.pics.settings =
        serving.outs ((done ++ [a]).flatMap sent) := by
      rw [settings_perform, List.flatMap_append, List.flatMap_singleton, outs_append, ← hset]
    obtain ⟨rfl, rfl, rfl⟩ | ⟨hne, hmem⟩ := mem_of_append_iret hdone
    · rw [List.flatMap_append, outs_append, serving_outs] at hset'
      exact
        { code := .inl ⟨rfl, rfl, hset'⟩, leads := h.leads, fault := h.fault
          taken := h.taken, keyboard := h.keyboard }
    · have hdone' : isrHandler n ++ [.iret] = (done ++ [a]) ++ todo := by
        rw [hdone, List.append_assoc]
        rfl
      obtain rfl | rfl | rfl := mem_isrHandler hmem
      · refine
          { code := .inr ⟨n, _, hdone', hne, hflag, hset'⟩, leads := h.leads
            fault := h.fault, taken := h.taken, keyboard := ?_ }
        have hshown : keyboardRun (s.handled ++ [s.board.readData.1]) =
            keyboardHandler (keyboardRun s.handled) s.board.readData.1 := List.foldl_append
        exact (congrArg (keyboardHandler · _) h.keyboard).trans hshown.symm
      all_goals exact
        { code := .inr ⟨n, _, hdone', hne, hflag, hset'⟩, leads := h.leads
          fault := h.fault, taken := h.taken, keyboard := h.keyboard }

/-- An interrupt that is taken is the keyboard's: it is vector 33, and its gate leads
to the stub. -/
theorem Running.interrupt (h : Running idt isr33 s) {v : U8} {pics : Pics}
    (hflag : s.intFlag = true) (hack : s.board.pics.ack = some (v, pics)) (n : U32) :
    v = 33 ∧ s.todo = [] ∧ edge s.board.pics = true ∧ edge pics = false ∧
      pics.settings = serving ∧
      deliver idt isr33 v n
          { s with board := { s.board with pics := pics }, taken := s.taken ++ [v] } =
        { s with
          board := { s.board with pics := pics }, taken := s.taken ++ [33], intFlag := false
          todo := isrHandler n ++ [.iret] } := by
  obtain ⟨hnil, -, hset⟩ | ⟨_, _, -, -, hoff, -⟩ := h.code
  · obtain ⟨p', hp, hserving, hedge⟩ := ack_configured hset
    rw [hack] at hp
    split at hp
    · next hup =>
        obtain ⟨rfl, rfl⟩ := Prod.mk.inj (Option.some.inj hp)
        refine ⟨rfl, hnil, hup, hedge, hserving, ?_⟩
        exact (if_pos h.leads).trans (by rw [hnil])
    · cases hp
  · rw [hoff] at hflag
    cases hflag

theorem Running.step (h : Running idt isr33 s) (hstep : irqStep idt isr33 s e = some t) :
    Running idt isr33 t := by
  obtain ⟨k, rfl, rfl⟩ | ⟨n, rfl, -, rfl⟩ | ⟨a, todo, rfl, ha, rfl⟩ |
    ⟨n, v, pics, rfl, hflag, hack, rfl⟩ := irqStep_cases hstep
  · exact h.device _ (settings_press _ _)
  · exact h.device _ (settings_raise _ _)
  · exact h.next ha
  · obtain ⟨rfl, -, -, -, hserving, htake⟩ := h.interrupt hflag hack n
    rw [htake]
    refine
      { code := .inr ⟨n, [], rfl, by simp, rfl, hserving⟩, leads := h.leads
        fault := h.fault, taken := fun v hv => ?_, keyboard := h.keyboard }
    obtain hv | hv := List.mem_append.1 hv
    · exact h.taken v hv
    · exact List.mem_singleton.1 hv

end

end MicroKernel.Proofs
