import MicroKernel.Proofs.Irq
import MicroKernel.Proofs.IsrStub

/-!
# What becomes of a key

A byte waiting in the keyboard controller is looked after by one of two things,
a request on the keyboard's line or a `keyboard_handler` still to be run, and
never by both: that is `Held`. It holds from the first byte of `init_pic` on, so
what is read is what was pressed, in order.

Whether a waiting byte is looked after at all (`Owed`) is another matter. The
first byte of `init_pic` drops the request, and the keyboard does not repeat it:
a kernel whose keyboard has something to say at that moment is `Deaf`. So is one
whose stub hands `isr_handler` any number but 33, after its first interrupt.
-/

namespace MicroKernel.Proofs

open Kernel

/-- An action that forgets no request. -/
def keepsRequests : IrqAction → Bool
  | .outb port val => !(port == 0x20 && val.getLsbD 4)
  | _ => true

/-- The first byte of `init_pic` is behind the kernel. -/
def Past (s : Irq) : Prop := ∀ a ∈ s.todo, keepsRequests a = true

structure Held (s : Irq) : Prop where
  asked : edge s.board.pics = true → s.board.keys ≠ []
  handler : .keyboardHandler ∈ s.todo → s.board.keys ≠ [] ∧ edge s.board.pics = false

/-- Nobody looks after the byte that is waiting. -/
structure Deaf (s : Irq) : Prop where
  past : Past s
  keys : s.board.keys ≠ []
  edge : edge s.board.pics = false
  handler : .keyboardHandler ∉ s.todo

/-- Every byte that is waiting is looked after. -/
def Owed (s : Irq) : Prop :=
  s.board.keys ≠ [] → edge s.board.pics = true ∨ .keyboardHandler ∈ s.todo

/-! ## The code, and what an action does to the keyboard -/

theorem edge_perform {a : IrqAction} (hkeep : keepsRequests a = true)
    (ha : a ≠ .keyboardHandler) (s : Irq) :
    edge (perform a s).board.pics = edge s.board.pics := by
  cases a with
  | keyboardHandler => exact absurd rfl ha
  | outb port val =>
      refine edge_outb _ fun hport => ?_
      rw [keepsRequests, hport] at hkeep
      simpa using hkeep
  | _ => rfl

theorem keys_perform {a : IrqAction} (ha : a ≠ .keyboardHandler) (s : Irq) :
    (perform a s).board.keys = s.board.keys ∧ (perform a s).handled = s.handled ∧
      (perform a s).taken = s.taken ∧ (perform a s).todo = s.todo := by
  cases a with
  | keyboardHandler => exact absurd rfl ha
  | outb port val => exact ⟨rfl, rfl, rfl, rfl⟩
  | _ => exact ⟨rfl, rfl, rfl, rfl⟩

/-- `init_idt` behind the first byte of `init_pic`. -/
def afterIcw1 (isr33 : U32) : List IrqAction := (afterGates isr33).tail

theorem afterIcw1_keeps (isr33 : U32) :
    ∀ a ∈ afterIcw1 isr33, keepsRequests a = true ∧ a ≠ .keyboardHandler := by
  have hall : ∀ a ∈ afterIcw1 isr33, (keepsRequests a && a != .keyboardHandler) = true :=
    List.all_eq_true.1 rfl
  intro a ha
  obtain ⟨hkeep, hne⟩ := Bool.and_eq_true_iff.1 (hall a ha)
  exact ⟨hkeep, bne_iff_ne.1 hne⟩

theorem isrHandler_keeps (n : U32) :
    ∀ a ∈ isrHandler n ++ [.iret], keepsRequests a = true := by
  intro a ha
  obtain ha | ha := List.mem_append.1 ha
  · obtain rfl | rfl | rfl := mem_isrHandler ha <;> rfl
  · obtain rfl := List.mem_singleton.1 ha
    rfl

theorem mem_isrHandler_keyboard {n : U32} :
    .keyboardHandler ∈ isrHandler n ++ [.iret] ↔ n = 33 := by
  rw [isrHandler]
  split <;> split <;> simp_all

/-- `isr_handler` calls `keyboard_handler` at most once. -/
theorem keyboard_once {n : U32} {done todo : List IrqAction}
    (h : isrHandler n ++ [.iret] = done ++ .keyboardHandler :: todo) :
    .keyboardHandler ∉ todo := by
  have hcount : (isrHandler n ++ [IrqAction.iret]).count .keyboardHandler ≤ 1 := by
    rw [isrHandler]
    split <;> split <;> decide
  intro hmem
  have hpos := List.count_pos_iff.2 hmem
  rw [h, List.count_append, List.count_cons_self] at hcount
  omega

section
variable {idt isr33 : U32} {s₀ s t : Irq} {e : IrqEvent}

/-- In `init_idt` the first byte of `init_pic` is either still to come or past. -/
theorem Starting.place (h : Starting idt isr33 s₀ s) :
    (∃ mid, (∀ a ∈ mid, a ≠ .keyboardHandler) ∧ s.todo = mid ++ afterGates isr33) ∨
      (∀ a ∈ s.todo, keepsRequests a = true ∧ a ≠ .keyboardHandler) := by
  obtain ⟨done, hdone, -⟩ := h.done
  rw [initIdt, eq_comm, List.append_eq_append_iff] at hdone
  obtain ⟨mid, hmid, htodo⟩ | ⟨mid, hmid, htodo⟩ := hdone
  · refine .inl ⟨mid, fun a ha => ?_, htodo⟩
    have hmem := hmid ▸ List.mem_append_right done ha
    obtain rfl | hmem := List.mem_cons.1 hmem
    · exact IrqAction.noConfusion
    · obtain ⟨i, -, rfl⟩ := List.mem_map.1 hmem
      exact IrqAction.noConfusion
  · cases mid with
    | nil => exact .inl ⟨[], by simp, htodo.symm⟩
    | cons a mid =>
        refine .inr fun b hb => afterIcw1_keeps isr33 b ?_
        rw [afterIcw1, htodo]
        exact List.mem_append_right mid hb

theorem Running.past (h : Running idt isr33 s) : Past s := by
  obtain ⟨hnil, -⟩ | ⟨n, done, hdone, -⟩ := h.code
  · intro a ha
    rw [hnil] at ha
    exact absurd ha List.not_mem_nil
  · exact fun a ha => isrHandler_keeps n a (hdone ▸ List.mem_append_right done ha)

theorem Running.keyboard_notMem (h : Running idt isr33 s) {todo : List IrqAction}
    (ha : s.todo = .keyboardHandler :: todo) : .keyboardHandler ∉ todo := by
  obtain ⟨hnil, -⟩ | ⟨n, done, hdone, -⟩ := h.code
  · rw [hnil] at ha
    cases ha
  · exact keyboard_once (ha ▸ hdone)

/-- The next action in `init_idt`: before the first byte of `init_pic`, that byte,
or after it. -/
theorem Starting.next_cases (h : Starting idt isr33 s₀ s) {a : IrqAction} {todo : List IrqAction}
    (ha : s.todo = a :: todo) :
    a ≠ .keyboardHandler ∧
      (.outb 0x20 0x11 ∈ todo ∨ (a = .outb 0x20 0x11 ∧ todo = afterIcw1 isr33) ∨
        (∀ b ∈ a :: todo, keepsRequests b = true ∧ b ≠ .keyboardHandler)) := by
  obtain ⟨mid, hmid, htodo⟩ | hafter := h.place
  · rw [ha] at htodo
    cases mid with
    | nil =>
        obtain ⟨rfl, rfl⟩ := List.cons.inj htodo
        exact ⟨IrqAction.noConfusion, .inr (.inl ⟨rfl, rfl⟩)⟩
    | cons b mid =>
        obtain ⟨rfl, rfl⟩ := List.cons.inj htodo
        exact ⟨hmid a List.mem_cons_self, .inl (List.mem_append_right mid List.mem_cons_self)⟩
  · rw [ha] at hafter
    exact ⟨(hafter a List.mem_cons_self).2, .inr (.inr hafter)⟩

/-! ## `Held` -/

theorem not_past {s : Irq} (h : .outb 0x20 0x11 ∈ s.todo) : ¬ Past s :=
  fun hpast => Bool.false_ne_true (hpast _ h)

theorem Held.press (h : Held s) (k : U8) :
    Held { s with board := s.board.press k } where
  asked := fun _ => by
    show (s.board.press k).keys ≠ []
    rw [keys_press]
    exact List.append_ne_nil_of_right_ne_nil _ (List.cons_ne_nil _ _)
  handler := fun hmem => by
    obtain ⟨hkeys, hedge⟩ := h.handler hmem
    show (s.board.press k).keys ≠ [] ∧ edge (s.board.press k).pics = false
    rw [keys_press, edge_press, hedge, decide_eq_false hkeys]
    exact ⟨List.append_ne_nil_of_right_ne_nil _ (List.cons_ne_nil _ _), rfl⟩

theorem Held.raise (h : Held s) {n : Nat} (hn : n ≠ 1) :
    Held { s with board := { s.board with pics := s.board.pics.raise n } } where
  asked := fun hedge => h.asked (edge_raise_of_ne _ hn ▸ hedge)
  handler := fun hmem => ⟨(h.handler hmem).1, (edge_raise_of_ne _ hn).trans (h.handler hmem).2⟩

theorem Held.next (h : Held s) {a : IrqAction} {todo : List IrqAction} (ha : s.todo = a :: todo)
    (hkeep : keepsRequests a = true) (hne : a ≠ .keyboardHandler) :
    Held (perform a { s with todo }) := by
  obtain ⟨hkeys, -, -, htodo⟩ := keys_perform hne { s with todo }
  have hedge := edge_perform hkeep hne { s with todo }
  refine ⟨fun h' => hkeys ▸ h.asked (hedge ▸ h'), fun hmem => ?_⟩
  rw [htodo] at hmem
  rw [hkeys, hedge]
  exact h.handler (ha ▸ List.mem_cons_of_mem a hmem)

/-- `keyboard_handler` reads the byte it was called for; another one behind it is a
new request. -/
theorem Held.read (h : Held s) {todo : List IrqAction} (ha : s.todo = .keyboardHandler :: todo)
    (honce : .keyboardHandler ∉ todo) :
    ∃ k ks, s.board.keys = k :: ks ∧
      Held (perform .keyboardHandler { s with todo }) ∧
      (perform .keyboardHandler { s with todo }).board.keys = ks ∧
      (perform .keyboardHandler { s with todo }).handled = s.handled ++ [k] ∧
      edge (perform .keyboardHandler { s with todo }).board.pics = decide (ks ≠ []) := by
  obtain ⟨hne, hedge⟩ := h.handler (ha ▸ List.mem_cons_self)
  obtain ⟨k, ks, hkeys⟩ := List.exists_cons_of_ne_nil hne
  obtain ⟨hk, hks, hup⟩ := readData_of_cons hkeys
  rw [hedge, Bool.false_or] at hup
  refine ⟨k, ks, hkeys, ⟨fun hasked => ?_, fun hmem => absurd hmem honce⟩, hks,
    congrArg (s.handled ++ [·]) hk, hup⟩
  have hasked' : decide (ks ≠ []) = true := hup.symm.trans hasked
  show s.board.readData.2.keys ≠ []
  rw [hks]
  exact of_decide_eq_true hasked'

theorem edge_icw1 (p : Pics) : edge (p.outb 0x20 0x11) = false := by
  simp [edge, Pics.outb, Pic.command]

end

/-! ## `Sound` -/

/-- Where the kernel is, and that from the first byte of `init_pic` on the keyboard's
bytes are held. -/
structure Sound (idt isr33 : U32) (s₀ s : Irq) : Prop where
  place : Starting idt isr33 s₀ s ∨ Running idt isr33 s
  held : Past s → Held s

section
variable {idt isr33 : U32} {s₀ s t : Irq} {e : IrqEvent}

theorem Sound.next (h : Sound idt isr33 s₀ s) {a : IrqAction} {todo : List IrqAction}
    (ha : s.todo = a :: todo) (hpast : Past (perform a { s with todo })) :
    Held (perform a { s with todo }) := by
  obtain hs | hr := h.place
  · obtain ⟨hne, hto | ⟨rfl, rfl⟩ | hafter⟩ := hs.next_cases ha
    · refine absurd hpast (not_past ?_)
      rw [(keys_perform hne _).2.2.2]
      exact hto
    · refine ⟨fun hup => ?_, fun hmem => ?_⟩
      · exact absurd (hup.symm.trans (edge_icw1 s.board.pics)) Bool.noConfusion
      · exact absurd rfl (afterIcw1_keeps isr33 _ hmem).2
    · have hheld := h.held fun b hb => (hafter b (ha ▸ hb)).1
      exact hheld.next ha (hafter a List.mem_cons_self).1 hne
  · have hheld := h.held hr.past
    by_cases hkey : a = .keyboardHandler
    · obtain rfl := hkey
      obtain ⟨_, _, -, hread, -⟩ := hheld.read ha (hr.keyboard_notMem ha)
      exact hread
    · exact hheld.next ha (hr.past a (ha ▸ List.mem_cons_self)) hkey

theorem Sound.interrupt (h : Sound idt isr33 s₀ s) {n : U32} {v : U8} {pics : Pics}
    (hflag : s.intFlag = true) (hack : s.board.pics.ack = some (v, pics)) :
    Running idt isr33 s ∧ s.board.keys ≠ [] ∧ s.todo = [] ∧ edge pics = false ∧
      deliver idt isr33 v n
          { s with board := { s.board with pics := pics }, taken := s.taken ++ [v] } =
        { s with
          board := { s.board with pics := pics }, taken := s.taken ++ [33], intFlag := false
          todo := isrHandler n ++ [.iret] } := by
  obtain hs | hr := h.place
  · rw [hs.intFlag] at hflag
    cases hflag
  · obtain ⟨rfl, htodo, hup, hdown, -, htake⟩ := hr.interrupt hflag hack n
    exact ⟨hr, (h.held hr.past).asked hup, htodo, hdown, htake⟩

theorem Sound.step (h : Sound idt isr33 s₀ s) (hstep : irqStep idt isr33 s e = some t) :
    Sound idt isr33 s₀ t := by
  refine ⟨h.place.elim (·.step hstep) fun hr => .inr (hr.step hstep), fun hpast => ?_⟩
  obtain ⟨k, rfl, rfl⟩ | ⟨n, rfl, hn, rfl⟩ | ⟨a, todo, rfl, ha, rfl⟩ |
    ⟨n, v, pics, rfl, hflag, hack, rfl⟩ := irqStep_cases hstep
  · exact (h.held hpast).press k
  · exact (h.held hpast).raise hn
  · exact h.next ha hpast
  · obtain ⟨-, hkeys, -, hdown, htake⟩ := h.interrupt (n := n) hflag hack
    rw [htake]
    exact ⟨fun hup => absurd (hup.symm.trans hdown) Bool.noConfusion, fun _ => ⟨hkeys, hdown⟩⟩

/-- Each step moves the keyboard's bytes on: what it reads leaves at the front, what
is pressed joins at the back. -/
theorem Sound.conserves (h : Sound idt isr33 s₀ s) (hstep : irqStep idt isr33 s e = some t) :
    t.handled ++ t.board.keys = s.handled ++ s.board.keys ++ e.pressed := by
  obtain ⟨k, rfl, rfl⟩ | ⟨n, rfl, hn, rfl⟩ | ⟨a, todo, rfl, ha, rfl⟩ |
    ⟨n, v, pics, rfl, hflag, hack, rfl⟩ := irqStep_cases hstep
  · rw [List.append_assoc]
    exact congrArg (s.handled ++ ·) (keys_press _ _)
  · exact (List.append_nil _).symm
  · have hnone : IrqEvent.next.pressed = [] := rfl
    rw [hnone, List.append_nil]
    by_cases hkey : a = .keyboardHandler
    · obtain rfl := hkey
      obtain hs | hr := h.place
      · exact absurd rfl (hs.next_cases ha).1
      · obtain ⟨k, ks, hkeys, -, hks, hhandled, -⟩ :=
          (h.held hr.past).read ha (hr.keyboard_notMem ha)
        rw [hks, hhandled, hkeys, List.append_assoc]
        rfl
    · obtain ⟨hkeys, hhandled, -, -⟩ := keys_perform hkey { s with todo }
      rw [hkeys, hhandled]
  · obtain ⟨-, -, -, -, htake⟩ := h.interrupt (n := n) hflag hack
    rw [htake]
    exact (List.append_nil _).symm

/-! ## Bytes nobody looks after -/

/-- A kernel that is deaf stays so, whatever is pressed. -/
theorem Deaf.step (hd : Deaf s) (h : Sound idt isr33 s₀ s)
    (hstep : irqStep idt isr33 s e = some t) :
    Deaf t ∧ t.taken = s.taken ∧ t.handled = s.handled := by
  obtain ⟨k, rfl, rfl⟩ | ⟨n, rfl, hn, rfl⟩ | ⟨a, todo, rfl, ha, rfl⟩ |
    ⟨n, v, pics, rfl, hflag, hack, rfl⟩ := irqStep_cases hstep
  · refine ⟨⟨hd.past, ?_, ?_, hd.handler⟩, rfl, rfl⟩
    · show (s.board.press k).keys ≠ []
      rw [keys_press]
      exact List.append_ne_nil_of_right_ne_nil _ (List.cons_ne_nil _ _)
    · show Proofs.edge (s.board.press k).pics = false
      rw [edge_press, hd.edge, decide_eq_false hd.keys]
      rfl
  · exact ⟨⟨hd.past, hd.keys, (edge_raise_of_ne _ hn).trans hd.edge, hd.handler⟩, rfl, rfl⟩
  · have hmem : a ∈ s.todo := ha ▸ List.mem_cons_self
    have hne : a ≠ .keyboardHandler := fun heq => hd.handler (heq ▸ hmem)
    obtain ⟨hkeys, hhandled, htaken, htodo⟩ := keys_perform hne { s with todo }
    have hedge := edge_perform (hd.past a hmem) hne { s with todo }
    refine ⟨⟨fun b hb => ?_, hkeys ▸ hd.keys, hedge.trans hd.edge, fun hb => ?_⟩, htaken, hhandled⟩
    · rw [htodo] at hb
      exact hd.past b (ha ▸ List.mem_cons_of_mem a hb)
    · rw [htodo] at hb
      exact hd.handler (ha ▸ List.mem_cons_of_mem a hb)
  · obtain ⟨hr, -⟩ := h.interrupt (n := n) hflag hack
    obtain ⟨-, -, hup, -⟩ := hr.interrupt hflag hack n
    rw [hd.edge] at hup
    cases hup

/-- One interrupt whose stub hands over another number makes the kernel deaf. -/
theorem Sound.deaf_of_interrupt (h : Sound idt isr33 s₀ s) {n : U32} (hn : n ≠ 33)
    (hstep : irqStep idt isr33 s (.interrupt n) = some t) :
    Deaf t ∧ t.taken = s.taken ++ [33] ∧ t.handled = s.handled := by
  obtain ⟨_, h', -⟩ | ⟨_, h', -⟩ | ⟨_, _, h', -⟩ | ⟨m, v, pics, h', hflag, hack, rfl⟩ :=
    irqStep_cases hstep
  · cases h'
  · cases h'
  · cases h'
  · obtain rfl := IrqEvent.interrupt.inj h'
    obtain ⟨-, hkeys, -, hdown, htake⟩ := h.interrupt (n := n) hflag hack
    rw [htake]
    exact ⟨⟨isrHandler_keeps n, hkeys, hdown, fun hmem => hn (mem_isrHandler_keyboard.1 hmem)⟩,
      rfl, rfl⟩

/-- No interrupt has been taken yet. -/
structure Unserved (s : Irq) : Prop where
  taken : s.taken = []
  handled : s.handled = []
  handler : .keyboardHandler ∉ s.todo

theorem Unserved.step (hq : Unserved s) (he : ∀ n : U32, e ≠ .interrupt n)
    (hstep : irqStep idt isr33 s e = some t) : Unserved t := by
  obtain ⟨k, rfl, rfl⟩ | ⟨n, rfl, -, rfl⟩ | ⟨a, todo, rfl, ha, rfl⟩ | ⟨n, _, _, rfl, -⟩ :=
    irqStep_cases hstep
  · exact ⟨hq.taken, hq.handled, hq.handler⟩
  · exact ⟨hq.taken, hq.handled, hq.handler⟩
  · have hne : a ≠ .keyboardHandler := fun heq => hq.handler (ha ▸ heq ▸ List.mem_cons_self)
    obtain ⟨-, hhandled, htaken, htodo⟩ := keys_perform hne { s with todo }
    refine ⟨htaken.trans hq.taken, hhandled.trans hq.handled, fun hmem => ?_⟩
    rw [htodo] at hmem
    exact hq.handler (ha ▸ List.mem_cons_of_mem a hmem)
  · exact absurd rfl (he n)

/-! ## Bytes that are looked after -/

theorem Owed.step (ho : Owed s) (hp : Past s) (h : Sound idt isr33 s₀ s)
    (he : ∀ n : U32, e = .interrupt n → n = 33) (hstep : irqStep idt isr33 s e = some t) :
    Owed t ∧ Past t := by
  obtain ⟨k, rfl, rfl⟩ | ⟨n, rfl, hn, rfl⟩ | ⟨a, todo, rfl, ha, rfl⟩ |
    ⟨n, v, pics, rfl, hflag, hack, rfl⟩ := irqStep_cases hstep
  · refine ⟨fun _ => ?_, hp⟩
    show edge (s.board.press k).pics = true ∨ _
    rw [edge_press]
    by_cases hkeys : s.board.keys = []
    · exact .inl (by rw [decide_eq_true hkeys, Bool.or_true])
    · exact (ho hkeys).imp_left fun hup => by rw [hup, Bool.true_or]
  · exact ⟨fun hkeys => (ho hkeys).imp_left (edge_raise_of_ne _ hn).trans, hp⟩
  · have hmem : a ∈ s.todo := ha ▸ List.mem_cons_self
    by_cases hkey : a = .keyboardHandler
    · obtain rfl := hkey
      obtain hs | hr := h.place
      · exact absurd rfl (hs.next_cases ha).1
      · obtain ⟨k, ks, -, -, hks, -, hup⟩ := (h.held hp).read ha (hr.keyboard_notMem ha)
        refine ⟨fun hkeys => .inl ?_, fun b hb => hp b (ha ▸ List.mem_cons_of_mem _ hb)⟩
        rw [hks] at hkeys
        exact hup.trans (decide_eq_true hkeys)
    · obtain ⟨hkeys, -, -, htodo⟩ := keys_perform hkey { s with todo }
      have hedge := edge_perform (hp a hmem) hkey { s with todo }
      refine ⟨fun hk => ?_, fun b hb => ?_⟩
      · rw [hkeys] at hk
        rw [hedge, htodo]
        refine (ho hk).imp_right fun hb => ?_
        rw [ha] at hb
        exact (List.mem_cons.1 hb).resolve_left (Ne.symm hkey)
      · rw [htodo] at hb
        exact hp b (ha ▸ List.mem_cons_of_mem a hb)
  · obtain ⟨-, -, -, -, htake⟩ := h.interrupt (n := n) hflag hack
    rw [htake]
    exact ⟨fun _ => .inr (mem_isrHandler_keyboard.2 (he n rfl)), isrHandler_keeps n⟩

/-- How much there is still to do, once nothing is pressed any more. An interrupt
adds its handler, and is paid for by the byte the handler will read. -/
def work (s : Irq) : Nat :=
  10 * s.board.keys.length + s.todo.length - if .keyboardHandler ∈ s.todo then 5 else 0

/-- Unless all is done, the processor has a step that leaves less to do. -/
theorem Sound.works (h : Sound idt isr33 s₀ s) (ho : Owed s) (hp : Past s)
    (hbusy : ¬ (s.todo = [] ∧ s.board.keys = [])) :
    ∃ e t, e.OfCpu ∧ irqStep idt isr33 s e = some t ∧ work t < work s := by
  cases ha : s.todo with
  | nil =>
      have hkeys : s.board.keys ≠ [] := fun hk => hbusy ⟨ha, hk⟩
      have hlen := List.length_pos_of_ne_nil hkeys
      have hup : edge s.board.pics = true :=
        (ho hkeys).resolve_right fun hmem => List.not_mem_nil (ha ▸ hmem)
      have hr := h.place.resolve_left fun hs => hs.todo ha
      obtain ⟨-, hflag, hset⟩ | ⟨_, _, -, hne, -⟩ := hr.code
      · obtain ⟨pics, hack, -⟩ := ack_configured hset
        rw [if_pos hup] at hack
        obtain ⟨-, -, -, -, htake⟩ := h.interrupt (n := 33) hflag hack
        have hstep : irqStep idt isr33 s (.interrupt 33) = some (deliver idt isr33 33 33
            { s with board := { s.board with pics := pics }, taken := s.taken ++ [33] }) := by
          rw [irqStep, if_pos hflag, hack]
          rfl
        rw [htake] at hstep
        refine ⟨.interrupt 33, _, .inr rfl, hstep, ?_⟩
        have hmem : .keyboardHandler ∈ isrHandler 33 ++ [IrqAction.iret] :=
          mem_isrHandler_keyboard.2 rfl
        have hthree : (isrHandler 33 ++ [IrqAction.iret]).length = 3 := rfl
        simp only [work, ha, if_pos hmem, if_neg List.not_mem_nil, hthree, List.length_nil]
        omega
      · exact absurd ha hne
  | cons a todo =>
      have hheld := h.held hp
      refine ⟨.next, perform a { s with todo }, .inl rfl, by rw [irqStep, ha], ?_⟩
      by_cases hkey : a = .keyboardHandler
      · obtain rfl := hkey
        obtain hs | hr := h.place
        · exact absurd rfl (hs.next_cases ha).1
        · have honce := hr.keyboard_notMem ha
          obtain ⟨k, ks, hkeys, -, hks, -, -⟩ := hheld.read ha honce
          have htodo : (perform .keyboardHandler { s with todo }).todo = todo := rfl
          simp only [work, hks, htodo, hkeys, ha, List.length_cons, if_neg honce]
          split <;> omega
      · obtain ⟨hkeys, -, -, htodo⟩ := keys_perform hkey { s with todo }
        have hiff : .keyboardHandler ∈ a :: todo ↔ .keyboardHandler ∈ todo := by
          rw [List.mem_cons]
          exact ⟨fun hm => hm.resolve_left (Ne.symm hkey), .inr⟩
        simp only [work, hkeys, htodo, ha, hiff, List.length_cons]
        split
        · next hmem =>
            have hne := (hheld.handler (ha ▸ hiff.2 hmem)).1
            have hlen := List.length_pos_of_ne_nil hne
            omega
        · omega

end

/-! ## Whole runs -/

section
variable {idt isr33 : U32} {board : Board} {table : U8 → IdtEntry} {idtr : U16 × U32}
  {es : List IrqEvent} {s t : Irq}

theorem atInitIdt_sound :
    Sound idt isr33 (atInitIdt idt isr33 board table idtr)
      (atInitIdt idt isr33 board table idtr) := by
  refine ⟨.inl ?_, fun hpast => absurd hpast (not_past ?_)⟩
  · exact
      { todo := List.cons_ne_nil _ _, done := ⟨[], rfl, rfl⟩, intFlag := rfl, fault := rfl
        taken := rfl, handled := rfl, keyboard := rfl }
  · exact List.mem_append_right _ List.mem_cons_self

theorem atInitIdt_keyboard (idt isr33 : U32) : .keyboardHandler ∉ initIdt idt isr33 := by
  rw [initIdt_eq, List.mem_append]
  rintro (h | h)
  · cases isSetup_of_mem idt isr33 h
  · cases List.mem_singleton.1 h

theorem run_sound {s₀ : Irq} (h : Sound idt isr33 s₀ s)
    (hrun : Events.run (irqStep idt isr33) s es = some t) : Sound idt isr33 s₀ t :=
  Events.invariant (A := fun _ => True) (fun _ _ _ _ h hstep => h.step hstep) hrun
    (fun _ _ => trivial) h

theorem run_conserves {s₀ : Irq} (h : Sound idt isr33 s₀ s)
    (hrun : Events.run (irqStep idt isr33) s es = some t) :
    t.handled ++ t.board.keys = s.handled ++ s.board.keys ++ es.flatMap IrqEvent.pressed :=
  Events.record (A := fun _ => True) (P := Sound idt isr33 s₀)
    (f := fun s => s.handled ++ s.board.keys) (fun _ _ _ _ h hstep => h.step hstep)
    (fun _ _ _ _ h hstep => h.conserves hstep) hrun (fun _ _ => trivial) h

theorem run_deaf {s₀ : Irq} (h : Sound idt isr33 s₀ s) (hd : Deaf s)
    (hrun : Events.run (irqStep idt isr33) s es = some t) :
    Deaf t ∧ t.taken = s.taken ∧ t.handled = s.handled := by
  refine (Events.invariant (A := fun _ => True) (P := fun t => Sound idt isr33 s₀ t ∧
    Deaf t ∧ t.taken = s.taken ∧ t.handled = s.handled) ?_ hrun (fun _ _ => trivial)
    ⟨h, hd, rfl, rfl⟩).2
  intro r e t _ hr hstep
  obtain ⟨hr, hd, htaken, hhandled⟩ := hr
  obtain ⟨hd', htaken', hhandled'⟩ := hd.step hr hstep
  exact ⟨hr.step hstep, hd', htaken'.trans htaken, hhandled'.trans hhandled⟩

theorem run_owed {s₀ : Irq} (h : Sound idt isr33 s₀ s) (ho : Owed s) (hp : Past s)
    (hrun : Events.run (irqStep idt isr33) s es = some t)
    (hstub : ∀ n : U32, .interrupt n ∈ es → n = 33) :
    Sound idt isr33 s₀ t ∧ Owed t ∧ Past t := by
  refine Events.invariant (A := fun e => ∀ n : U32, e = .interrupt n → n = 33)
    (P := fun t => Sound idt isr33 s₀ t ∧ Owed t ∧ Past t) ?_ hrun
    (fun e he n heq => hstub n (heq ▸ he)) ⟨h, ho, hp⟩
  intro r e t he hr hstep
  obtain ⟨hr, ho, hp⟩ := hr
  exact ⟨hr.step hstep, ho.step hp hr he hstep⟩

/-- Left to itself, the processor serves every byte that is waiting and finishes
what it is doing. -/
theorem Sound.settles {s₀ : Irq} (h : Sound idt isr33 s₀ s) (ho : Owed s) (hp : Past s) :
    ∃ cpu u, (∀ e ∈ cpu, e.OfCpu) ∧ Events.run (irqStep idt isr33) s cpu = some u ∧
      u.todo = [] ∧ u.board.keys = [] ∧ u.handled = s.handled ++ s.board.keys := by
  have hnext : ∀ r, Sound idt isr33 s₀ r ∧ Owed r ∧ Past r →
      ¬ (r.todo = [] ∧ r.board.keys = []) → ∃ e t, e.OfCpu ∧ irqStep idt isr33 r e = some t ∧
        (Sound idt isr33 s₀ t ∧ Owed t ∧ Past t) ∧ work t < work r := by
    rintro r ⟨hr, ho, hp⟩ hbusy
    obtain ⟨e, t, he, hstep, hlt⟩ := hr.works ho hp hbusy
    refine ⟨e, t, he, hstep, ⟨hr.step hstep, ho.step hp hr (fun n heq => ?_) hstep⟩, hlt⟩
    obtain rfl | rfl := he
    · cases heq
    · exact (IrqEvent.interrupt.inj heq).symm
  obtain ⟨cpu, u, hcpu, hu, -, htodo, hdone⟩ := Events.reaches work hnext ⟨h, ho, hp⟩
  have hmoved := run_conserves h hu
  have hnone : cpu.flatMap IrqEvent.pressed = [] := by
    refine List.flatMap_eq_nil_iff.2 fun e he => ?_
    obtain rfl | rfl := hcpu e he <;> rfl
  rw [hnone, List.append_nil, hdone, List.append_nil] at hmoved
  exact ⟨cpu, u, hcpu, hu, htodo, hdone, hmoved⟩

/-- In any run, from any state of the devices and whatever the stub hands over: the
bytes `keyboard_handler` has read and those still waiting are the ones that came, in
order; the screen shows what it makes of those it has read; and no interrupt but the
keyboard's is ever taken. -/
theorem keys_in_order (hrun : Events.run (irqStep idt isr33)
      (atInitIdt idt isr33 board table idtr) es = some t) :
    t.handled ++ t.board.keys = board.keys ++ es.flatMap IrqEvent.pressed ∧
      t.keyboard = keyboardRun t.handled ∧ (∀ v ∈ t.taken, v = 33) ∧ t.fault = false := by
  have hsound := run_sound atInitIdt_sound hrun
  refine ⟨run_conserves atInitIdt_sound hrun, ?_⟩
  obtain hs | hr := hsound.place
  · refine ⟨?_, fun v hv => absurd (hs.taken ▸ hv) List.not_mem_nil, hs.fault⟩
    rw [hs.keyboard, hs.handled]
    rfl
  · exact ⟨hr.keyboard, hr.taken, hr.fault⟩

/-- Chips as the firmware leaves them, and nothing waiting. -/
def coldBoard : Board where
  pics :=
    { master := { configured.master with base := 0x08, imr := 0xB8 }
      slave := { configured.slave with base := 0x70, imr := 0x8F } }
  keys := []
  last := 0

/-- `init_idt`, a key, a tick, and the key's interrupt, with another key while it is
served. -/
def twoKeys : List IrqEvent :=
  List.replicate 270 .next ++
    [.press 0x1E, .edge 0, .interrupt 33, .next, .press 0x30, .next, .next]

def coldStart : Irq :=
  atInitIdt 0x106000 0x100300 coldBoard (fun _ => idtGate 0 0 0) (0, 0)

theorem twoKeys_isSome :
    (Events.run (irqStep 0x106000 0x100300) coldStart twoKeys).isSome = true := by
  decide +kernel

theorem keys_in_order_twoKeys :
    ∃ t, Events.run (irqStep 0x106000 0x100300) coldStart twoKeys = some t ∧
      t.handled ++ t.board.keys = [0x1E, 0x30] ∧ t.keyboard = keyboardRun t.handled ∧
      (∀ v ∈ t.taken, v = 33) ∧ t.fault = false := by
  have hpressed : coldBoard.keys ++ twoKeys.flatMap IrqEvent.pressed = [0x1E, 0x30] := by
    decide +kernel
  obtain ⟨t, ht⟩ := Option.isSome_iff_exists.1 twoKeys_isSome
  rw [← hpressed]
  exact ⟨t, ht, keys_in_order ht⟩

/-- With a stub that hands on its vector and returns, the keyboard is served for good
or not at all, and what decides is whether a byte is waiting when `init_pic` sends its
first: if not, then wherever a run has got to the processor alone can finish all there
is to do, with every byte read; if so, no interrupt is taken in any run and no byte
read. -/
theorem keyboard_alive
    (hrun : Events.run (irqStep idt isr33) (atInitIdt idt isr33 board table idtr) es = some s)
    (hs : s.todo = afterGates isr33) :
    (s.board.keys = [] → ∀ es' t, Events.run (irqStep idt isr33) s (.next :: es') = some t →
      (∀ n : U32, .interrupt n ∈ es' → n = 33) →
      ∃ cpu u, (∀ e ∈ cpu, e.OfCpu) ∧ Events.run (irqStep idt isr33) t cpu = some u ∧
        u.todo = [] ∧ u.board.keys = [] ∧ u.handled = t.handled ++ t.board.keys) ∧
    (s.board.keys ≠ [] → ∀ es' t, Events.run (irqStep idt isr33) s (.next :: es') = some t →
      t.taken = [] ∧ t.handled = []) := by
  have hsound := run_sound atInitIdt_sound hrun
  have hstart := hsound.place.resolve_right fun hr =>
    not_past (hs ▸ List.mem_cons_self) hr.past
  have hfirst : irqStep idt isr33 s .next =
      some (perform (.outb 0x20 0x11) { s with todo := afterIcw1 isr33 }) := by
    rw [irqStep, hs]
    rfl
  have hpast : Past (perform (.outb 0x20 0x11) { s with todo := afterIcw1 isr33 }) :=
    fun a ha => (afterIcw1_keeps isr33 a ha).1
  have hsound' := hsound.step hfirst
  refine ⟨fun hkeys es' t hrun' hstub => ?_, fun hkeys es' t hrun' => ?_⟩
  all_goals
    rw [Events.run_cons, hfirst] at hrun'
  · obtain ⟨ht, ho, hp⟩ := run_owed hsound' (fun hk => absurd hkeys hk) hpast hrun' hstub
    exact ht.settles ho hp
  · have hdeaf : Deaf (perform (.outb 0x20 0x11) { s with todo := afterIcw1 isr33 }) :=
      { past := hpast, keys := hkeys, edge := edge_icw1 _
        handler := fun hmem => (afterIcw1_keeps isr33 _ hmem).2 rfl }
    obtain ⟨-, htaken, hhandled⟩ := run_deaf hsound' hdeaf hrun'
    exact ⟨htaken.trans hstart.taken, hhandled.trans hstart.handled⟩

theorem coldStart_afterGates :
    (Events.run (irqStep 0x106000 0x100300) coldStart (List.replicate 257 .next)).any
      (fun s => s.todo == afterGates 0x100300) = true := by
  decide +kernel

theorem keyboard_alive_cold :
    ∃ s, Events.run (irqStep 0x106000 0x100300) coldStart (List.replicate 257 .next) = some s ∧
      (s.board.keys = [] → ∀ es' t,
        Events.run (irqStep 0x106000 0x100300) s (.next :: es') = some t →
        (∀ n : U32, .interrupt n ∈ es' → n = 33) →
        ∃ cpu u, (∀ e ∈ cpu, e.OfCpu) ∧
          Events.run (irqStep 0x106000 0x100300) t cpu = some u ∧
          u.todo = [] ∧ u.board.keys = [] ∧ u.handled = t.handled ++ t.board.keys) ∧
      (s.board.keys ≠ [] → ∀ es' t,
        Events.run (irqStep 0x106000 0x100300) s (.next :: es') = some t →
        t.taken = [] ∧ t.handled = []) := by
  have hany := coldStart_afterGates
  cases hrun : Events.run (irqStep 0x106000 0x100300) coldStart (List.replicate 257 .next) with
  | none =>
      rw [hrun] at hany
      cases hany
  | some s =>
      rw [hrun] at hany
      exact ⟨s, rfl, keyboard_alive hrun (eq_of_beq hany)⟩

/-- A stub that hands over what the one of `kernel/isr.s` does, the data segment of the
interrupted code in the place of the vector, and yet returns to that code. `isr_handler`
never gets to the keyboard: no byte is ever read, and from the first interrupt on the
port is full, so the line makes no edge and the first interrupt is the last. -/
theorem isr_stub_deafens (hrun : Events.run (irqStep idt isr33)
      (atInitIdt idt isr33 board table idtr) es = some t)
    (hstub : ∀ n : U32, .interrupt n ∈ es → ∃ ra sel off c,
      n = X86.argument (isrHandlerAt ra 33 sel off c) ∧ c.ds ≠ 33) :
    t.handled = [] ∧ (t.taken = [] ∨ t.taken = [33] ∧ Deaf t) := by
  have hother : ∀ n : U32, .interrupt n ∈ es → n ≠ 33 := by
    rintro _ hmem rfl
    obtain ⟨ra, sel, off, c, harg, hds⟩ := hstub 33 hmem
    rw [isrHandlerAt_argument] at harg
    refine hds ?_
    have hlow := congrArg (fun n : U32 => n.setWidth 16) harg
    exact (hlow.trans BitVec.setWidth_append_eq_right).symm
  obtain ⟨-, hend⟩ := Events.invariant (A := fun e => ∀ n : U32, e = .interrupt n → n ≠ 33)
    (P := fun t => Sound idt isr33 (atInitIdt idt isr33 board table idtr) t ∧
      (Unserved t ∨ (Deaf t ∧ t.handled = [] ∧ t.taken = [33])))
    (by
      intro s e t he hs hstep
      obtain ⟨h, hq⟩ := hs
      refine ⟨h.step hstep, ?_⟩
      obtain hq | ⟨hd, hhandled, htaken⟩ := hq
      · cases e with
        | interrupt n =>
            obtain ⟨hd, htaken, hhandled⟩ := h.deaf_of_interrupt (he n rfl) hstep
            rw [hq.taken] at htaken
            exact .inr ⟨hd, hhandled.trans hq.handled, htaken⟩
        | _ => exact .inl (hq.step (fun _ => IrqEvent.noConfusion) hstep)
      · obtain ⟨hd', htaken', hhandled'⟩ := hd.step h hstep
        exact .inr ⟨hd', hhandled'.trans hhandled, htaken'.trans htaken⟩) hrun
    (fun e he n heq => hother n (heq ▸ he))
    ⟨atInitIdt_sound, .inl ⟨rfl, rfl, atInitIdt_keyboard idt isr33⟩⟩
  obtain hq | ⟨hd, hhandled, htaken⟩ := hend
  · exact ⟨hq.handled, .inl hq.taken⟩
  · exact ⟨hhandled, .inr ⟨htaken, hd⟩⟩

/-- `init_idt`, a key, and its interrupt of an idle kernel with flat segments. -/
def idleKey : List IrqEvent :=
  List.replicate 270 .next ++ [.press 0x1E, .interrupt 0x10, .next, .next]

theorem idleKey_isSome :
    (Events.run (irqStep 0x106000 0x100300) coldStart idleKey).isSome = true := by
  decide +kernel

theorem isr_stub_deafens_idle :
    ∃ t, Events.run (irqStep 0x106000 0x100300) coldStart idleKey = some t ∧
      t.handled = [] ∧ (t.taken = [] ∨ t.taken = [33] ∧ Deaf t) := by
  obtain ⟨t, ht⟩ := Option.isSome_iff_exists.1 idleKey_isSome
  refine ⟨t, ht, isr_stub_deafens ht fun n hn => ?_⟩
  have h10 : n = 0x10 := by
    obtain hn | hn := List.mem_append.1 hn
    · cases List.eq_of_mem_replicate hn
    · simpa using hn
  refine ⟨0x100400, 0x08, 0x100000, X86.idleContext, ?_, by decide⟩
  rw [h10, isrHandlerAt_argument]
  rfl

end

end MicroKernel.Proofs
