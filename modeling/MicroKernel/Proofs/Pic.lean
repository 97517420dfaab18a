import MicroKernel.Kernel.Idt

/-!
# What the controllers make of the kernel's bytes

Edges come between the bytes a chip is sent, and they concern nothing but its
request register. So what a chip is set to, its `settings`, can be computed as
if nothing were going on around it.

Once `init_pic` is through, only the keyboard's line is open, and `edge` says
whether it asks for the processor. An interrupt that has been taken is ended by
`isr_handler`: it finds the line it was called for from the vector alone.
-/

namespace MicroKernel.Proofs

open Kernel

/-! ## Settings -/

theorem settings_command (p : Pic) (b : U8) :
    (p.command b).settings = p.settings.command b := by
  simp only [Pic.command, Pic.settings, Pic.setIrr, Pic.endOf]
  split
  · rfl
  · split
    · rfl
    · split
      · rfl
      · split <;> rfl

theorem settings_data (p : Pic) (b : U8) : (p.data b).settings = p.settings.data b := by
  obtain ⟨stage, _, _, _, _, _, _, _⟩ := p
  cases stage <;> rfl

theorem settings_outb (p : Pics) (port : U16) (val : U8) :
    (p.outb port val).settings = p.settings.outb port val := by
  simp only [Pics.outb, Pics.settings]
  split
  · rw [settings_command]
  · split
    · rw [settings_data]
    · split
      · rw [settings_command]
      · split
        · rw [settings_data]
        · rfl

@[simp] theorem settings_raise (p : Pics) (n : Nat) : (p.raise n).settings = p.settings := by
  rw [Pics.raise]
  split <;> rfl

/-! ## The keyboard's request -/

/-- The keyboard's line is requested. -/
def edge (p : Pics) : Bool := p.master.irr.getLsbD 1

theorem edge_raise (p : Pics) : edge (p.raise 1) = true := getLsbD_setLine _ (by decide) _ _

theorem edge_raise_of_ne (p : Pics) {n : Nat} (hn : n ≠ 1) : edge (p.raise n) = edge p := by
  rw [Pics.raise]
  split
  · next hlt => exact (getLsbD_setLine _ hlt _ _).trans (if_neg (Ne.symm hn))
  · rfl

theorem irr_command {p : Pic} {b : U8} (hb : b.getLsbD 4 = false) :
    (p.command b).irr = p.irr := by
  rw [Pic.command, if_neg (by rw [hb]; exact Bool.false_ne_true)]
  split
  · rfl
  · split
    · rfl
    · split <;> rfl

theorem irr_data (p : Pic) (b : U8) : (p.data b).irr = p.irr := by
  obtain ⟨stage, _, _, _, _, _, _, _⟩ := p
  cases stage <;> rfl

/-- Only the first word of an initialisation forgets a request. -/
theorem edge_outb (p : Pics) {port : U16} {val : U8}
    (h : port = 0x20 → val.getLsbD 4 = false) : edge (p.outb port val) = edge p := by
  simp only [edge, Pics.outb]
  split
  · next hport => rw [irr_command (h hport)]
  · split
    · rw [irr_data]
    · split
      · rfl
      · split <;> rfl

/-! ## After `init_pic` -/

/-- Both chips as `init_pic` leaves them. -/
def configured : Pics where
  master := { stage := .ready, icw1 := 0x11, base := 0x20, cascade := 0x04,
              autoEoi := false, imr := 0xFD, irr := 0, isr := 0 }
  slave := { stage := .ready, icw1 := 0x11, base := 0x28, cascade := 0x02,
             autoEoi := false, imr := 0xFF, irr := 0, isr := 0 }

/-- While the keyboard is being served. -/
def serving : Pics := { configured with master := { configured.master with isr := 0x02 } }

theorem only_keyboard (irr : U8) :
    priority (irr &&& ~~~0xFD) = if irr.getLsbD 1 then 1 else 8 := by
  have hmask : ∀ n < 8, (~~~0xFD : U8).getLsbD n = decide (n = 1) := by decide
  have hbit : ∀ n < 8, (irr &&& ~~~0xFD).getLsbD n = (decide (n = 1) && irr.getLsbD 1) := by
    intro n hn
    rw [BitVec.getLsbD_and, hmask n hn, Bool.and_comm]
    by_cases h : n = 1 <;> simp [h]
  split
  · next h =>
      refine priority_eq (by decide) ?_ fun m hm => ?_
      · rw [hbit 1 (by decide), h]
        rfl
      · rw [hbit m (by omega), decide_eq_false (Nat.ne_of_lt hm), Bool.false_and]
  · next h =>
      refine Nat.le_antisymm (priority_le _) (Nat.le_of_not_lt fun hlt => ?_)
      have hup := getLsbD_priority hlt
      rw [hbit _ hlt, eq_false_of_ne_true h, Bool.and_false] at hup
      cases hup

section
variable {p : Pics}

/-- The keyboard's request is all that the processor can be asked to serve, and it
is answered with vector 33. -/
theorem ack_configured (h : p.settings = configured) :
    ∃ p', p.ack = (if edge p then some (33, p') else none) ∧
      p'.settings = serving ∧ edge p' = false := by
  have himr : p.front.imr = 0xFD := congrArg (·.master.imr) h
  have hisr : p.front.isr = 0 := congrArg (·.master.isr) h
  have hbase : p.master.base = 0x20 := congrArg (·.master.base) h
  have hirr : p.front.irr.getLsbD 1 = edge p := getLsbD_setLine _ (by decide) _ _
  have hreq : p.front.request = if edge p then 1 else 8 := by
    simp only [Pic.request, himr, hisr, only_keyboard, hirr]
    cases edge p <;> rfl
  have hauto : p.front.autoEoi = false := congrArg (·.master.autoEoi) h
  refine ⟨{ p with master := p.front.serve 1 }, ?_, ?_, ?_⟩
  · simp only [Pics.ack, hreq, hbase]
    cases edge p <;> rfl
  · have hmaster : (p.front.serve 1).settings = { p.master.settings with isr := 0x02 } := by
      have hauto' : p.master.autoEoi = false := hauto
      simp only [Pic.settings, Pic.setIrr, Pic.serve, hauto, hisr, hauto']
      rfl
    have hslave : p.slave.settings = configured.slave := congrArg (·.slave) h
    have hm : p.master.settings = configured.master := congrArg (·.master) h
    rw [Pics.settings, hmaster, hslave, hm]
    rfl
  · exact (getLsbD_setLine _ (by decide) _ _).trans (if_pos rfl)

end

/-! ## The end of an interrupt -/

/-- Any of the lines, whatever else is masked, requested or in service. -/
theorem request_lt {p : Pic} (h : p.request ≠ 8) :
    p.request < 8 ∧ p.request < priority p.isr := by
  rw [Pic.request] at h ⊢
  split at h
  · next hlt =>
      rw [if_pos hlt]
      exact ⟨Nat.lt_of_lt_of_le hlt (priority_le _), hlt⟩
  · exact absurd rfl h

theorem settings_serve_eoi {p : Pic} (hauto : p.autoEoi = false) (h : p.request ≠ 8) :
    ((p.serve p.request).command 0x20).settings = p.settings := by
  obtain ⟨hlt, hfirst⟩ := request_lt h
  have hisr : (p.serve p.request).isr = setLine p.isr p.request true := by
    rw [Pic.serve, hauto]
    rfl
  have hback := setLine_priority_setLine hlt hfirst
  have hcommand : (p.serve p.request).command 0x20 =
      (p.serve p.request).endOf (priority (p.serve p.request).isr) := rfl
  rw [hcommand, Pic.endOf, hisr, hback]
  rfl

theorem slave_request_of_front {p : Pics} (h : p.front.request = 2) : p.slave.request ≠ 8 := by
  intro h8
  have hlow : p.front.irr.getLsbD 2 = false := by
    refine (getLsbD_setLine _ (by decide) _ _).trans ?_
    rw [if_pos rfl, h8]
    rfl
  have hpri : priority (p.front.irr &&& ~~~p.front.imr) = 2 := by
    rw [Pic.request] at h
    split at h
    · exact h
    · cases h
  have hlt : priority (p.front.irr &&& ~~~p.front.imr) < 8 := by omega
  have hup := getLsbD_priority hlt
  rw [hpri, BitVec.getLsbD_and, hlow, Bool.false_and] at hup
  cases hup

/-- The bytes an action sends to the chips. -/
def sent : IrqAction → List (U16 × U8)
  | .outb port val => [(port, val)]
  | _ => []

theorem settings_outs (p : Pics) (log : List (U16 × U8)) :
    (p.outs log).settings = p.settings.outs log := by
  induction log generalizing p with
  | nil => rfl
  | cons o log ih => exact (ih _).trans (congrArg (·.outs log) (settings_outb p o.1 o.2))

theorem outs_append (p : Pics) (log log' : List (U16 × U8)) :
    p.outs (log ++ log') = (p.outs log).outs log' := List.foldl_append

/-- What `isr_handler` sends for the vector of a request puts both chips back to
what they were before the request was taken. -/
theorem ack_outs_settings {p p' : Pics} {v : U8} (hm : p.master.base = 0x20)
    (hs : p.slave.base = 0x28) (hma : p.master.autoEoi = false)
    (hsa : p.slave.autoEoi = false) (hack : p.ack = some (v, p')) :
    p'.settings.outs ((isrHandler (v.setWidth 32)).flatMap sent) = p.settings := by
  have hfa : p.front.autoEoi = false := hma
  simp only [Pics.ack] at hack
  split at hack
  · cases hack
  · next hreq =>
      have hmaster := settings_serve_eoi hfa hreq
      obtain ⟨hlt, -⟩ := request_lt hreq
      split at hack
      · next h2 =>
          have hslave := slave_request_of_front h2.1
          have hend := settings_serve_eoi hsa hslave
          obtain ⟨hk, -⟩ := request_lt hslave
          obtain ⟨rfl, rfl⟩ := Prod.mk.inj (Option.some.inj hack)
          have hsent : (isrHandler ((p.slave.base + BitVec.ofNat 8 p.slave.request).setWidth
              32)).flatMap sent = [(0xA0, 0x20), (0x20, 0x20)] := by
            rw [hs]
            generalize p.slave.request = k at hk
            have hall : ∀ k < 8, (isrHandler ((0x28 + BitVec.ofNat 8 k).setWidth 32)).flatMap
                sent = [(0xA0, 0x20), (0x20, 0x20)] := by decide
            exact hall k hk
          rw [hsent, ← settings_outs]
          exact congrArg₂ Pics.mk hmaster hend
      · obtain ⟨rfl, rfl⟩ := Prod.mk.inj (Option.some.inj hack)
        have hsent : (isrHandler ((p.master.base + BitVec.ofNat 8 p.front.request).setWidth
            32)).flatMap sent = [(0x20, 0x20)] := by
          rw [hm]
          generalize p.front.request = n at hlt
          have hall : ∀ n < 8, (isrHandler ((0x20 + BitVec.ofNat 8 n).setWidth 32)).flatMap
              sent = [(0x20, 0x20)] := by decide
          exact hall n hlt
        rw [hsent, ← settings_outs]
        exact congrArg₂ Pics.mk hmaster rfl

end MicroKernel.Proofs
