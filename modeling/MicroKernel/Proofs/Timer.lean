import MicroKernel.Core.Install
import MicroKernel.Machine.Calls

/-!
# The timer's divisor

`pit_install` is followed from its entry, with the return address and the
frequency on the stack. `div` divides EDX:EAX by its operand, and what the code
has in EAX is the frequency: the divisor sent to the timer is the frequency
divided by the base, not the base by the frequency.
-/

namespace MicroKernel.Proofs

open ByteMem X86 MicroKernel.Core

/-- What the timer is sent for a divisor. -/
def timerBytes (divisor : Nat) : List (U16 × U8) :=
  [(0x43, 0x36), (0x40, BitVec.ofNat 8 divisor), (0x40, BitVec.ofNat 8 (divisor / 256))]

section
variable {p : Sys} {ra f : U32}

/-- The saved EBP on top, and EBP there. -/
theorem pitInstall_frame (h : OnStack p.toCpu (dwords [ra, f])) :
    ∃ q, run [cpu (push .ebp), cpu (mov .ebp .esp), loadAt .eax .ebp 8, cmpImm .eax 0] p = q ∧
      q.eax = f ∧ q.ebp = p.esp - 4 ∧ q.zf = decide (f = 0) ∧ q.ports = p.ports ∧
      q.mem = (cpu (push .ebp) p).mem ∧ Holds q.mem (p.esp - 4) (dwords [p.ebp, ra, f]) ∧
      q.ebx = p.ebx ∧ q.esi = p.esi ∧ q.edi = p.edi := by
  have hpush : OnStack (cpu (push .ebp) p).toCpu (dwords [p.ebp, ra, f]) :=
    h.pushVal (show 4 * 2 + 4 ≤ 2 ^ 32 by decide)
  have harg := hpush.slot (i := 2) (Nat.lt_succ_self 2)
  have hesp : (cpu (push .ebp) p).esp = p.esp - 4 := rfl
  have hports : (cpu (push .ebp) p).ports = p.ports := rfl
  have hregs : (cpu (push .ebp) p).ebx = p.ebx ∧ (cpu (push .ebp) p).esi = p.esi ∧
      (cpu (push .ebp) p).edi = p.edi := ⟨rfl, rfl, rfl⟩
  rw [OnStack] at hpush
  rw [run_cons]
  generalize cpu (push .ebp) p = q at *
  have harg' : q.mem.read32 (q.esp + 8) = f := harg
  refine ⟨_, rfl, harg', hesp, ?_, hports, rfl, hesp ▸ hpush, hregs⟩
  rw [← harg']
  exact zf_cmpFlags ..

/-- `.exit`, whatever has become of the other registers. -/
theorem pitInstall_exit {s : Sys} {b : U32} (hebp : s.ebp = p.esp - 4)
    (h : Holds s.mem (p.esp - 4) (dwords [b, ra, f])) :
    let t := run [cpu (mov .esp .ebp), cpu (pop .ebp), ret] s
    t.eip = ra ∧ t.esp = p.esp + 4 ∧ t.ebp = b ∧ t.ebx = s.ebx ∧ t.mem = s.mem ∧
      t.esi = s.esi ∧ t.edi = s.edi := by
  have htop : OnStack { s.toCpu with esp := s.ebp } (dwords [b, ra, f]) := by
    rw [OnStack, hebp]
    exact h
  have hra := htop.slot (i := 1) (Nat.lt_add_left 1 (Nat.lt_succ_self 1))
  have hb := htop.slot (i := 0) (Nat.zero_lt_succ 2)
  rw [BitVec.add_zero] at hb
  refine ⟨hra, ?_, hb, rfl, rfl, rfl, rfl⟩
  show s.ebp + 4 + 4 = _
  rw [hebp, BitVec.sub_add_cancel]

/-- The division: the frequency is the dividend. -/
theorem pitInstall_div {q : Sys} (heax : q.eax = f) :
    ∃ r, div .ebx (run [cpu (movImm .edx 0), cpu (movImm .ebx pitBaseFrequency)] q) = some r ∧
      r.eax.toNat = f.toNat / 1193182 ∧ r.ebx = pitBaseFrequency ∧ r.ebp = q.ebp ∧
      r.mem = q.mem ∧ r.ports = q.ports ∧ r.esi = q.esi ∧ r.edi = q.edi := by
  have hlt := f.isLt
  have hnum : (0 : U32).toNat * 2 ^ 32 + q.eax.toNat = f.toNat := by
    rw [heax]
    exact Nat.zero_add _
  have hquot : f.toNat / 1193182 < 2 ^ 32 := Nat.lt_of_le_of_lt (Nat.div_le_self _ _) hlt
  have hfault : ¬ (pitBaseFrequency.toNat = 0 ∨ 2 ^ 32 ≤ f.toNat / pitBaseFrequency.toNat) := by
    rintro (h | h)
    · exact absurd h (by decide)
    · exact absurd hquot (Nat.not_lt_of_le h)
  refine ⟨_, (if_neg ?_), ?_, rfl, rfl, rfl, rfl, rfl, rfl⟩
  · show ¬ (_ ∨ 2 ^ 32 ≤ ((0 : U32).toNat * 2 ^ 32 + q.eax.toNat) / _)
    rw [hnum]
    exact hfault
  · show (BitVec.ofNat 32 (((0 : U32).toNat * 2 ^ 32 + q.eax.toNat) / 1193182)).toNat = _
    rw [hnum, BitVec.toNat_ofNat, Nat.mod_eq_of_lt hquot]

theorem pitInstall_sends (r : Sys) :
    ∃ t, run [cpu (mov .ecx .eax), movAl 0x36, outAl 0x43, movAlLow .ecx, outAl 0x40,
        movAlHigh .ecx, outAl 0x40] r = t ∧
      t.ports = r.ports ++ timerBytes r.eax.toNat ∧ t.ebx = r.ebx ∧ t.ebp = r.ebp ∧
      t.mem = r.mem ∧ t.esi = r.esi ∧ t.edi = r.edi := by
  have hlow : lowByte r.eax = BitVec.ofNat 8 r.eax.toNat := (BitVec.ofNat_toNat ..).symm
  have hhigh : highByte r.eax = BitVec.ofNat 8 (r.eax.toNat / 256) := by
    apply BitVec.eq_of_toNat_eq
    rw [highByte, BitVec.extractLsb'_toNat, BitVec.toNat_ofNat, Nat.shiftRight_eq_div_pow]
  have hal : ∀ (a : U32) (b : U8), lowByte (setAl a b) = b := setWidth_setAl
  refine ⟨_, rfl, ?_, rfl, rfl, rfl, rfl, rfl⟩
  show ((r.ports ++ [(0x43, lowByte _)]) ++ [(0x40, lowByte (setAl _ (lowByte r.eax)))]) ++
    [(0x40, lowByte (setAl _ (highByte r.eax)))] = _
  have h36 : lowByte (setAl (cpu (mov .ecx .eax) r).eax 0x36) = 0x36 := hal _ _
  rw [hal, hal, hlow, hhigh, List.append_assoc, List.append_assoc, timerBytes]
  show r.ports ++ [(_, lowByte (setAl (cpu (mov .ecx .eax) r).eax 0x36)), _, _] = _
  rw [h36]

/-- What is sent, and the return to the caller. Where the base frequency has been
divided, it is left in EBX. -/
theorem pitInstall_spec (h : OnStack p.toCpu (dwords [ra, f])) :
    ∃ t, pitInstall p = some t ∧ t.eip = ra ∧ t.esp = p.esp + 4 ∧
      t.mem = (cpu (push .ebp) p).mem ∧
      t.ebx = (if f = 0 then p.ebx else pitBaseFrequency) ∧
      (t.ebp = p.ebp ∧ t.esi = p.esi ∧ t.edi = p.edi) ∧
      t.ports = p.ports ++ if f = 0 then [] else timerBytes (f.toNat / 1193182) := by
  obtain ⟨q, hq, heax, hebp, hzf, hports, hmem, hstack, hqbx, hqsi, hqdi⟩ := pitInstall_frame h
  rw [pitInstall, hq]
  by_cases hzero : f = 0
  · obtain ⟨heip, hesp, hbp, hebx, hkept, hsi, hdi⟩ := pitInstall_exit hebp hstack
    refine ⟨_, if_pos (hzf.trans (decide_eq_true hzero)), heip, hesp, hkept.trans hmem, ?_,
      ⟨hbp, hsi.trans hqsi, hdi.trans hqdi⟩, ?_⟩
    · rw [if_pos hzero, hebx, hqbx]
    · rw [if_pos hzero, List.append_nil]
      exact hports
  · obtain ⟨r, hr, hquot, hrbx, hrbp, hrmem, hrports, hrsi, hrdi⟩ := pitInstall_div heax
    obtain ⟨t, ht, htports, htbx, htbp, htmem, htsi, htdi⟩ := pitInstall_sends r
    obtain ⟨heip, hesp, hbp, hebx, hkept, hsi, hdi⟩ := pitInstall_exit (s := t)
      (htbp.trans (hrbp.trans hebp)) (htmem ▸ hrmem ▸ hstack)
    refine ⟨run [cpu (mov .esp .ebp), cpu (pop .ebp), ret] t, ?_, heip, hesp,
      hkept.trans (htmem.trans (hrmem.trans hmem)), ?_,
      ⟨hbp, hsi.trans (htsi.trans (hrsi.trans hqsi)), hdi.trans (htdi.trans (hrdi.trans hqdi))⟩,
      ?_⟩
    · rw [hzf, decide_eq_false hzero, if_neg Bool.false_ne_true, hr, Option.map_some, ht]
    · rw [if_neg hzero, hebx, htbx, hrbx]
    · rw [if_neg hzero, ← hquot, ← hports, ← hrports]
      exact htports

end

/-! ## The result -/

/-- A call as `_start` makes it: the frequency is pushed and dropped again. -/
def callPit (ra f : U32) : Routine :=
  inOrder [straight [cpu (pushVal f)], callTo ra pitInstall, straight [cpu (add .esp 4)]]

theorem callPit_spec (ra f : U32) (s : Sys) :
    ∃ s', callPit ra f s = some s' ∧
      s'.ports = s.ports ++ if f = 0 then [] else timerBytes (f.toNat / 1193182) := by
  have hempty : OnStack s.toCpu (dwords []) := trivial
  have harg : OnStack (cpu (pushVal f) s).toCpu (dwords [f]) :=
    hempty.pushVal (show 4 * 0 + 4 ≤ 2 ^ 32 by decide)
  have hentry : OnStack (cpu (pushVal ra) (cpu (pushVal f) s)).toCpu (dwords [ra, f]) :=
    harg.pushVal (show 4 * 1 + 4 ≤ 2 ^ 32 by decide)
  obtain ⟨t, ht, heip, -, -, -, -, hports⟩ := pitInstall_spec hentry
  have hcall : callTo ra pitInstall (cpu (pushVal f) s) = some t := by
    rw [callTo, ht, Option.bind_some, if_pos heip]
  refine ⟨cpu (add .esp 4) t, ?_, hports⟩
  show ((callTo ra pitInstall (cpu (pushVal f) s)).bind fun t => some (cpu (add .esp 4) t)) = _
  rw [hcall, Option.bind_some]

/-- The bytes of a divisor of 16 bits tell it. -/
theorem timerBytes_zero {d : Nat} (hd : d < 65536) (h : timerBytes 0 = timerBytes d) : d = 0 := by
  simp only [timerBytes, List.cons.injEq, Prod.mk.injEq, true_and, and_true] at h
  have hlow := congrArg BitVec.toNat h.1
  have hhigh := congrArg BitVec.toNat h.2
  simp only [BitVec.toNat_ofNat] at hlow hhigh
  omega

/-- The timer gets the divisor of the frequency for the base frequency itself and
for no other. -/
theorem callPit_iff (ra f : U32) (hlow : 1 ≤ 1193182 / f.toNat)
    (hhigh : 1193182 / f.toNat ≤ 65535) (s : Sys) :
    ∃ s', callPit ra f s = some s' ∧
      (s'.ports = s.ports ++ timerBytes (1193182 / f.toNat) ↔ f = 1193182) := by
  have hpos : 0 < f.toNat := by
    refine Nat.pos_of_ne_zero fun h => ?_
    rw [h, Nat.div_zero] at hlow
    exact absurd hlow (by decide)
  have hle : f.toNat ≤ 1193182 := (Nat.div_pos_iff.1 hlow).2
  obtain ⟨s', hs', hports⟩ := callPit_spec ra f s
  have hne : f ≠ 0 := fun h => absurd (congrArg BitVec.toNat h) (Nat.ne_of_gt hpos)
  rw [if_neg hne] at hports
  refine ⟨s', hs', ?_⟩
  rw [hports, List.append_cancel_left_eq]
  constructor
  · intro h
    refine Decidable.byContradiction fun hbase => ?_
    have hlt : f.toNat < 1193182 :=
      Nat.lt_of_le_of_ne hle fun heq => hbase (BitVec.eq_of_toNat_eq heq)
    rw [Nat.div_eq_of_lt hlt] at h
    have hzero := timerBytes_zero (by omega) h
    omega
  · rintro rfl
    rfl

theorem callPit_iff_nineteen : ∃ s', callPit 0x100100 19 idleSys = some s' ∧
    (s'.ports = idleSys.ports ++ timerBytes (1193182 / (19 : U32).toNat) ↔
      (19 : U32) = 1193182) :=
  callPit_iff 0x100100 19 (by decide) (by decide) idleSys

/-- At the 100 Hz of `_start` the divisor is 11931, and 0 is sent. -/
theorem callPit_hundred : ¬ ∃ s', callPit 0x100100 100 idleSys = some s' ∧
    s'.ports = idleSys.ports ++ timerBytes 11931 := by
  rintro ⟨s', hs', hports⟩
  obtain ⟨t, ht, htports⟩ := callPit_spec 0x100100 100 idleSys
  obtain rfl := Option.some.inj (hs'.symm.trans ht)
  rw [htports, List.append_cancel_left_eq] at hports
  exact absurd hports (by decide)

end MicroKernel.Proofs
