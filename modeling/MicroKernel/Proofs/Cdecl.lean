import MicroKernel.Core.Hal
import MicroKernel.Proofs.Timer

/-!
# Which registers a call from C gives back

The five routines are followed from their entry, with the return address and the
arguments on the stack. Both `cpuid` routines save EBX, ECX and EDX and load EDI
and ESI from their arguments without saving them; `pit_install` loads EBX. What
is loaded is known before the call, and so is where a call does no harm.
-/

namespace MicroKernel.Proofs

open ByteMem X86 MicroKernel.Core

/-- The call returns to its caller, and the registers that C counts on are back. -/
def Obeys (f : Routine) (s : Sys) : Prop :=
  ∃ t, f s = some t ∧ t.eip = s.mem.read32 s.esp ∧ Cdecl s.toCpu t.toCpu

/-- The vendor string as it is stored. -/
def vendorText (r : CpuidAnswer) : List U8 := dwords [r.ebx, r.edx, r.ecx] ++ [0]

/-- What lies from 8 bytes below the entry's ESP on once the registers are saved:
EBX, EBP and the return address. -/
def savedBytes (s : Sys) : List U8 := dwords [s.ebx, s.ebp, s.mem.read32 s.esp]

/-- EDI and ESI hold what the routine loads there, or EBX does, and the text is
not stored over what the routine returns with. -/
def Harmless (cpuid : U32 → CpuidAnswer) (s : Sys) : CalledRoutine → Prop
  | .outb | .inb => True
  | .cpuidGetVendorString =>
      s.edi = argument s.toCpu ∧
        Agree (argument s.toCpu) (s.esp - 8) (vendorText (cpuid 0)) (savedBytes s)
  | .cpuidCheckFeature =>
      s.edi = s.mem.read32 (s.esp + 8) ∧ s.esi = s.mem.read32 (s.esp + 12)
  | .pitInstall => argument s.toCpu = 0 ∨ s.ebx = pitBaseFrequency

theorem holds_bytes32_iff {m : PhysMem} {a v : U32} :
    Holds m a (bytes32 v) ↔ m.read32 a = v :=
  ⟨read32_of_holds, fun h => h ▸ bytes32_read32 m a⟩

/-- The dwords that lie on the stack, whatever they are. -/
theorem onStack_words (c : Cpu) :
    OnStack c (dwords [c.mem.read32 c.esp, c.mem.read32 (c.esp + 4), c.mem.read32 (c.esp + 8),
      c.mem.read32 (c.esp + 12)]) := by
  have hnext : ∀ {a v : U32} {ws : List U32}, c.mem.read32 a = v →
      Holds c.mem (a + 4) (dwords ws) → Holds c.mem a (dwords (v :: ws)) := by
    intro a v ws hv hws
    rw [dwords_cons, holds_append, bytes32_length]
    exact ⟨holds_bytes32_iff.2 hv, hws⟩
  refine hnext rfl (hnext rfl (hnext ?_ (hnext ?_ trivial)))
  · rw [BitVec.add_assoc]
    rfl
  · rw [BitVec.add_assoc, BitVec.add_assoc]
    rfl

section
variable {p : Sys}

/-! ## The frame of the `cpuid` routines -/

/-- A push of a register, which only goes on the stack. -/
theorem push_onStack {u : Sys} {ws : List U32} (r : Reg) (h : OnStack u.toCpu (dwords ws))
    (hfit : 4 * ws.length + 4 ≤ 2 ^ 32) :
    OnStack (cpu (push r) u).toCpu (dwords (u.get r :: ws)) := h.pushVal hfit

theorem cpuidEntry_frame (p : Sys) :
    ∃ u, run cpuidEntry p = u ∧ u.esp = p.esp - 16 ∧ u.ebp = p.esp - 4 ∧ u.esi = p.esi ∧
      OnStack u.toCpu (dwords [p.edx, p.ecx, p.ebx, p.ebp, p.mem.read32 p.esp,
        argument p.toCpu, p.mem.read32 (p.esp + 8), p.mem.read32 (p.esp + 12)]) := by
  have hebp := push_onStack .ebp (onStack_words p.toCpu) (show 4 * 4 + 4 ≤ 2 ^ 32 by decide)
  obtain ⟨q, hq, hqesp, hqebp, hqesi, hqebx, hqecx, hqedx, hstack⟩ :
      ∃ q, run [cpu (push .ebp), cpu (mov .ebp .esp)] p = q ∧ q.esp = p.esp - 4 ∧
        q.ebp = p.esp - 4 ∧ q.esi = p.esi ∧ q.ebx = p.ebx ∧ q.ecx = p.ecx ∧ q.edx = p.edx ∧
        OnStack q.toCpu (dwords [p.ebp, p.mem.read32 p.esp, argument p.toCpu,
          p.mem.read32 (p.esp + 8), p.mem.read32 (p.esp + 12)]) :=
    ⟨_, rfl, rfl, rfl, rfl, rfl, rfl, rfl, hebp⟩
  have hebx := push_onStack .ebx hstack (show 4 * 5 + 4 ≤ 2 ^ 32 by decide)
  have hecx := push_onStack .ecx hebx (show 4 * 6 + 4 ≤ 2 ^ 32 by decide)
  have hedx := push_onStack .edx hecx (show 4 * 7 + 4 ≤ 2 ^ 32 by decide)
  have hcode : cpuidEntry = [cpu (push .ebp), cpu (mov .ebp .esp)] ++
      [cpu (push .ebx), cpu (push .ecx), cpu (push .edx)] := rfl
  rw [hcode, run_append, hq]
  refine ⟨_, rfl, ?_, hqebp, hqesi, ?_⟩
  · show q.esp - 4 - 4 - 4 = _
    rw [hqesp, BitVec.sub_sub, BitVec.sub_sub, BitVec.sub_sub]
    rfl
  · rw [← hqedx, ← hqecx, ← hqebx]
    exact hedx

/-- A dword of the frame, by its distance from EBP. -/
theorem frame_slot {u : Sys} {ws : List U32} (hesp : u.esp = p.esp - 16)
    (hebp : u.ebp = p.esp - 4) (h : OnStack u.toCpu (dwords ws)) {i : Nat} {d : U32}
    (hi : i < ws.length) (hd : p.esp - 16 + BitVec.ofNat 32 (4 * i) = p.esp - 4 + d) :
    u.mem.read32 (u.ebp + d) = ws[i] := by
  have hslot := h.slot hi
  rw [hesp, hd] at hslot
  rw [hebp]
  exact hslot

/-- The end, in a state with the ESP and EBP of the frame. -/
theorem cpuidDone_spec {u : Sys} (hesp : u.esp = p.esp - 16) (hebp : u.ebp = p.esp - 4) :
    let t := run cpuidDone u
    t.eip = u.mem.read32 p.esp ∧ t.esp = p.esp + 4 ∧ t.ebx = u.mem.read32 (p.esp - 8) ∧
      t.ebp = u.mem.read32 (p.esp - 4) ∧ t.esi = u.esi ∧ t.edi = u.edi := by
  have hslot : p.esp - 16 + 4 + 4 = p.esp - 8 := by grind
  obtain ⟨q, hq, hqebp, hqmem, hqebx, hqesi, hqedi⟩ :
      ∃ q, run [cpu (pop .edx), cpu (pop .ecx), cpu (pop .ebx)] u = q ∧ q.ebp = u.ebp ∧
        q.mem = u.mem ∧ q.ebx = u.mem.read32 (u.esp + 4 + 4) ∧ q.esi = u.esi ∧
        q.edi = u.edi := ⟨_, rfl, rfl, rfl, rfl, rfl, rfl⟩
  have hcode : cpuidDone = [cpu (pop .edx), cpu (pop .ecx), cpu (pop .ebx)] ++
      [cpu (mov .esp .ebp), cpu (pop .ebp), ret] := rfl
  rw [hesp, hslot] at hqebx
  rw [hebp] at hqebp
  rw [hcode, run_append, hq]
  refine ⟨?_, ?_, hqebx, ?_, hqesi, hqedi⟩
  · show q.mem.read32 (q.ebp + 4) = _
    rw [hqmem, hqebp, BitVec.sub_add_cancel]
  · show q.ebp + 4 + 4 = _
    rw [hqebp, BitVec.sub_add_cancel]
  · show q.mem.read32 q.ebp = _
    rw [hqmem, hqebp]

theorem savedBytes_iff {m : PhysMem} :
    Holds m (p.esp - 8) (savedBytes p) ↔ m.read32 (p.esp - 8) = p.ebx ∧
      m.read32 (p.esp - 4) = p.ebp ∧ m.read32 p.esp = p.mem.read32 p.esp := by
  have hebp : p.esp - 8 + 4 = p.esp - 4 := by grind
  have hra : p.esp - 4 + 4 = p.esp := BitVec.sub_add_cancel ..
  have hcons : ∀ {a v : U32} {ws : List U32}, Holds m a (dwords (v :: ws)) ↔
      m.read32 a = v ∧ Holds m (a + 4) (dwords ws) := by
    intro a v ws
    rw [dwords_cons, holds_append, holds_bytes32_iff, bytes32_length]
    exact Iff.rfl
  rw [savedBytes, hcons, hcons, hcons, hebp, hra]
  exact and_congr_right fun _ => and_congr_right fun _ => and_iff_left trivial

/-- A routine that ends there obeys when EDI and ESI are as they were and what it
returns with is still on the stack. -/
theorem obeys_done_iff {f : Routine} {u : Sys} (hf : f p = some (run cpuidDone u))
    (hesp : u.esp = p.esp - 16) (hebp : u.ebp = p.esp - 4) :
    Obeys f p ↔ u.edi = p.edi ∧ u.esi = p.esi ∧ Holds u.mem (p.esp - 8) (savedBytes p) := by
  obtain ⟨heip, hsp, hbx, hbp, hsi, hdi⟩ := cpuidDone_spec hesp hebp
  rw [savedBytes_iff]
  constructor
  · rintro ⟨t, ht, hra, hregs⟩
    obtain rfl := Option.some.inj (hf.symm.trans ht)
    exact ⟨hdi.symm.trans hregs.edi, hsi.symm.trans hregs.esi, hbx.symm.trans hregs.ebx,
      hbp.symm.trans hregs.ebp, heip.symm.trans hra⟩
  · rintro ⟨hedi, hesi, hebx, hebp', hra⟩
    exact ⟨_, hf, heip.trans hra, hsp, hbx.trans hebx, hsi.trans hesi, hdi.trans hedi,
      hbp.trans hebp'⟩

/-- The saved registers and the return address, after the entry. -/
theorem cpuidEntry_saved {u : Sys} {ws : List U32} (hesp : u.esp = p.esp - 16)
    (h : OnStack u.toCpu (dwords (p.edx :: p.ecx :: p.ebx :: p.ebp :: p.mem.read32 p.esp ::
      ws))) : Holds u.mem (p.esp - 8) (savedBytes p) := by
  have hslot : p.esp - 16 + 8 = p.esp - 8 := by grind
  have hall : Holds u.mem u.esp (dwords ([p.edx, p.ecx] ++
      ([p.ebx, p.ebp, p.mem.read32 p.esp] ++ ws))) := h
  rw [dwords_append, holds_append, dwords_append, holds_append, hesp] at hall
  have hmid := hall.2.1
  rw [← hslot]
  exact hmid

/-! ## Routine by routine -/

theorem outb_obeys (p : Sys) : Obeys outb p := ⟨_, rfl, rfl, rfl, rfl, rfl, rfl, rfl⟩

theorem inb_obeys (answer : U16 → U8) (p : Sys) : Obeys (inb answer) p :=
  ⟨_, rfl, rfl, rfl, rfl, rfl, rfl, rfl⟩

/-- The four stores are one of 13 bytes. -/
theorem vendorBody_spec (cpuid : U32 → CpuidAnswer) (u : Sys) :
    let v := run (vendorBody cpuid) u
    v.esp = u.esp ∧ v.ebp = u.ebp ∧ v.esi = u.esi ∧ v.edi = u.mem.read32 (u.ebp + 8) ∧
      v.mem = ByteMem.write u.mem (u.mem.read32 (u.ebp + 8)) (vendorText (cpuid 0)) := by
  refine ⟨rfl, rfl, rfl, rfl, ?_⟩
  show ByteMem.write (ByteMem.write (ByteMem.write (ByteMem.write u.mem
    (u.mem.read32 (u.ebp + 8) + 0) (bytes32 (cpuid 0).ebx))
    (u.mem.read32 (u.ebp + 8) + 4) (bytes32 (cpuid 0).edx))
    (u.mem.read32 (u.ebp + 8) + 8) (bytes32 (cpuid 0).ecx))
    (u.mem.read32 (u.ebp + 8) + 12) [0] = _
  generalize u.mem.read32 (u.ebp + 8) = e
  have hzero : e + 0 = e := BitVec.add_zero e
  have hnext : ∀ {k n : Nat} {d : U32} {bs cs : List U8}, bs.length = k → cs.length = n →
      d = e + BitVec.ofNat 32 k → k + n ≤ 2 ^ 32 →
      ByteMem.write (ByteMem.write u.mem e bs) d cs = ByteMem.write u.mem e (bs ++ cs) := by
    rintro _ _ _ bs cs rfl rfl rfl hfit
    exact write_append rfl hfit
  rw [hzero, hnext (k := 4) (n := 4) (d := e + 4) rfl rfl rfl (by decide),
    hnext (k := 8) (n := 4) (d := e + 8) rfl rfl rfl (by decide),
    hnext (k := 12) (n := 1) (d := e + 12) rfl rfl rfl (by decide)]
  simp [vendorText, dwords]

theorem vendorText_length (r : CpuidAnswer) : (vendorText r).length = 13 := rfl

theorem vendor_obeys_iff (cpuid : U32 → CpuidAnswer) (p : Sys) :
    Obeys (cpuidGetVendorString cpuid) p ↔ Harmless cpuid p .cpuidGetVendorString := by
  obtain ⟨u, hu, hesp, hebp, hesi, hstack⟩ := cpuidEntry_frame p
  obtain ⟨hvesp, hvebp, hvesi, hvedi, hvmem⟩ := vendorBody_spec cpuid u
  have harg : u.mem.read32 (u.ebp + 8) = argument p.toCpu :=
    frame_slot hesp hebp hstack (i := 5) (show 5 < 8 by decide) (by grind)
  rw [harg] at hvedi hvmem
  have hrun : cpuidGetVendorString cpuid p =
      some (run cpuidDone (run (vendorBody cpuid) u)) := by
    rw [cpuidGetVendorString, straight, run_append, run_append, hu]
  have hlen : (vendorText (cpuid 0)).length ≤ 2 ^ 32 := by
    rw [vendorText_length]
    decide
  rw [obeys_done_iff hrun (hvesp.trans hesp) (hvebp.trans hebp), hvedi, hvesi, hvmem,
    holds_write_iff (cpuidEntry_saved hesp hstack) hlen, Harmless, eq_comm]
  exact and_congr_right fun _ => and_iff_right hesi

theorem checkCarry_eq (s : Sys) :
    ∃ v, checkCarry s = run cpuidDone (cpu (movImm .eax v) s) := by
  rw [checkCarry]
  split
  · exact ⟨1, by rw [featureFound, run_cons]⟩
  · exact ⟨0, by rw [featureNotFound, run_cons]⟩

/-- The ways out differ in the answer in EAX. -/
theorem checkFeature_ends (cpuid : U32 → CpuidAnswer) (p : Sys) :
    ∃ u, cpuidCheckFeature cpuid p = some (run cpuidDone u) ∧ u.esp = p.esp - 16 ∧
      u.ebp = p.esp - 4 ∧ u.edi = p.mem.read32 (p.esp + 8) ∧
      u.esi = p.mem.read32 (p.esp + 12) ∧ Holds u.mem (p.esp - 8) (savedBytes p) := by
  obtain ⟨u, hu, hesp, hebp, -, hstack⟩ := cpuidEntry_frame p
  have hedi : u.mem.read32 (u.ebp + 12) = p.mem.read32 (p.esp + 8) :=
    frame_slot hesp hebp hstack (i := 6) (show 6 < 8 by decide) (by grind)
  have hesi : u.mem.read32 (u.ebp + 16) = p.mem.read32 (p.esp + 12) :=
    frame_slot hesp hebp hstack (i := 7) (show 7 < 8 by decide) (by grind)
  have hsaved := cpuidEntry_saved hesp hstack
  obtain ⟨v, hv, hvesp, hvebp, hvedi, hvesi, hvmem⟩ : ∃ v, run [loadAt .eax .ebp 8,
      cpuidInsn cpuid, loadAt .edi .ebp 12, loadAt .esi .ebp 16, cmpImm .edi 0] u = v ∧
      v.esp = p.esp - 16 ∧ v.ebp = p.esp - 4 ∧ v.edi = p.mem.read32 (p.esp + 8) ∧
      v.esi = p.mem.read32 (p.esp + 12) ∧ v.mem = u.mem :=
    ⟨_, rfl, hesp, hebp, hedi, hesi, rfl⟩
  rw [← hvmem] at hsaved
  rw [cpuidCheckFeature, run_append, hu, hv]
  split
  · obtain ⟨a, ha⟩ := checkCarry_eq (btReg .ecx .esi v)
    exact ⟨_, congrArg some ha, hvesp, hvebp, hvedi, hvesi, hsaved⟩
  · dsimp only
    split
    · obtain ⟨a, ha⟩ := checkCarry_eq (btReg .edx .esi (cmpImm .edi 1 v))
      exact ⟨_, congrArg some ha, hvesp, hvebp, hvedi, hvesi, hsaved⟩
    · refine ⟨cpu (movImm .eax 0) (cmpImm .edi 1 v), ?_, hvesp, hvebp, hvedi, hvesi, hsaved⟩
      rw [featureNotFound, run_cons]

theorem checkFeature_obeys_iff (cpuid : U32 → CpuidAnswer) (p : Sys) :
    Obeys (cpuidCheckFeature cpuid) p ↔ Harmless cpuid p .cpuidCheckFeature := by
  obtain ⟨u, hrun, hesp, hebp, hedi, hesi, hsaved⟩ := checkFeature_ends cpuid p
  rw [obeys_done_iff hrun hesp hebp, hedi, hesi, Harmless, eq_comm (a := p.edi),
    eq_comm (a := p.esi)]
  exact and_congr_right fun _ => and_iff_left hsaved

theorem pitInstall_obeys_iff (cpuid : U32 → CpuidAnswer) (p : Sys) :
    Obeys pitInstall p ↔ Harmless cpuid p .pitInstall := by
  have hstack : OnStack p.toCpu (dwords [p.mem.read32 p.esp, argument p.toCpu]) := by
    have h : Holds p.mem p.esp (dwords ([p.mem.read32 p.esp, argument p.toCpu] ++
        [p.mem.read32 (p.esp + 8), p.mem.read32 (p.esp + 12)])) := onStack_words p.toCpu
    rw [dwords_append, holds_append] at h
    exact h.1
  obtain ⟨t, ht, heip, hesp, -, hebx, ⟨hebp, hesi, hedi⟩, -⟩ := pitInstall_spec hstack
  have hebx_iff : Obeys pitInstall p ↔ t.ebx = p.ebx := by
    constructor
    · rintro ⟨t', ht', -, hregs⟩
      obtain rfl := Option.some.inj (ht.symm.trans ht')
      exact hregs.ebx
    · exact fun h => ⟨t, ht, heip, hesp, h, hesi, hedi, hebp⟩
  rw [hebx_iff, hebx, Harmless]
  split
  · next h => exact iff_of_true rfl (Or.inl h)
  · next h => rw [eq_comm, or_iff_right h]

end

/-- Each routine keeps the contract exactly where the registers it loads without
saving them hold the same already, and no other one is lost. -/
theorem obeys_iff (cpuid : U32 → CpuidAnswer) (answer : U16 → U8) (r : CalledRoutine)
    (s : Sys) : Obeys (r.body cpuid answer) s ↔ Harmless cpuid s r := by
  cases r with
  | outb => exact iff_of_true (outb_obeys s) trivial
  | inb => exact iff_of_true (inb_obeys answer s) trivial
  | cpuidGetVendorString => exact vendor_obeys_iff cpuid s
  | cpuidCheckFeature => exact checkFeature_obeys_iff cpuid s
  | pitInstall => exact pitInstall_obeys_iff cpuid s

/-- A caller with 1 in EDI asks for bit 0 of ECX, and gets 0 back in EDI. -/
theorem obeys_not_edi : ¬ ∀ cpuid answer (r : CalledRoutine) s, Obeys (r.body cpuid answer) s := by
  intro h
  have hobeys := h (fun _ => ⟨0, 0, 0, 0⟩) (fun _ => 0) .cpuidCheckFeature
    { idleSys with edi := 1 }
  have hedi := ((checkFeature_obeys_iff _ _).1 hobeys).1
  exact absurd hedi (by decide)

end MicroKernel.Proofs
