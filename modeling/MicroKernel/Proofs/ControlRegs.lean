import MicroKernel.Core.Install

/-!
# The control registers

What `fpu_sse_install` and `paging_install` do to CR0 and CR4. The mask that is
to clear one bit of CR0 has 16 bits, and its upper half is zero: the routine
takes the upper half of CR0 away, and with it the bit that turns paging on.
-/

namespace MicroKernel.Proofs

open X86 MicroKernel.Core

/-- The two registers. -/
def Sys.crs (s : Sys) : U32 × U32 := (s.cr0, s.cr4)

def KeepsCrs (i : Insn) : Prop := ∀ s, Sys.crs (i s) = Sys.crs s

theorem keepsCrs_cpu (op : Op) : KeepsCrs (cpu op) := fun _ => rfl

theorem keepsCrs_storeAt (base r : Reg) (d : U32) : KeepsCrs (storeAt base d r) := fun _ => rfl

theorem keepsCrs_run {code : List Insn} (h : ∀ i ∈ code, KeepsCrs i) : KeepsCrs (run code) := by
  intro s
  induction code generalizing s with
  | nil => rfl
  | cons i code ih =>
      rw [List.forall_mem_cons] at h
      exact (ih h.2 (i s)).trans (h.1 s)

theorem keepsCrs_repeated {i : Insn} (hi : KeepsCrs i) (n : Nat) :
    KeepsCrs (repeated i n) := by
  intro s
  induction n generalizing s with
  | zero => rfl
  | succ n ih => exact (ih { i s with ecx := (i s).ecx - 1 }).trans (hi s)

theorem keepsCrs_fillTables (img : Image) : KeepsCrs (run (fillTables img)) := by
  have hxor : KeepsCrs (xorSelf .eax) := fun _ => rfl
  have hstosd : KeepsCrs (rep stosd) := fun s =>
    keepsCrs_repeated (i := stosd) (fun _ => rfl) s.ecx.toNat s
  have hpage : KeepsCrs mapPage := keepsCrs_run (by simp [keepsCrs_cpu, keepsCrs_storeAt])
  have hloop : KeepsCrs (loopBack mapPage) := fun s => keepsCrs_repeated hpage _ s
  exact keepsCrs_run (by simp [fillTables, keepsCrs_cpu, hxor, hstosd, hloop])

section
variable (img : Image) (cpuid : U32 → CpuidAnswer) (s : Sys)

def hasSse : Bool := (cpuid 1).edx.getLsbD 25

/-- Up to the test of the SSE bit. -/
theorem fpuSseInstall_test :
    ∃ q, run [fromCr0 .eax, andImm .eax 0xFFFB, orImm .eax 0x20, toCr0 .eax,
        cpu (movImm .eax 1), cpuidInsn cpuid, bt .edx 25] s = q ∧
      q.cr0 = s.cr0 &&& 0xFFFB ||| 0x20 ∧ q.cr4 = s.cr4 ∧ q.cf = hasSse cpuid := by
  refine ⟨_, rfl, rfl, rfl, ?_⟩
  exact (flag_setBit _ 0 (hasSse cpuid) (by decide)).trans (if_pos rfl)

theorem fpuSseInstall_regs :
    ∃ t, fpuSseInstall cpuid s = some t ∧ t.cr0 = s.cr0 &&& 0xFFFB ||| 0x20 ∧
      t.cr4 = if hasSse cpuid then s.cr4 ||| 0x600 else s.cr4 := by
  obtain ⟨q, hq, hcr0, hcr4, hcf⟩ := fpuSseInstall_test cpuid s
  rw [fpuSseInstall, hq, hcf]
  split
  · exact ⟨_, rfl, hcr0, congrArg (· ||| 0x600) hcr4⟩
  · exact ⟨_, rfl, hcr0, hcr4⟩

theorem pagingInstall_regs :
    ∃ t, pagingInstall img s = some t ∧ t.cr0 = s.cr0 ||| 0x80000000 ∧ t.cr4 = s.cr4 := by
  have hfill := keepsCrs_fillTables img s
  have hcode : pagingInstall img s =
      some (run (enablePaging img ++ [ret]) (run (fillTables img) s)) := by
    rw [pagingInstall, straight, List.append_assoc, run, List.foldl_append]
    rfl
  generalize run (fillTables img) s = q at *
  refine ⟨_, hcode, ?_, ?_⟩
  · show q.cr0 ||| 0x80000000 = _
    rw [show q.cr0 = s.cr0 from congrArg Prod.fst hfill]
  · exact congrArg Prod.snd hfill

end

/-! ## The result -/

/-- Nothing but bit 2 cleared and bit 5 set. -/
def OnlyFpuBits (before after : U32) : Prop :=
  ∀ i < 32, after.getLsbD i = if i = 2 then false else if i = 5 then true else before.getLsbD i

/-- Nothing but bit 31 set. -/
def OnlyPagingBit (before after : U32) : Prop :=
  ∀ i < 32, after.getLsbD i = if i = 31 then true else before.getLsbD i

/-- Each routine on its own does to CR0 what it is for, and both orders end in
the same registers, with paging on. -/
def Undisturbed (img : Image) (cpuid : U32 → CpuidAnswer) (s : Sys) : Prop :=
  ∃ a b c d, fpuSseInstall cpuid s = some a ∧ pagingInstall img s = some b ∧
    pagingInstall img a = some c ∧ fpuSseInstall cpuid b = some d ∧
    OnlyFpuBits s.cr0 a.cr0 ∧ OnlyPagingBit s.cr0 b.cr0 ∧
    c.cr0 = d.cr0 ∧ c.cr4 = d.cr4 ∧ c.cr0.getLsbD 31 = true

theorem onlyFpuBits_iff (c : U32) :
    OnlyFpuBits c (c &&& 0xFFFB ||| 0x20) ↔ ∀ i < 32, 16 ≤ i → c.getLsbD i = false := by
  have hmask : ∀ i < 32, (0xFFFB : U32).getLsbD i = decide (i < 16 ∧ i ≠ 2) := by decide
  have hbit : ∀ i < 32, (0x20 : U32).getLsbD i = decide (i = 5) := by decide
  refine forall₂_congr fun i hi => ?_
  rw [BitVec.getLsbD_or, BitVec.getLsbD_and, hmask i hi, hbit i hi]
  by_cases h2 : i = 2
  · simp [h2]
  · by_cases h5 : i = 5
    · simp [h5]
    · rw [decide_eq_false h5, if_neg h2, if_neg h5, Bool.or_false]
      by_cases h16 : i < 16
      · rw [decide_eq_true ⟨h16, h2⟩, Bool.and_true]
        exact iff_of_true rfl fun h => absurd h16 (Nat.not_lt_of_le h)
      · rw [decide_eq_false fun h => h16 h.1, Bool.and_false]
        exact ⟨fun h _ => h.symm, fun h => (h (Nat.le_of_not_lt h16)).symm⟩

theorem onlyPagingBit_or (c : U32) : OnlyPagingBit c (c ||| 0x80000000) := by
  have hbit : ∀ i < 32, (0x80000000 : U32).getLsbD i = decide (i = 31) := by decide
  intro i hi
  rw [BitVec.getLsbD_or, hbit i hi]
  by_cases h : i = 31 <;> simp [h]

/-- In the other order paging is off again. -/
theorem paging_lost (c : U32) :
    ((c ||| 0x80000000) &&& 0xFFFB ||| 0x20 : U32).getLsbD 31 = false := by
  rw [BitVec.getLsbD_or, BitVec.getLsbD_and]
  simp

theorem not_undisturbed (img : Image) (cpuid : U32 → CpuidAnswer) (s : Sys) :
    ¬ Undisturbed img cpuid s := by
  obtain ⟨b, hb, hbcr, -⟩ := pagingInstall_regs img s
  rintro ⟨-, b', c, d, -, hb', -, hd, -, -, hcd, -, hon⟩
  obtain rfl := Option.some.inj (hb.symm.trans hb')
  obtain ⟨d', hd', hdcr, -⟩ := fpuSseInstall_regs cpuid b
  obtain rfl := Option.some.inj (hd.symm.trans hd')
  rw [hcd, hdcr, hbcr, paging_lost] at hon
  cases hon

/-- Part by part: the first holds where the upper half of CR0 is zero, the second
always, and the two orders never agree. -/
theorem undisturbed_never (img : Image) (cpuid : U32 → CpuidAnswer) (s : Sys) :
    ¬ Undisturbed img cpuid s ∧
      ∃ a b, fpuSseInstall cpuid s = some a ∧ pagingInstall img s = some b ∧
        (OnlyFpuBits s.cr0 a.cr0 ↔ ∀ i < 32, 16 ≤ i → s.cr0.getLsbD i = false) ∧
        OnlyPagingBit s.cr0 b.cr0 := by
  obtain ⟨a, ha, hacr, -⟩ := fpuSseInstall_regs cpuid s
  obtain ⟨b, hb, hbcr, -⟩ := pagingInstall_regs img s
  refine ⟨not_undisturbed img cpuid s, a, b, ha, hb, ?_, ?_⟩
  · rw [hacr]
    exact onlyFpuBits_iff s.cr0
  · rw [hbcr]
    exact onlyPagingBit_or s.cr0

/-- With CR0 as a loader leaves it and any processor. -/
theorem undisturbed_idle : ¬ Undisturbed linkedImage (fun _ => ⟨0, 0, 0, 0⟩) idleSys :=
  not_undisturbed _ _ _

end MicroKernel.Proofs
