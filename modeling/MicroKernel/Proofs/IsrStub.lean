import MicroKernel.Kernel.Isr

/-!
# The stubs of `kernel/isr.s` never come back

Two slips meet. The data segment is pushed as 16 bits, right below the
argument slot the handler reads, so `int_num` is the segment with half of EDI
above it. And the last adjustment drops an error code nobody pushed, so `iret`
takes its three dwords four bytes too high and leaves the stack pointer there.
The second one holds in every context, whatever the handler does.
-/

namespace MicroKernel.Proofs

open X86 Kernel

/-- The state at the first instruction of `isr_handler`. -/
def isrHandlerAt (ra : U32) (n : Nat) (sel : U16) (off : U32) (c : Cpu) : Cpu :=
  pushVal ra (exec ([cli, pushVal (BitVec.ofNat 32 n)] ++ isrHandlerEntry)
    (interrupt sel off none c))

theorem runIsr_eq (ra : U32) (isrHandler : Op) (n : Nat) (sel : U16) (off : U32)
    (c : Cpu) : runIsr ra isrHandler n sel off c =
      exec isrHandlerExit (isrHandler (isrHandlerAt ra n sel off c)) := by
  rw [runIsr, isrNoErrStub, isrHandlerCommon, ← List.append_assoc, exec_append,
    exec_cons]
  rfl

/-- What the stub is for: the handler learns the vector, and the interrupted
code gets its registers back. -/
def IsrCorrect (ra : U32) (isrHandler : Op) (n : Nat) (sel : U16) (off : U32)
    (c : Cpu) : Prop :=
  argument (isrHandlerAt ra n sel off c) = BitVec.ofNat 32 n ∧
    Resumed c (runIsr ra isrHandler n sel off c)

/-- What the handler reads as `int_num`. -/
theorem isrHandlerAt_argument (ra : U32) (n : Nat) (sel : U16) (off : U32)
    (c : Cpu) : argument (isrHandlerAt ra n sel off c) =
      c.edi.setWidth 16 ++ c.ds := by
  let c2 := pushVal (BitVec.ofNat 32 n) (cli (interrupt sel off none c))
  have hregs : OnStack (pushad c2) (dwords (c2.regs ++ [])) :=
    OnStack.pushDwords trivial (by simp)
  have hax : OnStack (movFromSeg .eax .ds (pushad c2))
      (bytes32 c.edi ++ dwords c2.regs.tail) := hregs.congr rfl rfl
  have hds : OnStack (push16 .eax (movFromSeg .eax .ds (pushad c2)))
      (bytes16 ((setLow c.eax c.ds).setWidth 16) ++
        (bytes32 c.edi ++ dwords c2.regs.tail)) := hax.push (by simp [Cpu.regs])
  rw [setLow_low, ← halves c.edi, bytes32_append, List.append_assoc,
    ← List.append_assoc (bytes16 c.ds), ← bytes32_append] at hds
  have hseg : OnStack (exec (isrHandlerEntry.drop 3)
      (push16 .eax (movFromSeg .eax .ds (pushad c2)))) _ := hds.congr rfl rfl
  have hra := hseg.pushVal' ra (by simp [Cpu.regs])
  have harg := (ByteMem.holds_append.1 (ByteMem.holds_append.1 hra).2).1
  rw [bytes32_length] at harg
  have hat : isrHandlerAt ra n sel off c = pushVal ra (exec (isrHandlerEntry.drop 3)
      (push16 .eax (movFromSeg .eax .ds (pushad c2)))) := by
    simp only [isrHandlerAt, isrHandlerEntry, List.cons_append, List.nil_append,
      exec_cons, List.drop_succ_cons, List.drop_zero, c2]
  rw [hat]
  exact read32_of_holds harg

theorem isrHandlerExit_esp (t : Cpu) :
    (exec isrHandlerExit t).esp = t.esp + 54 := by
  show t.esp + 2 + 32 + 8 + 12 = t.esp + 54
  bv_omega

theorem isrHandlerAt_esp (ra : U32) (n : Nat) (sel : U16) (off : U32) (c : Cpu) :
    (isrHandlerAt ra n sel off c).esp = c.esp - 54 := by
  show c.esp - 12 - 4 - 32 - 2 - 4 = c.esp - 54
  bv_omega

/-- However the handler goes about it, the stack pointer ends up four bytes
above where it was. -/
theorem runIsr_esp {ra : U32} {isrHandler : Op} {n : Nat} {sel : U16} {off : U32}
    {c : Cpu} (h : Cdecl (isrHandlerAt ra n sel off c)
      (isrHandler (isrHandlerAt ra n sel off c))) :
    (runIsr ra isrHandler n sel off c).esp = c.esp + 4 := by
  rw [runIsr_eq, isrHandlerExit_esp, h.esp, isrHandlerAt_esp]
  bv_omega

/-- No stub is correct in any context. -/
theorem isr_never_correct {n : Nat} (_ : n ∈ isrStubs) (ra : U32)
    (isrHandler : Op) (sel : U16) (off : U32) (c : Cpu)
    (h : Cdecl (isrHandlerAt ra n sel off c)
      (isrHandler (isrHandlerAt ra n sel off c))) :
    ¬ IsrCorrect ra isrHandler n sel off c := by
  intro ⟨_, hback⟩
  have hesp := hback.esp
  rw [runIsr_esp h] at hesp
  bv_omega

theorem isr_never_correct_debug :
    ¬ IsrCorrect 0x100400 bareReturn 1 0x08 0x100000 idleContext :=
  isr_never_correct (by decide) 0x100400 bareReturn 0x08 0x100000 idleContext
    (bareReturn_cdecl _)

/-- A key pressed in an idle kernel. -/
theorem isr_keyboard_lost :
    Cdecl (isrHandlerAt 0x100400 33 0x08 0x100000 idleContext)
        (bareReturn (isrHandlerAt 0x100400 33 0x08 0x100000 idleContext)) ∧
      ¬ IsrCorrect 0x100400 bareReturn 33 0x08 0x100000 idleContext := by
  refine ⟨bareReturn_cdecl _, fun ⟨_, hback⟩ => ?_⟩
  have hesp := hback.esp
  rw [runIsr_esp (bareReturn_cdecl _)] at hesp
  exact absurd hesp (by decide)

end MicroKernel.Proofs
