import MicroKernel.Core.Interrupts

/-!
# The stubs of `main.core.asm` are transparent

The common stubs are read in two halves around the call. Up to it the stack
only grows, and `OnStack` collects what is on it: the frame, then the pointer
to the frame, then the return address. After it the same bytes are taken off
again, in the reverse order, so the registers that come back are the ones the
frame was built from.

The scratch use of EAX and EBX in the second half is harmless because both are
reloaded from the frame by `popad` afterwards.
-/

namespace MicroKernel.Proofs

open X86 MicroKernel.Core

/-- What `pushad`, the data segment and the two words of the stub leave for
the handler, in ascending order: the slot of ESP holds what `pushad` saw, and
the upper half of the segment slot is what EAX had there. -/
def savedFrame (c : Cpu) (v : Nat) (err : Option U32) : List U32 :=
  [setLow c.eax c.ds, c.edi, c.esi, c.ebp, c.esp - 20, c.ebx, c.edx, c.ecx,
    c.eax, BitVec.ofNat 32 v, err.getD 0]

/-- `fault_handler` for the exceptions, `irq_handler` for the rest. -/
def handlerOf (v : Nat) : Handler := if v < 32 then .faultHandler else .irqHandler

def cpuFrame (c : Cpu) : List U32 := [c.eip, c.cs.setWidth 32, c.eflags]

/-- The handler leaves the bytes the pointer leads to as they are. -/
def KeepsFrame (s s' : Cpu) : Prop :=
  ∀ i, i < 56 → s'.mem (argument s + BitVec.ofNat 32 i) =
    s.mem (argument s + BitVec.ofNat 32 i)

structure Restored (c t : Cpu) : Prop extends Resumed c t where
  ds : t.ds = c.ds
  es : t.es = c.es
  fs : t.fs = c.fs
  gs : t.gs = c.gs

/-- At its first instruction the handler sees a pointer to the frame. -/
def AtHandler (c : Cpu) (v : Nat) (err : Option U32) (s : Cpu) : Prop :=
  ByteMem.Holds s.mem (argument s)
    (dwords (savedFrame c v err ++ cpuFrame c))

/-! ## Up to the call -/

def handlerEntry (ra : U32) (c : Cpu) : Cpu :=
  pushVal ra (exec commonEntry c)

/-- The common entry adds the registers to what the stub pushed, then the
pointer to them and the return address. -/
theorem commonEntry_onStack {c : Cpu} {ws : List U32} (ra : U32)
    (h : OnStack c (dwords ws)) (hfit : 4 * ws.length + 44 ≤ 2 ^ 32) :
    OnStack (handlerEntry ra c)
      (dwords (ra :: (c.esp - 36) :: setLow c.eax c.ds :: (c.regs ++ ws))) := by
  have hlen : (c.regs ++ ws).length = ws.length + 8 := by
    rw [List.length_append, Nat.add_comm]
    rfl
  -- the registers, then DS in the low half of EAX
  have hregs : OnStack (pushad c) (dwords (c.regs ++ ws)) :=
    h.pushDwords (by omega)
  have hax : OnStack (movFromSeg .eax .ds (pushad c)) (dwords (c.regs ++ ws)) :=
    hregs.congr rfl rfl
  let c2 := push .eax (movFromSeg .eax .ds (pushad c))
  have hds : OnStack c2 (dwords (setLow c.eax c.ds :: (c.regs ++ ws))) :=
    hax.pushVal (by omega)
  have hsp : c2.esp = c.esp - 36 := by
    show c.esp - 32 - 4 = c.esp - 36
    bv_omega
  -- the kernel's segments, the pointer to the frame, the return address
  have hseg : OnStack (exec ((commonEntry.drop 3).take 6) c2)
      (dwords (setLow c.eax c.ds :: (c.regs ++ ws))) := hds.congr rfl rfl
  have hptr := hseg.pushVal (v := c2.esp) (by simp only [List.length_cons]; omega)
  rw [← hsp]
  exact hptr.pushVal (v := ra) (by simp only [List.length_cons]; omega)

/-! ## From the call on -/

/-- With the frame on top once the argument is popped, everything in it ends
up where it came from. -/
theorem commonExit_onStack {c t : Cpu} {sel n e ip cs fl : U32}
    (h : OnStack (pop .eax t)
      (dwords (sel :: (c.regs ++ [n, e, ip, cs, fl])))) :
    exec commonExit t =
      { c with
        esp := t.esp + 60, eip := ip, eflags := fl, cs := cs.setWidth 16
        ds := sel.setWidth 16, es := sel.setWidth 16, fs := sel.setWidth 16
        gs := sel.setWidth 16, mem := t.mem } := by
  have hsel : (pop .eax t).mem.read32 (pop .eax t).esp = sel := by
    rw [← BitVec.add_zero (pop .eax t).esp]
    exact h.slot (i := 0) (by simp)
  -- EBX carries the selector to the four segment registers
  let t2 := exec ((commonExit.drop 1).take 5) (pop .eax t)
  have hregs : OnStack t2 (dwords (c.regs ++ [n, e, ip, cs, fl])) := by
    have hall : OnStack _ (dwords ([sel] ++ (c.regs ++ [n, e, ip, cs, fl]))) := h
    exact hall.drop rfl rfl
  have hds : t2.ds = sel.setWidth 16 := by
    rw [← hsel]
    rfl
  have hsp : t2.esp = t.esp + 8 := by
    show t.esp + 4 + 4 = t.esp + 8
    bv_omega
  have hret : OnStack (add .esp 8 (popad t2)) (dwords [ip, cs, fl]) := by
    have hall : OnStack t2 (dwords ((c.regs ++ [n, e]) ++ [ip, cs, fl])) := by
      rw [List.append_assoc]
      exact hregs
    refine hall.drop rfl ?_
    show t2.esp + 32 + 8 = t2.esp + 40
    bv_omega
  have hend : t.esp + 8 + 32 + 8 + 12 = t.esp + 60 := by bv_omega
  show iret (add .esp 8 (popad t2)) = _
  rw [iret_onStack hret, popad_onStack hregs, ← hds]
  simp only [add, Cpu.get, Cpu.set, hsp, hend]
  rfl

/-! ## The stub -/

def stubEntry (v : Nat) (off : U32) (err : Option U32) (c : Cpu) : Cpu :=
  exec (if hasErrorCode v then [cli, pushByte (BitVec.ofNat 8 v)] else
    [cli, pushByte 0, pushByte (BitVec.ofNat 8 v)]) (interrupt 0x08 off err c)

theorem vectorStub_eq : ∀ v, v < 48 → vectorStub v =
    some (if 32 ≤ v then .irqStub (v - 32) v else
      if hasErrorCode v then .isrErrStub v else .isrNoErrStub v) := by
  decide

theorem hasErrorCode_irq : ∀ v, v < 48 → 32 ≤ v → hasErrorCode v = false := by
  decide

theorem signExtend_vector : ∀ v, v < 48 →
    (BitVec.ofNat 8 v).signExtend 32 = BitVec.ofNat 32 v := by
  decide

/-- Whatever the handlers are, exactly one is called, once, between the two
halves. -/
theorem runVector_eq {v : Nat} (hv : v < 48) (ret : Handler → U32)
    (ext : Handler → Op) (off : U32) (err : Option U32) (c : Cpu) :
    runVector ret ext v off err c = some (exec commonExit (ext (handlerOf v)
      (handlerEntry (ret (handlerOf v)) (stubEntry v off err c)))) := by
  rw [runVector, vectorStub_eq v hv, Option.map_some, stubEntry, handlerOf]
  split
  · next h =>
      rw [hasErrorCode_irq v hv h, if_neg (Nat.not_lt.2 h)]
      rfl
  · next h =>
      rw [if_pos (Nat.lt_of_not_le h)]
      split <;> rfl

/-- The stub's own pushes make the two kinds of vector alike. -/
theorem stubEntry_onStack {v : Nat} (hv : v < 48) {err : Option U32}
    (herr : err.isSome = hasErrorCode v) (off : U32) (c : Cpu) :
    OnStack (stubEntry v off err c)
      (dwords (BitVec.ofNat 32 v :: err.getD 0 :: cpuFrame c)) := by
  have hcpu : OnStack (interrupt 0x08 off err c)
      (dwords (err.toList ++ cpuFrame c ++ [])) := by
    refine OnStack.congr (OnStack.pushDwords trivial ?_) rfl rfl
    cases err <;> simp [cpuFrame]
  rw [List.append_nil] at hcpu
  have hcli : OnStack (cli (interrupt 0x08 off err c))
      (dwords (err.toList ++ cpuFrame c)) := hcpu.congr rfl rfl
  rw [← signExtend_vector v hv, stubEntry]
  cases err with
  | none =>
      have hzero : OnStack (pushByte 0 (cli (interrupt 0x08 off none c)))
          (dwords (0 :: cpuFrame c)) := hcli.pushVal (by simp [cpuFrame])
      rw [← herr]
      exact hzero.pushVal (by simp [cpuFrame])
  | some e =>
      rw [← herr]
      exact hcli.pushVal (by simp [cpuFrame])

theorem stubEntry_regs {v : Nat} {err : Option U32}
    (herr : err.isSome = hasErrorCode v) (off : U32) (c : Cpu) :
    ∃ f m, stubEntry v off err c = { c with
      esp := c.esp - 20, eip := off, eflags := f, cs := 0x08, mem := m } := by
  have hsp : c.esp - 12 - 4 - 4 = c.esp - 20 := by bv_omega
  have hsp' : c.esp - 16 - 4 = c.esp - 20 := by bv_omega
  rw [stubEntry, ← herr]
  cases err with
  | none => exact ⟨_, _, by rw [← hsp]; rfl⟩
  | some e => exact ⟨_, _, by rw [← hsp']; rfl⟩

theorem savedFrame_eq {v : Nat} {err : Option U32} (off : U32) (c : Cpu)
    (herr : err.isSome = hasErrorCode v) :
    savedFrame c v err ++ cpuFrame c =
      let b := stubEntry v off err c
      setLow b.eax b.ds ::
        (b.regs ++ BitVec.ofNat 32 v :: err.getD 0 :: cpuFrame c) := by
  obtain ⟨f, m, hb⟩ := stubEntry_regs herr off c
  rw [hb]
  rfl

theorem handlerEntry_esp (ra : U32) (b : Cpu) :
    (handlerEntry ra b).esp = b.esp - 44 := by
  show b.esp - 32 - 4 - 4 - 4 = b.esp - 44
  bv_omega

theorem handlerEntry_atHandler {v : Nat} (hv : v < 48) {err : Option U32}
    (herr : err.isSome = hasErrorCode v) (ra off : U32) (c : Cpu) :
    AtHandler c v err (handlerEntry ra (stubEntry v off err c)) ∧
      argument (handlerEntry ra (stubEntry v off err c)) = c.esp - 56 := by
  have hesp : (stubEntry v off err c).esp = c.esp - 20 := by
    obtain ⟨f, m, hb⟩ := stubEntry_regs herr off c
    rw [hb]
  obtain ⟨harg, hframe⟩ := argument_onStack (commonEntry_onStack ra
    (stubEntry_onStack hv herr off c) (by simp [cpuFrame]))
  have hp : c.esp - 20 - 36 = c.esp - 56 := by bv_omega
  have hsp : c.esp - 20 - 44 + 8 = c.esp - 56 := by bv_omega
  rw [hesp, hp] at harg
  rw [handlerEntry_esp, hesp, hsp] at hframe
  refine ⟨?_, harg⟩
  rw [AtHandler, harg, savedFrame_eq off c herr]
  exact hframe

/-- The handler has returned and its argument is popped: the frame is on top. -/
theorem frame_onStack {s s' : Cpu} {fr : List U32} (hc : Cdecl s s')
    (hk : KeepsFrame s s') (hlen : fr.length = 14)
    (hsp : s.esp + 8 = argument s)
    (h : ByteMem.Holds s.mem (argument s) (dwords fr)) :
    OnStack (pop .eax s') (dwords fr) := by
  have hbytes : ByteMem.Holds s'.mem (argument s) (dwords fr) := by
    refine h.congr fun i hi => hk i ?_
    rw [dwords_length, hlen] at hi
    exact hi
  have htop : (pop .eax s').esp = argument s := by
    rw [← hsp]
    show s'.esp + 4 = s.esp + 8
    rw [hc.esp]
    bv_omega
  rw [OnStack, htop]
  exact hbytes

/-- Every interrupt comes back to where it was taken, with every register as
it was, and its handler is called with a pointer to the frame. -/
theorem interrupt_transparent {v : Nat} (hv : v < 48) (c : Cpu)
    {err : Option U32} (herr : err.isSome = hasErrorCode v)
    (hes : c.es = c.ds) (hfs : c.fs = c.ds) (hgs : c.gs = c.ds)
    (ret : Handler → U32) (off : U32) :
    ∃ s, AtHandler c v err s ∧ ∀ ext : Handler → Op,
      runVector ret ext v off err c =
        some (exec commonExit (ext (handlerOf v) s)) ∧
      (Cdecl s (ext (handlerOf v) s) → KeepsFrame s (ext (handlerOf v) s) →
        Restored c (exec commonExit (ext (handlerOf v) s))) := by
  obtain ⟨hat, harg⟩ := handlerEntry_atHandler hv herr (ret (handlerOf v)) off c
  obtain ⟨f, m, hb⟩ := stubEntry_regs herr off c
  have hesp : (handlerEntry (ret (handlerOf v)) (stubEntry v off err c)).esp =
      c.esp - 64 := by
    rw [handlerEntry_esp, hb]
    show c.esp - 20 - 44 = c.esp - 64
    bv_omega
  refine ⟨handlerEntry (ret (handlerOf v)) (stubEntry v off err c), hat,
    fun ext => ⟨runVector_eq hv ret ext off err c, fun hcdecl hkeep => ?_⟩⟩
  generalize handlerEntry (ret (handlerOf v)) (stubEntry v off err c) = s at *
  have hsp : s.esp + 8 = argument s := by
    rw [harg, hesp]
    bv_omega
  have hstack := frame_onStack hcdecl hkeep rfl hsp hat
  rw [savedFrame_eq off c herr] at hstack
  have hexit := commonExit_onStack hstack
  have hend : c.esp - 64 + 4 + 60 = c.esp := by bv_omega
  rw [hb, setLow_low, hcdecl.esp, hesp, hend] at hexit
  have hcs : (c.cs.setWidth 32).setWidth 16 = c.cs := by simp
  rw [hexit, hcs]
  exact {
    eax := rfl, ecx := rfl, edx := rfl, ebx := rfl, esp := rfl, ebp := rfl
    esi := rfl, edi := rfl, eip := rfl, eflags := rfl, cs := rfl, ds := rfl
    es := hes.symm, fs := hfs.symm, gs := hgs.symm }

/-- A page fault taken in an idle kernel, with a handler that only returns. -/
theorem interrupt_transparent_pageFault :
    ∃ t, runVector (fun _ => 0x100400) (fun _ => bareReturn) 14 0x100000
      (some 2) idleContext = some t ∧ Restored idleContext t := by
  have herr : (some 2 : Option U32).isSome = hasErrorCode 14 := by decide
  obtain ⟨s, -, h⟩ := interrupt_transparent (by decide) idleContext herr rfl rfl
    rfl (fun _ => 0x100400) 0x100000
  obtain ⟨hrun, hback⟩ := h fun _ => bareReturn
  exact ⟨_, hrun, hback (bareReturn_cdecl s) fun _ _ => rfl⟩

end MicroKernel.Proofs
