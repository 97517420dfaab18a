import MicroKernel.Lib.Emits
import MicroKernel.Machine.Calls

/-!
# System registers and ports

What the setup of the processor leaves behind in it, and what most code leaves
alone. An instruction is quiet when it sends no byte and keeps every system
register; DF and the other flags are no part of this.
-/

namespace MicroKernel.X86

structure Control where
  cs : U16
  ds : U16
  es : U16
  fs : U16
  gs : U16
  ss : U16
  cr0 : U32
  cr3 : U32
  cr4 : U32
  tr : U16
  gdtr : U16 × U32
  idtr : U16 × U32
  deriving DecidableEq, Repr

def Sys.control (s : Sys) : Control where
  cs := s.cs
  ds := s.ds
  es := s.es
  fs := s.fs
  gs := s.gs
  ss := s.ss
  cr0 := s.cr0
  cr3 := s.cr3
  cr4 := s.cr4
  tr := s.tr
  gdtr := s.gdtr
  idtr := s.idtr

/-- From `s` to `t` the bytes of `log` are sent, and no system register changes. -/
abbrev Sends (log : List (U16 × U8)) (s t : Sys) : Prop := Grows Sys.ports Sys.control log s t

/-- `o`, begun in `s`, does, if it ends. -/
abbrev Sending (o : Option Sys) (s : Sys) (log : List (U16 × U8)) : Prop :=
  Emits Sys.ports Sys.control o s log

def QuietInsn (i : Insn) : Prop := ∀ s, Sends [] s (i s)

theorem run_quiet {code : List Insn} (h : ∀ i ∈ code, QuietInsn i) (s : Sys) :
    Sends [] s (run code s) := by
  induction code generalizing s with
  | nil => exact .of_eq rfl rfl
  | cons i code ih =>
      rw [List.forall_mem_cons] at h
      exact (h.1 s).quiet (ih h.2 (i s))

theorem quiet_repeated (i : Insn) (h : QuietInsn i) (n : Nat) (s : Sys) :
    Sends [] s (repeated i n s) := by
  induction n generalizing s with
  | zero => exact .of_eq rfl rfl
  | succ n ih =>
      have hcount : Sends [] (i s) { i s with ecx := (i s).ecx - 1 } := .of_eq rfl rfl
      exact ((h s).quiet hcount).quiet (ih _)

theorem Sending.callTo {f : Routine} {ra : U32} {s : Sys} {log : List (U16 × U8)}
    (h : Sending (f (cpu (pushVal ra) s)) (cpu (pushVal ra) s) log) :
    Sending (X86.callTo ra f s) s log := by
  intro t ht
  obtain ⟨u, hu, hret⟩ := Option.bind_eq_some_iff.1 ht
  have hpush : Sends [] s (cpu (pushVal ra) s) := .of_eq rfl rfl
  split at hret
  · obtain rfl := Option.some.inj hret
    exact hpush.quiet (h u hu)
  · cases hret

/-- The end of a routine that saves its registers. -/
theorem Sending.popad {o : Option Sys} {s : Sys} {log : List (U16 × U8)}
    (h : Sending o s log) : Sending (o.map (run [cpu popad, ret])) s log :=
  h.map fun _ => .of_eq rfl rfl

section
variable {r b : Reg} {s : Sys} (a v : U32)

theorem quiet_setReg (r : Reg) : Sends [] s (s.setReg r v) := by
  cases r <;> exact .of_eq rfl rfl

theorem quiet_set {f : U32} (r : Reg) : Sends [] s ((s.setFlags f).setReg r v) := by
  cases r <;> exact .of_eq rfl rfl

@[simp] theorem quiet_load : QuietInsn (load r a) := fun _ => quiet_setReg _ r

@[simp] theorem quiet_loadAt : QuietInsn (loadAt r b a) := fun _ => quiet_setReg _ r

@[simp] theorem quiet_movImm : QuietInsn (cpu (movImm r v)) := fun _ => quiet_setReg _ r

@[simp] theorem quiet_mov : QuietInsn (cpu (mov r b)) := fun _ => quiet_setReg _ r

@[simp] theorem quiet_mov16 (w : U16) : QuietInsn (cpu (mov16 r w)) := fun _ => quiet_setReg _ r

@[simp] theorem quiet_add : QuietInsn (cpu (add r v)) := fun _ => quiet_set _ r

@[simp] theorem quiet_shr (n : Nat) : QuietInsn (cpu (shr r n)) := fun _ => quiet_set _ r

@[simp] theorem quiet_addMem : QuietInsn (addMem r a) := fun _ => quiet_set _ r

@[simp] theorem quiet_shl1 : QuietInsn (shl1 r) := fun _ => quiet_set _ r

@[simp] theorem quiet_xorSelf : QuietInsn (xorSelf r) := fun _ => quiet_set _ r

@[simp] theorem quiet_orImm : QuietInsn (orImm r v) := fun _ => quiet_set _ r

@[simp] theorem quiet_andImm : QuietInsn (andImm r v) := fun _ => quiet_set _ r

@[simp] theorem quiet_movzxAl : QuietInsn (movzxAl r) := fun _ => quiet_setReg _ r

@[simp] theorem quiet_mul : QuietInsn (mul r) := fun _ => .of_eq rfl rfl

@[simp] theorem quiet_cmpImm : QuietInsn (cmpImm r v) := fun _ => .of_eq rfl rfl

@[simp] theorem quiet_cmpLow (b : U8) : QuietInsn (cmpLow r b) := fun _ => .of_eq rfl rfl

@[simp] theorem quiet_testAl : QuietInsn testAl := fun _ => .of_eq rfl rfl

@[simp] theorem quiet_movAl (b : U8) : QuietInsn (movAl b) := fun _ => .of_eq rfl rfl

@[simp] theorem quiet_movAlLow : QuietInsn (movAlLow r) := fun _ => .of_eq rfl rfl

@[simp] theorem quiet_loadAh : QuietInsn (loadAh a) := fun _ => .of_eq rfl rfl

@[simp] theorem quiet_lodsb : QuietInsn lodsb := fun _ => .of_eq rfl rfl

@[simp] theorem quiet_poke32 : QuietInsn (poke32 a v) := fun _ => .of_eq rfl rfl

@[simp] theorem quiet_poke16 (w : U16) : QuietInsn (poke16 a w) := fun _ => .of_eq rfl rfl

@[simp] theorem quiet_poke8 (x : U8) : QuietInsn (poke8 a x) := fun _ => .of_eq rfl rfl

@[simp] theorem quiet_storeLow16 : QuietInsn (storeLow16 a r) := fun _ => .of_eq rfl rfl

@[simp] theorem quiet_storeAl : QuietInsn (storeAl a) := fun _ => .of_eq rfl rfl

@[simp] theorem quiet_storeAh : QuietInsn (storeAh a) := fun _ => .of_eq rfl rfl

@[simp] theorem quiet_storeAx : QuietInsn (storeAx b) := fun _ => .of_eq rfl rfl

@[simp] theorem quiet_incMem : QuietInsn (incMem a) := fun _ => .of_eq rfl rfl

@[simp] theorem quiet_decMem : QuietInsn (decMem a) := fun _ => .of_eq rfl rfl

@[simp] theorem quiet_pushad : QuietInsn (cpu pushad) := fun _ => .of_eq rfl rfl

@[simp] theorem quiet_pushVal : QuietInsn (cpu (pushVal v)) := fun _ => .of_eq rfl rfl

@[simp] theorem quiet_popad : QuietInsn (cpu popad) := fun _ => .of_eq rfl rfl

@[simp] theorem quiet_ret : QuietInsn ret := fun _ => .of_eq rfl rfl

@[simp] theorem quiet_stosw : QuietInsn (rep stosw) := fun s =>
  quiet_repeated stosw (fun _ => .of_eq rfl rfl) s.ecx.toNat s

@[simp] theorem quiet_movsw : QuietInsn (rep movsw) := fun s =>
  quiet_repeated movsw (fun _ => .of_eq rfl rfl) s.ecx.toNat s

end

end MicroKernel.X86
