import MicroKernel.Lib.Block
import MicroKernel.Machine.System

/-!
# Saved registers and calls

A routine that begins with `pusha` and ends with `popa` and `ret` gives its
caller back every general register, as long as what it does in between leaves
ESP where it was and stays off the bytes from there to the return address. All
else is as its body leaves it.
-/

namespace MicroKernel.X86

open ByteMem

/-- The state `t` with the general registers of `s`. -/
def Sys.withRegs (t s : Sys) : Sys :=
  { t with
    eax := s.eax, ecx := s.ecx, edx := s.edx, ebx := s.ebx
    esp := s.esp, ebp := s.ebp, esi := s.esi, edi := s.edi }

theorem Sys.esp_of_withRegs {t s : Sys} (h : t.withRegs s = t) : t.esp = s.esp := by
  rw [← h]
  rfl

theorem Sys.esi_of_withRegs {t s : Sys} (h : t.withRegs s = t) : t.esi = s.esi := by
  rw [← h]
  rfl

theorem Sys.ebx_of_withRegs {t s : Sys} (h : t.withRegs s = t) : t.ebx = s.ebx := by
  rw [← h]
  rfl

/-- The state after the `ret` of a routine that was entered in `s` and whose
body ended in `t`. -/
def Sys.returned (s t : Sys) : Sys :=
  { t.withRegs s with esp := s.esp + 4, eip := s.mem.read32 s.esp }

/-- There are `n` bytes for the stack below `sp`, and the return address above. -/
structure Room (sp : U32) (n : Nat) : Prop where
  below : n ≤ sp.toNat
  above : sp.toNat + 4 ≤ 2 ^ 32

theorem Room.mono {sp : U32} {n k : Nat} (h : Room sp n) (hk : k ≤ n) : Room sp k :=
  ⟨Nat.le_trans hk h.below, h.above⟩

theorem Room.sub {sp : U32} {n k : Nat} (h : Room sp (n + k)) (hk : 4 ≤ k) :
    Room (sp - BitVec.ofNat 32 k) n ∧ (sp - BitVec.ofNat 32 k).toNat = sp.toNat - k := by
  have hbelow := h.below
  have habove := h.above
  have hsub : (sp - BitVec.ofNat 32 k).toNat = sp.toNat - k := below_toNat (by omega)
  exact ⟨⟨by omega, by omega⟩, hsub⟩

theorem bytes32_read32 (m : PhysMem) (a : U32) : Holds m a (bytes32 (m.read32 a)) := by
  have hval : (m.read32 a).toNat = readLE m a 4 := by
    rw [PhysMem.read32, BitVec.toNat_ofNat, Nat.mod_eq_of_lt]
    exact Nat.lt_of_lt_of_eq (readLE_lt m a 4) (by decide)
  rw [bytes32, hval]
  exact holds_readLE m a 4

theorem bytes16_read16 (m : PhysMem) (a : U32) :
    bytes16 (m.read16 a) = leBytes 2 (readLE m a 2) := by
  rw [bytes16, PhysMem.read16, BitVec.toNat_ofNat, Nat.mod_eq_of_lt]
  exact Nat.lt_of_lt_of_eq (readLE_lt m a 2) (by decide)

theorem read16_touches {R : U32 → Prop} {m m' : PhysMem} {a : U32}
    (h : Touches R m m') (hfit : a.toNat + 2 ≤ 2 ^ 32)
    (hout : ∀ x : U32, Within a.toNat (a.toNat + 2) x → ¬ R x) : m'.read16 a = m.read16 a := by
  rw [PhysMem.read16, PhysMem.read16, h.readLE hfit hout]

theorem read32_touches {R : U32 → Prop} {m m' : PhysMem} {a : U32}
    (h : Touches R m m') (hfit : a.toNat + 4 ≤ 2 ^ 32)
    (hout : ∀ x : U32, Within a.toNat (a.toNat + 4) x → ¬ R x) : m'.read32 a = m.read32 a := by
  rw [PhysMem.read32, PhysMem.read32, h.readLE hfit hout]

theorem read32_write_apart {m : PhysMem} {a b : U32} (v : U32) (ha : a.toNat + 4 ≤ 2 ^ 32)
    (hb : b.toNat + 4 ≤ 2 ^ 32) (hapart : a.toNat + 4 ≤ b.toNat ∨ b.toNat + 4 ≤ a.toNat) :
    PhysMem.read32 (ByteMem.write m b (bytes32 v)) a = m.read32 a := by
  have htouch := touches_write (m := m) (a := b) (b := bytes32 v) hb
  refine read32_touches htouch ha fun x hx hx' => ?_
  rw [Within, bytes32_length] at hx'
  rw [Within] at hx
  omega

theorem pushad_esp (c : Cpu) : (pushad c).esp = c.esp - 32 := by
  show c.esp - BitVec.ofNat 32 (dwords c.regs).length = _
  rw [dwords_length, Cpu.regs_length]
  rfl

/-- A push below `sp`. -/
theorem touches_pushDwords {c : Cpu} {ws : List U32} {n : Nat} (hn : 4 * ws.length = n)
    (hroom : n ≤ c.esp.toNat) :
    Touches (Within (c.esp.toNat - n) c.esp.toNat) c.mem (pushDwords ws c).mem := by
  have hlen : (dwords ws).length = n := by rw [dwords_length, hn]
  have hlt := c.esp.isLt
  have hsub := below_toNat hroom
  show Touches _ c.mem
    (ByteMem.write c.mem (c.esp - BitVec.ofNat 32 (dwords ws).length) (dwords ws))
  rw [hlen]
  refine (touches_write (by omega)).mono fun x hx => ?_
  rw [Within] at hx ⊢
  omega

/-- The end of a routine whose body has kept off the saved registers. -/
theorem popad_ret {s t : Sys} {R : U32 → Prop} (hroom : Room s.esp 32)
    (hesp : t.esp = (pushad s.toCpu).esp) (hmem : Touches R (pushad s.toCpu).mem t.mem)
    (hout : ∀ x : U32, Within (s.esp.toNat - 32) (s.esp.toNat + 4) x → ¬ R x) :
    ret (cpu popad t) = s.returned t := by
  rw [pushad_esp] at hesp
  have hra : OnStack s.toCpu (dwords [s.mem.read32 s.esp]) := by
    have h := bytes32_read32 s.mem s.esp
    rw [← List.append_nil (bytes32 _)] at h
    exact h
  have hsaved : OnStack (pushad s.toCpu) (dwords (s.regs ++ [s.mem.read32 s.esp])) :=
    hra.pushDwords (show 4 * 9 ≤ 2 ^ 32 by decide)
  obtain ⟨-, hsp⟩ := Room.sub (n := 0) (k := 32) hroom (by decide)
  have htop : OnStack t.toCpu (dwords (s.regs ++ [s.mem.read32 s.esp])) := by
    have hstack : Holds t.mem (s.esp - 32) (dwords (s.regs ++ [s.mem.read32 s.esp])) := by
      refine Holds.touches hsaved hmem ?_ fun x hx => hout x ?_
      · show (s.esp - 32#32).toNat + 36 ≤ _
        rw [hsp]
        have := hroom.above
        have := hroom.below
        omega
      · have hx' : Within (s.esp - 32#32).toNat ((s.esp - 32#32).toNat + 36) x := hx
        have := hroom.below
        rw [hsp, Within] at hx'
        rw [Within]
        omega
    rw [OnStack, hesp]
    exact hstack
  have hret : OnStack (popad t.toCpu) (dwords [s.mem.read32 s.esp]) :=
    htop.drop rfl rfl
  have hslot := hret.slot (i := 0) Nat.zero_lt_one
  rw [BitVec.add_zero] at hslot
  have hend : t.esp + 32 + 4 = s.esp + 4 := by
    rw [hesp, BitVec.sub_add_cancel]
  have hpop : cpu popad t = { t.withRegs s with esp := t.esp + 32 } := by
    rw [cpu, popad_onStack htop]
    rfl
  show ({ cpu popad t with
    eip := (popad t.toCpu).mem.read32 (popad t.toCpu).esp
    esp := (cpu popad t).esp + 4 } : Sys) = _
  rw [hslot, hpop]
  show ({ t.withRegs s with eip := _, esp := t.esp + 32 + 4 } : Sys) = _
  rw [hend]
  rfl

theorem pushVal_read (ra : U32) (s : Sys) :
    (cpu (pushVal ra) s).mem.read32 (cpu (pushVal ra) s).esp = ra := by
  have hempty : OnStack s.toCpu [] := trivial
  have htop := hempty.pushVal' ra (by decide)
  rw [List.append_nil] at htop
  exact read32_of_holds htop

/-- A call of such a routine changes no general register, ESP included. -/
theorem callTo_returned {ra : U32} {f : Routine} {s t : Sys}
    (h : f (cpu (pushVal ra) s) = some ((cpu (pushVal ra) s).returned t)) :
    callTo ra f s = some { t.withRegs s with eip := ra } := by
  have hback : ((cpu (pushVal ra) s).returned t).eip = ra := pushVal_read ra s
  have hesp : s.esp - 4 + 4 = s.esp := BitVec.sub_add_cancel _ _
  rw [callTo, h, Option.bind_some, if_pos hback, Sys.returned, pushVal_read]
  show some ({ t.withRegs s with esp := s.esp - 4 + 4, eip := ra } : Sys) = _
  rw [hesp]
  rfl

/-! ## Plain instructions

Those that change registers, flags and ports, but neither ESP nor EBX nor DF nor
memory. -/

structure Plain (s t : Sys) : Prop where
  esp : t.esp = s.esp
  ebx : t.ebx = s.ebx
  df : t.df = s.df
  mem : t.mem = s.mem
  stored : t.stored = s.stored

def PlainInsn (i : Insn) : Prop := ∀ s, Plain s (i s)

theorem Plain.trans {s t u : Sys} (h : Plain s t) (h' : Plain t u) : Plain s u :=
  ⟨h'.esp.trans h.esp, h'.ebx.trans h.ebx, h'.df.trans h.df, h'.mem.trans h.mem,
    h'.stored.trans h.stored⟩

theorem run_plain {code : List Insn} (h : ∀ i ∈ code, PlainInsn i) (s : Sys) :
    Plain s (run code s) := by
  induction code generalizing s with
  | nil => exact ⟨rfl, rfl, rfl, rfl, rfl⟩
  | cons i code ih =>
      rw [List.forall_mem_cons] at h
      exact (h.1 s).trans (ih h.2 (i s))

theorem run_append (p q : List Insn) (s : Sys) : run (p ++ q) s = run q (run p s) :=
  List.foldl_append ..

section
variable {r : Reg} (a v : U32)

theorem plain_set {s : Sys} {f : U32} (hr : r ≠ .esp ∧ r ≠ .ebx)
    (hf : flag f 10 = flag s.eflags 10) : Plain s ((s.setFlags f).setReg r v) := by
  cases r with
  | esp => exact absurd rfl hr.1
  | ebx => exact absurd rfl hr.2
  | _ => exact ⟨rfl, rfl, hf, rfl, rfl⟩

theorem plain_flags {s : Sys} {f : U32} (hf : flag f 10 = flag s.eflags 10) :
    Plain s (s.setFlags f) := ⟨rfl, rfl, hf, rfl, rfl⟩

@[simp] theorem plain_load (hr : r ≠ .esp ∧ r ≠ .ebx) : PlainInsn (load r a) :=
  fun _ => plain_set _ hr rfl

@[simp] theorem plain_movImm (hr : r ≠ .esp ∧ r ≠ .ebx) : PlainInsn (cpu (movImm r v)) :=
  fun _ => plain_set _ hr rfl

@[simp] theorem plain_mov16 (w : U16) (hr : r ≠ .esp ∧ r ≠ .ebx) : PlainInsn (cpu (mov16 r w)) :=
  fun _ => plain_set _ hr rfl

@[simp] theorem plain_add (hr : r ≠ .esp ∧ r ≠ .ebx) : PlainInsn (cpu (add r v)) :=
  fun _ => plain_set _ hr (df_addFlags ..)

@[simp] theorem plain_shr (n : Nat) (hr : r ≠ .esp ∧ r ≠ .ebx) : PlainInsn (cpu (shr r n)) :=
  fun _ => plain_set _ hr (df_shrFlags ..)

@[simp] theorem plain_addMem (hr : r ≠ .esp ∧ r ≠ .ebx) : PlainInsn (addMem r a) :=
  fun _ => plain_set _ hr (df_addFlags ..)

@[simp] theorem plain_shl1 (hr : r ≠ .esp ∧ r ≠ .ebx) : PlainInsn (shl1 r) :=
  fun _ => plain_set _ hr (by simp [flag_setBit])

@[simp] theorem plain_xorSelf (hr : r ≠ .esp ∧ r ≠ .ebx) : PlainInsn (xorSelf r) :=
  fun _ => plain_set _ hr (df_logicFlags ..)

@[simp] theorem plain_andImm (hr : r ≠ .esp ∧ r ≠ .ebx) : PlainInsn (andImm r v) :=
  fun _ => plain_set _ hr (df_logicFlags ..)

@[simp] theorem plain_orImm (hr : r ≠ .esp ∧ r ≠ .ebx) : PlainInsn (orImm r v) :=
  fun _ => plain_set _ hr (df_logicFlags ..)

@[simp] theorem plain_movzxAl (hr : r ≠ .esp ∧ r ≠ .ebx) : PlainInsn (movzxAl r) :=
  fun _ => plain_set _ hr rfl

@[simp] theorem plain_mul : PlainInsn (mul r) :=
  fun _ => ⟨rfl, rfl, by simp [mul, Cpu.df, flag_setBit], rfl, rfl⟩

@[simp] theorem plain_cmpImm : PlainInsn (cmpImm r v) :=
  fun _ => plain_flags (df_cmpFlags ..)

@[simp] theorem plain_cmpLow (b : U8) : PlainInsn (cmpLow r b) :=
  fun _ => plain_flags (df_cmpFlags ..)

@[simp] theorem plain_testAl : PlainInsn testAl :=
  fun _ => plain_flags (df_logicFlags ..)

@[simp] theorem plain_testSelf : PlainInsn (testSelf r) :=
  fun _ => plain_flags (df_logicFlags ..)

@[simp] theorem plain_cmpMem : PlainInsn (cmpMem a v) :=
  fun _ => plain_flags (df_cmpFlags ..)

@[simp] theorem plain_bt (i : Nat) : PlainInsn (bt r i) :=
  fun _ => plain_flags (by rw [flag_setBit _ _ _ (by decide), if_neg (by decide)])

@[simp] theorem plain_movAl (b : U8) : PlainInsn (movAl b) := fun _ => ⟨rfl, rfl, rfl, rfl, rfl⟩

@[simp] theorem plain_movAlLow : PlainInsn (movAlLow r) := fun _ => ⟨rfl, rfl, rfl, rfl, rfl⟩

@[simp] theorem plain_loadAh : PlainInsn (loadAh a) := fun _ => ⟨rfl, rfl, rfl, rfl, rfl⟩

@[simp] theorem plain_lodsb : PlainInsn lodsb := fun _ => ⟨rfl, rfl, rfl, rfl, rfl⟩

@[simp] theorem plain_outDx : PlainInsn outDx := fun _ => ⟨rfl, rfl, rfl, rfl, rfl⟩

end

/-! ## Repeated string instructions -/

theorem repeated_stosw (n : Nat) (s : Sys) :
    (repeated stosw n s).esp = s.esp ∧ (repeated stosw n s).df = s.df ∧
      (repeated stosw n s).mem =
        fill (bytes16 (s.eax.setWidth 16)) (s.stride 2) n s.mem s.edi ∧
      (repeated stosw n s).stored = s.stored ++ strides 2 (s.stride 2) n s.edi := by
  induction n generalizing s with
  | zero => exact ⟨rfl, rfl, rfl, (List.append_nil _).symm⟩
  | succ n ih =>
      obtain ⟨hesp, hdf, hmem, hstored⟩ := ih { stosw s with ecx := (stosw s).ecx - 1 }
      refine ⟨hesp, hdf, hmem, hstored.trans ?_⟩
      exact List.append_assoc _ _ _

theorem repeated_movsw (n : Nat) (s : Sys) :
    (repeated movsw n s).esp = s.esp ∧ (repeated movsw n s).df = s.df ∧
      (repeated movsw n s).mem = copy 2 (s.stride 2) n s.mem s.esi s.edi ∧
      (repeated movsw n s).stored = s.stored ++ strides 2 (s.stride 2) n s.edi := by
  induction n generalizing s with
  | zero => exact ⟨rfl, rfl, rfl, (List.append_nil _).symm⟩
  | succ n ih =>
      obtain ⟨hesp, hdf, hmem, hstored⟩ := ih { movsw s with ecx := (movsw s).ecx - 1 }
      refine ⟨hesp, hdf, hmem.trans ?_, hstored.trans ?_⟩
      · rw [copy, ← bytes16_read16]
        rfl
      · exact List.append_assoc _ _ _

/-- Its address and its store of a word move with DF. -/
theorem stride_congr {s t : Sys} (h : t.df = s.df) (n : U32) : t.stride n = s.stride n := by
  rw [Cpu.stride, Cpu.stride, h]

theorem stride_clear {c : Cpu} (h : c.df = false) (n : U32) : c.stride n = n := by
  rw [Cpu.stride, h]
  exact if_neg Bool.false_ne_true

theorem stride_cases (c : Cpu) (n : Nat) :
    c.stride (BitVec.ofNat 32 n) = BitVec.ofNat 32 n ∨
      c.stride (BitVec.ofNat 32 n) = -BitVec.ofNat 32 n := by
  rw [Cpu.stride]
  split
  · exact Or.inr rfl
  · exact Or.inl rfl

/-! ## A character and its attribute -/

theorem setWidth_setAl (r : U32) (b : U8) : (setAl r b).setWidth 8 = b := by
  rw [setAl]
  exact BitVec.setWidth_append_eq_right

theorem ax_setAh (r : U32) (b : U8) :
    (setAh r b).setWidth 16 = b ++ (r.setWidth 8 : U8) := by
  rw [setAh]
  exact BitVec.setWidth_append_eq_right

/-- AH and AL are written over the lower half, whatever EAX is needed for. -/
theorem setAl_setAh (r : U32) (a c : U8) :
    setAl (setAh r a) c = r.extractLsb' 16 16 ++ (a ++ c : U16) := by
  ext i hi
  rw [setAl, setAh, BitVec.getElem_append, BitVec.getElem_append]
  by_cases h8 : i < 8
  · rw [dif_pos h8, dif_pos (by omega), BitVec.getElem_append, dif_pos h8]
  · have hback : 8 + (i - 8) = i := by omega
    rw [dif_neg h8, BitVec.getElem_extractLsb', BitVec.getLsbD_append, hback]
    by_cases h16 : i < 16
    · rw [dif_pos h16, if_pos h16, BitVec.getElem_append, dif_neg h8,
        BitVec.getLsbD_append, if_neg h8]
      exact BitVec.getLsbD_eq_getElem _
    · rw [dif_neg h16, if_neg h16]
      exact BitVec.getLsbD_eq_getElem _

end MicroKernel.X86
