import MicroKernel.Machine.Word

/-!
# The i386 in protected mode

The instructions the kernel's assembly is written in, each a function on the
processor state, so a piece of assembly is a list of them and running it is a
fold (`exec`). Segments are flat and the interrupted code, the stub and the
handler all run in ring 0: no instruction switches stacks, and loading a
segment register checks no descriptor. EIP is the interrupted one until a gate
or an `iret` replaces it; where inside a piece of code the processor stands is
the position in the list.

Everything an interrupt path does to memory it does by pushing. `OnStack` says
which bytes lie from ESP on; a push conses to them, a pop takes from them, and
no other instruction here touches either ESP or memory.
-/

namespace MicroKernel.X86

inductive Reg where
  | eax | ecx | edx | ebx | esp | ebp | esi | edi
  deriving DecidableEq, Repr

inductive SReg where
  | cs | ds | es | fs | gs
  deriving DecidableEq, Repr

structure Cpu where
  eax : U32
  ecx : U32
  edx : U32
  ebx : U32
  esp : U32
  ebp : U32
  esi : U32
  edi : U32
  eip : U32
  eflags : U32
  cs : U16
  ds : U16
  es : U16
  fs : U16
  gs : U16
  mem : PhysMem

abbrev Op := Cpu → Cpu

def exec (code : List Op) (c : Cpu) : Cpu := code.foldl (fun c op => op c) c

@[simp] theorem exec_nil (c : Cpu) : exec [] c = c := rfl

@[simp] theorem exec_cons (op : Op) (code : List Op) (c : Cpu) :
    exec (op :: code) c = exec code (op c) := rfl

theorem exec_append (p q : List Op) (c : Cpu) :
    exec (p ++ q) c = exec q (exec p c) := List.foldl_append ..

def Cpu.get (c : Cpu) : Reg → U32
  | .eax => c.eax
  | .ecx => c.ecx
  | .edx => c.edx
  | .ebx => c.ebx
  | .esp => c.esp
  | .ebp => c.ebp
  | .esi => c.esi
  | .edi => c.edi

def Cpu.set (c : Cpu) (r : Reg) (v : U32) : Cpu :=
  match r with
  | .eax => { c with eax := v }
  | .ecx => { c with ecx := v }
  | .edx => { c with edx := v }
  | .ebx => { c with ebx := v }
  | .esp => { c with esp := v }
  | .ebp => { c with ebp := v }
  | .esi => { c with esi := v }
  | .edi => { c with edi := v }

def Cpu.sget (c : Cpu) : SReg → U16
  | .cs => c.cs
  | .ds => c.ds
  | .es => c.es
  | .fs => c.fs
  | .gs => c.gs

def Cpu.sset (c : Cpu) (s : SReg) (v : U16) : Cpu :=
  match s with
  | .cs => { c with cs := v }
  | .ds => { c with ds := v }
  | .es => { c with es := v }
  | .fs => { c with fs := v }
  | .gs => { c with gs := v }

/-- A 16-bit write to a register keeps its upper half. -/
def setLow (r : U32) (v : U16) : U32 := r.extractLsb' 16 16 ++ v

/-! ## Flags -/

def setBit (f : U32) (i : Nat) (b : Bool) : U32 :=
  if b then f ||| 1#32 <<< i else f &&& ~~~(1#32 <<< i)

/-- PF, ZF and SF, which only depend on the result. -/
def resultFlags (f s : U32) : U32 :=
  let f := setBit f 2 ((List.range 8).countP s.getLsbD % 2 == 0)
  let f := setBit f 6 (s == 0)
  setBit f 7 s.msb

def addFlags (f a b : U32) : U32 :=
  let s := a + b
  let f := setBit f 0 (decide (2 ^ 32 ≤ a.toNat + b.toNat))
  let f := setBit f 4 (decide (16 ≤ a.toNat % 16 + b.toNat % 16))
  let f := setBit f 11 (a.msb == b.msb && s.msb != a.msb)
  resultFlags f s

/-- After a shift by more than one, which leaves AF and OF undefined; here
they keep their values. -/
def shrFlags (f a : U32) (n : Nat) : U32 :=
  resultFlags (setBit f 0 (a.getLsbD (n - 1))) (a >>> n)

/-! ## Instructions -/

def pushBytes (bs : List U8) : Op := fun c =>
  let sp := c.esp - BitVec.ofNat 32 bs.length
  { c with esp := sp, mem := ByteMem.write c.mem sp bs }

/-- Several dwords, the last one first, so that `ws` ascends in memory. -/
def pushDwords (ws : List U32) : Op := pushBytes (dwords ws)

def pushVal (v : U32) : Op := pushDwords [v]

/-- `push r32`: what is stored is the register as it was before. -/
def push (r : Reg) : Op := fun c => pushVal (c.get r) c

/-- `push imm8`, sign-extended to the operand size. -/
def pushByte (b : U8) : Op := pushVal (b.signExtend 32)

def push16 (r : Reg) : Op := fun c =>
  pushBytes (bytes16 ((c.get r).setWidth 16)) c

def pop (r : Reg) : Op := fun c =>
  { c with esp := c.esp + 4 }.set r (c.mem.read32 c.esp)

def pop16 (r : Reg) : Op := fun c =>
  { c with esp := c.esp + 2 }.set r (setLow (c.get r) (c.mem.read16 c.esp))

/-- The general registers, as `pushad` leaves them in memory. -/
def Cpu.regs (c : Cpu) : List U32 :=
  [c.edi, c.esi, c.ebp, c.esp, c.ebx, c.edx, c.ecx, c.eax]

@[simp] theorem Cpu.regs_length (c : Cpu) : c.regs.length = 8 := rfl

/-- `pusha` and `pushad`: EAX first and EDI last, and the ESP stored is the one
before the first push. -/
def pushad : Op := fun c => pushDwords c.regs c

/-- `popa` and `popad`: the stored ESP is skipped. -/
def popad : Op := fun c =>
  let slot (i : Nat) := c.mem.read32 (c.esp + BitVec.ofNat 32 (4 * i))
  { c with
    edi := slot 0, esi := slot 1, ebp := slot 2, ebx := slot 4, edx := slot 5
    ecx := slot 6, eax := slot 7, esp := c.esp + 32 }

def mov (dst src : Reg) : Op := fun c => c.set dst (c.get src)

def movLow (dst src : Reg) : Op := fun c =>
  c.set dst (setLow (c.get dst) ((c.get src).setWidth 16))

def mov16 (r : Reg) (v : U16) : Op := fun c => c.set r (setLow (c.get r) v)

def movFromSeg (r : Reg) (s : SReg) : Op := fun c =>
  c.set r (setLow (c.get r) (c.sget s))

/-- `mov sreg, r`: the low half of the register is loaded. -/
def movSeg (s : SReg) (r : Reg) : Op := fun c =>
  c.sset s ((c.get r).setWidth 16)

/-- `add r32, imm`. -/
def add (r : Reg) (v : U32) : Op := fun c =>
  { c with eflags := addFlags c.eflags (c.get r) v }.set r (c.get r + v)

def cli : Op := fun c => { c with eflags := setBit c.eflags 9 false }

def sti : Op := fun c => { c with eflags := setBit c.eflags 9 true }

def shr (r : Reg) (n : Nat) : Op := fun c =>
  { c with eflags := shrFlags c.eflags (c.get r) n }.set r (c.get r >>> n)

def movImm (r : Reg) (v : U32) : Op := fun c => c.set r v

def store16 (a : U32) (r : Reg) : Op := fun c =>
  { c with mem := ByteMem.write c.mem a (bytes16 ((c.get r).setWidth 16)) }

def store16Imm (a : U32) (v : U16) : Op := fun c =>
  { c with mem := ByteMem.write c.mem a (bytes16 v) }

def store8Imm (a : U32) (v : U8) : Op := fun c =>
  { c with mem := ByteMem.write c.mem a [v] }

/-- A near call of `f`, with `ra` the address after the call. `f` stands for
the callee up to and including its `ret`. -/
def call (ra : U32) (f : Op) : Op := fun c => f (pushVal ra c)

/-- `iret` to the same ring: EIP, CS and EFLAGS, three dwords. -/
def iret : Op := fun c =>
  let slot (i : Nat) := c.mem.read32 (c.esp + BitVec.ofNat 32 (4 * i))
  { c with
    eip := slot 0, cs := (slot 1).setWidth 16, eflags := slot 2
    esp := c.esp + 12 }

/-- The processor takes an interrupt through an interrupt gate: EFLAGS, CS and
EIP are pushed, then the error code of the vectors that have one, and TF, IF,
NT, RF and VM are cleared. -/
def interrupt (sel : U16) (off : U32) (err : Option U32) : Op := fun c =>
  let saved := pushDwords (err.toList ++ [c.eip, c.cs.setWidth 32, c.eflags]) c
  { saved with
    cs := sel, eip := off, eflags := c.eflags &&& ~~~(0x34300 : U32) }

/-- What a C callee owes its caller, from the state at its first instruction
to the state after its `ret`: the return address is popped and the four
callee-saved registers are back. -/
structure Cdecl (c c' : Cpu) : Prop where
  esp : c'.esp = c.esp + 4
  ebx : c'.ebx = c.ebx
  esi : c'.esi = c.esi
  edi : c'.edi = c.edi
  ebp : c'.ebp = c.ebp

/-- The first argument of a cdecl function, at its first instruction. -/
def argument (c : Cpu) : U32 := c.mem.read32 (c.esp + 4)

structure Resumed (c t : Cpu) : Prop where
  eax : t.eax = c.eax
  ecx : t.ecx = c.ecx
  edx : t.edx = c.edx
  ebx : t.ebx = c.ebx
  esp : t.esp = c.esp
  ebp : t.ebp = c.ebp
  esi : t.esi = c.esi
  edi : t.edi = c.edi
  eip : t.eip = c.eip
  eflags : t.eflags = c.eflags
  cs : t.cs = c.cs

def bareReturn : Op := fun c => { c with esp := c.esp + 4 }

theorem bareReturn_cdecl (c : Cpu) : Cdecl c (bareReturn c) :=
  ⟨rfl, rfl, rfl, rfl, rfl⟩

/-- A kernel doing nothing, in empty memory. -/
def idleContext : Cpu where
  eax := 0
  ecx := 0
  edx := 0
  ebx := 0
  esp := 0x9000
  ebp := 0
  esi := 0
  edi := 0
  eip := 0x100000
  eflags := 0x202
  cs := 0x08
  ds := 0x10
  es := 0x10
  fs := 0x10
  gs := 0x10
  mem := fun _ => 0

/-! ## The stack -/

def OnStack (c : Cpu) (bs : List U8) : Prop := ByteMem.Holds c.mem c.esp bs

theorem OnStack.congr {c c' : Cpu} {bs : List U8} (h : OnStack c bs)
    (hm : c'.mem = c.mem) (hs : c'.esp = c.esp) : OnStack c' bs := by
  rw [OnStack, hm, hs]
  exact h

theorem OnStack.push {c : Cpu} {bs cs : List U8} (h : OnStack c cs)
    (hfit : bs.length + cs.length ≤ 2 ^ 32) :
    OnStack (pushBytes bs c) (bs ++ cs) := by
  have htop : c.esp = c.esp - BitVec.ofNat 32 bs.length +
      BitVec.ofNat 32 bs.length := by rw [BitVec.sub_add_cancel]
  refine ByteMem.holds_append.2 ⟨ByteMem.holds_write (by omega), ?_⟩
  rw [OnStack, htop] at h
  exact h.write_below rfl hfit

theorem OnStack.pushDwords {c : Cpu} {vs ws : List U32}
    (h : OnStack c (dwords ws)) (hfit : 4 * (vs ++ ws).length ≤ 2 ^ 32) :
    OnStack (X86.pushDwords vs c) (dwords (vs ++ ws)) := by
  have hlen : (dwords vs).length + (dwords ws).length ≤ 2 ^ 32 := by
    rw [dwords_length, dwords_length]
    simp only [List.length_append] at hfit
    omega
  rw [dwords_append]
  exact h.push hlen

/-- A dword pushed on bytes that need not be dwords. -/
theorem OnStack.pushVal' {c : Cpu} {bs : List U8} (h : OnStack c bs) (v : U32)
    (hfit : 4 + bs.length ≤ 2 ^ 32) :
    OnStack (X86.pushVal v c) (bytes32 v ++ bs) := by
  have hv : dwords [v] = bytes32 v := List.append_nil _
  rw [← hv]
  exact h.push (by rw [dwords_length]; exact hfit)

theorem OnStack.pushVal {c : Cpu} {ws : List U32} (h : OnStack c (dwords ws))
    {v : U32} (hfit : 4 * ws.length + 4 ≤ 2 ^ 32) :
    OnStack (X86.pushVal v c) (dwords (v :: ws)) :=
  h.pushVal' v (by rw [dwords_length]; omega)

theorem OnStack.slot {c : Cpu} {ws : List U32} (h : OnStack c (dwords ws))
    {i : Nat} (hi : i < ws.length) :
    c.mem.read32 (c.esp + BitVec.ofNat 32 (4 * i)) = ws[i] := by
  have hsplit : ws = ws.take i ++ ws[i] :: ws.drop (i + 1) := by simp
  rw [hsplit, dwords_append, dwords_cons] at h
  have htop := (ByteMem.holds_append.1 (ByteMem.holds_append.1 h).2).1
  rw [dwords_length, List.length_take, Nat.min_eq_left (Nat.le_of_lt hi)] at htop
  exact read32_of_holds htop

theorem OnStack.drop {c c' : Cpu} {vs ws : List U32}
    (h : OnStack c (dwords (vs ++ ws))) (hm : c'.mem = c.mem)
    (hs : c'.esp = c.esp + BitVec.ofNat 32 (4 * vs.length)) :
    OnStack c' (dwords ws) := by
  rw [dwords_append] at h
  rw [OnStack, hm, hs, ← dwords_length]
  exact (ByteMem.holds_append.1 h).2

/-- A called function's stack: the return address, the argument, the rest. -/
theorem argument_onStack {s : Cpu} {ra p : U32} {ws : List U32}
    (h : OnStack s (dwords (ra :: p :: ws))) :
    argument s = p ∧ ByteMem.Holds s.mem (s.esp + 8) (dwords ws) := by
  have hall : OnStack s (dwords ([ra, p] ++ ws)) := h
  have hrest : OnStack { s with esp := s.esp + 8 } (dwords ws) :=
    hall.drop rfl rfl
  exact ⟨h.slot (i := 1) (by simp), hrest⟩

theorem popad_onStack {c t : Cpu} {ws : List U32}
    (h : OnStack t (dwords (c.regs ++ ws))) :
    popad t = { t with
      eax := c.eax, ecx := c.ecx, edx := c.edx, ebx := c.ebx, ebp := c.ebp
      esi := c.esi, edi := c.edi, esp := t.esp + 32 } := by
  have hslot : ∀ i (hi : i < c.regs.length),
      t.mem.read32 (t.esp + BitVec.ofNat 32 (4 * i)) = c.regs[i] := by
    intro i hi
    have hlt : i < (c.regs ++ ws).length := by
      rw [List.length_append]
      exact Nat.lt_add_right _ hi
    rw [h.slot hlt, List.getElem_append_left hi]
  simp only [popad, hslot 0 (by simp), hslot 1 (by simp), hslot 2 (by simp),
    hslot 4 (by simp), hslot 5 (by simp), hslot 6 (by simp), hslot 7 (by simp)]
  rfl

theorem iret_onStack {t : Cpu} {ip cs fl : U32}
    (h : OnStack t (dwords [ip, cs, fl])) :
    iret t = { t with
      eip := ip, cs := cs.setWidth 16, eflags := fl, esp := t.esp + 12 } := by
  simp only [iret, h.slot (i := 0) (by simp), h.slot (i := 1) (by simp),
    h.slot (i := 2) (by simp)]
  rfl

theorem setLow_low (r : U32) (v : U16) : (setLow r v).setWidth 16 = v := by
  rw [setLow]
  exact BitVec.setWidth_append_eq_right

end MicroKernel.X86
