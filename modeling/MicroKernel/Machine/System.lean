import MicroKernel.Lib.Frame
import MicroKernel.Machine.X86

/-!
# The whole machine

What code that is not an interrupt stub needs beside the general registers: the
control registers, the descriptor tables, the ports, and stores that go
anywhere. A piece of straight code is a list of instructions (`run`); a routine
that branches, loops or calls is a function that may have no answer, because a
division faults, a loop does not end, or a return address has been overwritten
and the processor goes where no modelled code is.

Segments are flat, and the addresses are physical throughout: nothing is
translated, not even once paging is on, since the kernel maps the low addresses
it lives at to themselves. The selectors of segments are loaded without looking
at a descriptor. No interrupt comes in between.

`stored` is a record kept beside the machine: the address of every byte that an
instruction of this file has stored. What `push` and `call` put on the stack is
not in it.
-/

namespace MicroKernel.X86

open ByteMem

structure Sys extends Cpu where
  ss : U16
  cr0 : U32
  cr3 : U32
  cr4 : U32
  tr : U16
  /-- The limit and the base of each table. -/
  gdtr : U16 × U32
  idtr : U16 × U32
  /-- The bytes sent to the ports, in order. -/
  ports : List (U16 × U8)
  stored : List U32

abbrev Insn := Sys → Sys

abbrev Routine := Sys → Option Sys

def run (code : List Insn) (s : Sys) : Sys := code.foldl (fun s i => i s) s

@[simp] theorem run_nil (s : Sys) : run [] s = s := rfl

@[simp] theorem run_cons (i : Insn) (code : List Insn) (s : Sys) :
    run (i :: code) s = run code (i s) := rfl

/-- An instruction that only concerns the processor. -/
def cpu (op : Op) : Insn := fun s => { s with toCpu := op s.toCpu }

/-! ## Parts of registers -/

def setAl (r : U32) (b : U8) : U32 := r.extractLsb' 8 24 ++ b

def setAh (r : U32) (b : U8) : U32 := r.extractLsb' 16 16 ++ (b ++ r.setWidth 8 : U16)

def lowByte (r : U32) : U8 := r.setWidth 8

def highByte (r : U32) : U8 := r.extractLsb' 8 8

/-! ## Flags -/

def flag (f : U32) (i : Nat) : Bool := f.getLsbD i

def Cpu.cf (c : Cpu) : Bool := flag c.eflags 0

def Cpu.zf (c : Cpu) : Bool := flag c.eflags 6

/-- Set, the string instructions go down in memory. -/
def Cpu.df (c : Cpu) : Bool := flag c.eflags 10

/-- The condition of `jl`: SF differs from OF. -/
def Cpu.less (c : Cpu) : Bool := flag c.eflags 7 != flag c.eflags 11

/-- PF, ZF and SF of a result of any width. -/
def signFlags {w : Nat} (f : U32) (r : BitVec w) : U32 :=
  let f := setBit f 2 ((List.range 8).countP r.getLsbD % 2 == 0)
  let f := setBit f 6 (r == 0)
  setBit f 7 r.msb

def cmpFlags {w : Nat} (f : U32) (a b : BitVec w) : U32 :=
  let r := a - b
  let f := setBit f 0 (decide (a < b))
  let f := setBit f 4 (decide (a.toNat % 16 < b.toNat % 16))
  let f := setBit f 11 (a.msb != b.msb && r.msb != a.msb)
  signFlags f r

/-- After `and`, `or`, `xor` and `test`; AF, which they leave undefined, keeps
its value. -/
def logicFlags {w : Nat} (f : U32) (r : BitVec w) : U32 :=
  signFlags (setBit (setBit f 0 false) 11 false) r

/-- After `inc`, which does not change CF. -/
def incFlags (f a : U32) : U32 :=
  let f := setBit f 4 (decide (a.toNat % 16 = 15))
  let f := setBit f 11 (decide (a = 0x7fffffff))
  signFlags f (a + 1)

/-- After `dec`, which does not change CF. -/
def decFlags (f a : U32) : U32 :=
  let f := setBit f 4 (decide (a.toNat % 16 = 0))
  let f := setBit f 11 (decide (a = 0x80000000))
  signFlags f (a - 1)

def Sys.setFlags (s : Sys) (f : U32) : Sys := { s with eflags := f }

def Sys.setReg (s : Sys) (r : Reg) (v : U32) : Sys := { s with toCpu := s.toCpu.set r v }

/-! ## Instructions -/

def cmpImm (r : Reg) (v : U32) : Insn := fun s => s.setFlags (cmpFlags s.eflags (s.get r) v)

/-- `cmp` on the low byte of a register. -/
def cmpLow (r : Reg) (v : U8) : Insn := fun s =>
  s.setFlags (cmpFlags s.eflags (lowByte (s.get r)) v)

/-- `test al, al`. -/
def testAl : Insn := fun s => s.setFlags (logicFlags s.eflags (lowByte s.eax))

def andImm (r : Reg) (v : U32) : Insn := fun s =>
  (s.setFlags (logicFlags s.eflags (s.get r &&& v))).setReg r (s.get r &&& v)

def orImm (r : Reg) (v : U32) : Insn := fun s =>
  (s.setFlags (logicFlags s.eflags (s.get r ||| v))).setReg r (s.get r ||| v)

/-- `xor r, r`. -/
def xorSelf (r : Reg) : Insn := fun s =>
  (s.setFlags (logicFlags s.eflags (0 : U32))).setReg r 0

/-- `test r, r`. -/
def testSelf (r : Reg) : Insn := fun s => s.setFlags (logicFlags s.eflags (s.get r))

/-- `bt r, i` with an immediate `i`. -/
def bt (r : Reg) (i : Nat) : Insn := fun s =>
  s.setFlags (setBit s.eflags 0 ((s.get r).getLsbD i))

/-- `bt r, i` with the index in a register, of which the low five bits count. -/
def btReg (r i : Reg) : Insn := fun s =>
  s.setFlags (setBit s.eflags 0 ((s.get r).getLsbD ((s.get i).toNat % 32)))

/-- `shl r, 1`; AF keeps its value. -/
def shl1 (r : Reg) : Insn := fun s =>
  let v := s.get r <<< 1
  let f := setBit s.eflags 0 (s.get r).msb
  let f := setBit f 11 (v.msb != (s.get r).msb)
  (s.setFlags (signFlags f v)).setReg r v

/-- `mul r`: EDX:EAX is the product of EAX and `r`. The flags it leaves undefined
keep their values. -/
def mul (r : Reg) : Insn := fun s =>
  let p : U64 := s.eax.setWidth 64 * (s.get r).setWidth 64
  let high : U32 := p.extractLsb' 32 32
  let f := setBit s.eflags 0 (high != 0)
  let f := setBit f 11 (high != 0)
  { s with eax := p.setWidth 32, edx := high, eflags := f }

/-- `div r`, which faults on zero and on a quotient of more than 32 bits. The
flags, undefined afterwards, keep their values. -/
def div (r : Reg) : Routine := fun s =>
  let n := s.edx.toNat * 2 ^ 32 + s.eax.toNat
  let d := (s.get r).toNat
  if d = 0 ∨ 2 ^ 32 ≤ n / d then none
  else some { s with eax := BitVec.ofNat 32 (n / d), edx := BitVec.ofNat 32 (n % d) }

def movAl (b : U8) : Insn := fun s => { s with eax := setAl s.eax b }

/-- `mov al, r8`, the low byte of another register. -/
def movAlLow (r : Reg) : Insn := fun s => { s with eax := setAl s.eax (lowByte (s.get r)) }

/-- `mov al, r8`, the second byte of another register. -/
def movAlHigh (r : Reg) : Insn := fun s => { s with eax := setAl s.eax (highByte (s.get r)) }

/-- `movzx r, al`. -/
def movzxAl (r : Reg) : Insn := fun s => s.setReg r ((lowByte s.eax).setWidth 32)

/-! ### Memory -/

def load (r : Reg) (a : U32) : Insn := fun s => s.setReg r (s.mem.read32 a)

/-- `mov r, [base + d]`. -/
def loadAt (r base : Reg) (d : U32) : Insn := fun s =>
  s.setReg r (s.mem.read32 (s.get base + d))

/-- `mov al, [base + d]`. -/
def loadAlAt (base : Reg) (d : U32) : Insn := fun s =>
  { s with eax := setAl s.eax (s.mem (s.get base + d)) }

/-- `mov r16, [base + d]`. -/
def load16At (r base : Reg) (d : U32) : Insn := fun s =>
  s.setReg r (setLow (s.get r) (s.mem.read16 (s.get base + d)))

def loadAh (a : U32) : Insn := fun s => { s with eax := setAh s.eax (s.mem a) }

def addMem (r : Reg) (a : U32) : Insn := fun s =>
  let v := s.mem.read32 a
  (s.setFlags (addFlags s.eflags (s.get r) v)).setReg r (s.get r + v)

/-- `cmp dword [a], imm`. -/
def cmpMem (a v : U32) : Insn := fun s =>
  s.setFlags (cmpFlags s.eflags (s.mem.read32 a) v)

def Sys.store (s : Sys) (a : U32) (bs : List U8) : Sys :=
  { s with
    mem := ByteMem.write s.mem a bs
    stored := s.stored ++ (List.range bs.length).map fun i => a + BitVec.ofNat 32 i }

def poke32 (a v : U32) : Insn := fun s => s.store a (bytes32 v)

def poke16 (a : U32) (v : U16) : Insn := fun s => s.store a (bytes16 v)

def poke8 (a : U32) (v : U8) : Insn := fun s => s.store a [v]

/-- `mov [base + d], r`. -/
def storeAt (base : Reg) (d : U32) (r : Reg) : Insn := fun s =>
  s.store (s.get base + d) (bytes32 (s.get r))

/-- `mov byte [base + d], imm`. -/
def pokeAt8 (base : Reg) (d : U32) (v : U8) : Insn := fun s => s.store (s.get base + d) [v]

def storeReg (a : U32) (r : Reg) : Insn := fun s => s.store a (bytes32 (s.get r))

/-- `mov [base], ax`, and a 16-bit immediate in the place of AX. -/
def storeAx (base : Reg) : Insn := fun s =>
  s.store (s.get base) (bytes16 (s.eax.setWidth 16))

def pokeAt16 (base : Reg) (v : U16) : Insn := fun s => s.store (s.get base) (bytes16 v)

def storeLow16 (a : U32) (r : Reg) : Insn := fun s =>
  s.store a (bytes16 ((s.get r).setWidth 16))

def storeAl (a : U32) : Insn := fun s => s.store a [lowByte s.eax]

def storeAh (a : U32) : Insn := fun s => s.store a [highByte s.eax]

def incMem (a : U32) : Insn := fun s =>
  let v := s.mem.read32 a
  (s.setFlags (incFlags s.eflags v)).store a (bytes32 (v + 1))

def decMem (a : U32) : Insn := fun s =>
  let v := s.mem.read32 a
  (s.setFlags (decFlags s.eflags v)).store a (bytes32 (v - 1))

/-! ### String instructions -/

/-- How far a string instruction moves on elements of `n` bytes. -/
def Cpu.stride (c : Cpu) (n : U32) : U32 := if c.df then -n else n

def lodsb : Insn := fun s =>
  { s with eax := setAl s.eax (s.mem s.esi), esi := s.esi + s.stride 1 }

def stosw : Insn := fun s =>
  { s.store s.edi (bytes16 (s.eax.setWidth 16)) with edi := s.edi + s.stride 2 }

def stosd : Insn := fun s =>
  { s.store s.edi (bytes32 s.eax) with edi := s.edi + s.stride 4 }

def movsw : Insn := fun s =>
  { s.store s.edi (bytes16 (s.mem.read16 s.esi)) with
    esi := s.esi + s.stride 2, edi := s.edi + s.stride 2 }

/-- `n` rounds of a repeated instruction, each counting ECX down. -/
def repeated (i : Insn) : Nat → Sys → Sys
  | 0, s => s
  | n + 1, s =>
      let t := i s
      repeated i n { t with ecx := t.ecx - 1 }

def rep (i : Insn) : Insn := fun s => repeated i s.ecx.toNat s

/-- A body that ends in `loop` back to its start. -/
def loopBack (body : Insn) : Insn := fun s =>
  repeated body (if s.ecx = 0 then 2 ^ 32 else s.ecx.toNat) s

/-! ### Ports and system registers -/

def Sys.send (s : Sys) (port : U16) (b : U8) : Sys :=
  { s with ports := s.ports ++ [(port, b)] }

/-- `out dx, al`. -/
def outDx : Insn := fun s => s.send (s.edx.setWidth 16) (lowByte s.eax)

/-- `in al, dx`, where `answer` tells what a port has to say. -/
def inDx (answer : U16 → U8) : Insn := fun s =>
  { s with eax := setAl s.eax (answer (s.edx.setWidth 16)) }

/-- `out imm8, al`. -/
def outAl (port : U8) : Insn := fun s => s.send (port.setWidth 16) (lowByte s.eax)

/-- `out` of a constant. The processor has no such form; the byte is sent as the
source says, and no register is used for it. -/
def outImm (port b : U8) : Insn := fun s => s.send (port.setWidth 16) b

def movSs (r : Reg) : Insn := fun s => { s with ss := (s.get r).setWidth 16 }

/-- A far jump to the next instruction. -/
def farJump (sel : U16) : Insn := fun s => { s with cs := sel }

def lgdt (a : U32) : Insn := fun s =>
  { s with gdtr := (s.mem.read16 a, s.mem.read32 (a + 2)) }

def lidt (a : U32) : Insn := fun s =>
  { s with idtr := (s.mem.read16 a, s.mem.read32 (a + 2)) }

def fromCr0 (r : Reg) : Insn := fun s => s.setReg r s.cr0

def toCr0 (r : Reg) : Insn := fun s => { s with cr0 := s.get r }

def toCr3 (r : Reg) : Insn := fun s => { s with cr3 := s.get r }

def fromCr4 (r : Reg) : Insn := fun s => s.setReg r s.cr4

def toCr4 (r : Reg) : Insn := fun s => { s with cr4 := s.get r }

/-- What `cpuid` answers for a value of EAX. -/
structure CpuidAnswer where
  eax : U32
  ebx : U32
  ecx : U32
  edx : U32

def cpuidInsn (cpuid : U32 → CpuidAnswer) : Insn := fun s =>
  let r := cpuid s.eax
  { s with eax := r.eax, ebx := r.ebx, ecx := r.ecx, edx := r.edx }

/-- `finit`. No register of the FPU is modelled. -/
def finit : Insn := fun s => s

/-! ### Calls -/

def ret : Insn := fun s => { s with eip := s.mem.read32 s.esp, esp := s.esp + 4 }

/-- A near call of a routine that ends in `ret`, from the call whose next
instruction is at `ra`. -/
def callTo (ra : U32) (f : Routine) : Routine := fun s =>
  (f (cpu (pushVal ra) s)).bind fun t => if t.eip = ra then some t else none

def straight (code : List Insn) : Routine := fun s => some (run code s)

/-- Pieces of code one after the other. -/
def inOrder (pieces : List Routine) : Routine := fun s => pieces.foldlM (fun s f => f s) s

/-- A kernel doing nothing, before any table is set up. -/
def idleSys : Sys where
  toCpu := idleContext
  ss := 0x10
  cr0 := 1
  cr3 := 0
  cr4 := 0
  tr := 0
  gdtr := (0, 0)
  idtr := (0, 0)
  ports := []
  stored := []

/-! ## What the flags say -/

theorem flag_setBit (f : U32) {i : Nat} (j : Nat) (b : Bool) (hi : i < 32) :
    flag (setBit f i b) j = if j = i then b else flag f j := by
  have hone : (1#32 <<< i).getLsbD j = decide (j = i) := by
    rw [BitVec.getLsbD_shiftLeft, BitVec.getLsbD_one]
    grind
  rw [setBit, flag, flag]
  by_cases hj : j < 32
  · cases b
    · rw [if_neg Bool.false_ne_true, BitVec.getLsbD_and, BitVec.getLsbD_not, hone]
      by_cases h : j = i <;> simp [h, hj]
    · rw [if_pos rfl, BitVec.getLsbD_or, hone]
      by_cases h : j = i <;> simp [h]
  · have hne : j ≠ i := by omega
    rw [if_neg hne, BitVec.getLsbD_of_ge _ _ (Nat.le_of_not_lt hj),
      BitVec.getLsbD_of_ge _ _ (Nat.le_of_not_lt hj)]

section
variable {w : Nat} (f : U32) (a b : BitVec w) (u v : U32)

@[simp] theorem df_signFlags : flag (signFlags f a) 10 = flag f 10 := by
  simp [signFlags, flag_setBit]

@[simp] theorem df_resultFlags : flag (resultFlags f u) 10 = flag f 10 := by
  simp [resultFlags, flag_setBit]

@[simp] theorem df_cmpFlags : flag (cmpFlags f a b) 10 = flag f 10 := by
  simp [cmpFlags, flag_setBit]

@[simp] theorem df_logicFlags : flag (logicFlags f a) 10 = flag f 10 := by
  simp [logicFlags, flag_setBit]

@[simp] theorem df_addFlags : flag (addFlags f u v) 10 = flag f 10 := by
  simp [addFlags, flag_setBit]

@[simp] theorem df_incFlags : flag (incFlags f u) 10 = flag f 10 := by
  simp [incFlags, flag_setBit]

@[simp] theorem df_decFlags : flag (decFlags f u) 10 = flag f 10 := by
  simp [decFlags, flag_setBit]

@[simp] theorem df_shrFlags (n : Nat) : flag (shrFlags f u n) 10 = flag f 10 := by
  simp [shrFlags, flag_setBit]

/-- After a comparison ZF tells whether the two are equal. -/
theorem zf_cmpFlags : flag (cmpFlags f a b) 6 = decide (a = b) := by
  have hsub : a - b = 0#w ↔ a = b := by
    rw [BitVec.sub_eq_iff_eq_add, BitVec.zero_add]
  simp [cmpFlags, signFlags, flag_setBit, ← hsub, Bool.beq_eq_decide_eq]

theorem zf_logicFlags : flag (logicFlags f a) 6 = decide (a = 0) := by
  simp [logicFlags, signFlags, flag_setBit, Bool.beq_eq_decide_eq]

/-- Of two numbers that are not negative, SF and OF tell which is less. -/
theorem less_cmpFlags (hu : u.toNat < 2 ^ 31) (hv : v.toNat < 2 ^ 31) :
    (flag (cmpFlags f u v) 7 != flag (cmpFlags f u v) 11) =
      decide (u.toNat < v.toNat) := by
  have hum : u.msb = false := by
    rw [BitVec.msb_eq_false_iff_two_mul_lt]
    omega
  have hvm : v.msb = false := by
    rw [BitVec.msb_eq_false_iff_two_mul_lt]
    omega
  have hsign : (u - v).msb = decide (u.toNat < v.toNat) := by
    rw [Bool.eq_iff_iff, BitVec.msb_eq_true_iff_two_mul_ge, BitVec.toNat_sub,
      decide_eq_true_iff]
    omega
  simp [cmpFlags, signFlags, flag_setBit, hum, hvm, hsign]

end

end MicroKernel.X86
