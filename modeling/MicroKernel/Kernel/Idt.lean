import MicroKernel.Kernel.Keyboard
import MicroKernel.Machine.Pic

/-!
# Interrupts of the smaller kernel (`kernel/idth.c`)

`init_idt`, `init_pic` and `isr_handler` are lists of actions, because the
devices do not wait for them: an edge can come, and a key can be pressed,
between any two. `keyboard_handler` is one action; it reads its port once, and
the rest of it is between itself and the screen.

The stub of vector 33 (`kernel/isr.s`) is not part of these runs except for the
number it hands to `isr_handler`, which is a datum of the event that an
interrupt is taken. Nor is the rest of `kernel_main`, which touches none of
this unless it panics.
-/

namespace MicroKernel.Kernel

structure IdtEntry where
  baseLo : U16
  sel : U16
  always0 : U8
  flags : U8
  baseHi : U16
  deriving DecidableEq, Repr

inductive IrqAction where
  /-- The two assignments to `idtp`. -/
  | setIdtp (limit : U16) (base : U32)
  | setIdtGate (num : U8) (base : U32) (sel : U16) (flags : U8)
  | outb (port : U16) (val : U8)
  | lidt
  | sti
  | keyboardHandler
  | iret
  deriving DecidableEq, Repr

/-- The fields `set_idt_gate` stores. -/
def idtGate (base : U32) (sel : U16) (flags : U8) : IdtEntry :=
  { baseLo := (base &&& 0xFFFF).setWidth 16
    baseHi := ((base >>> 16) &&& 0xFFFF).setWidth 16
    sel := sel
    always0 := 0
    flags := flags }

def initPic : List IrqAction :=
  [.outb 0x20 0x11, .outb 0x21 0x20, .outb 0x21 0x04, .outb 0x21 0x01,
    .outb 0xA0 0x11, .outb 0xA1 0x28, .outb 0xA1 0x02, .outb 0xA1 0x01,
    .outb 0x21 0xFD, .outb 0xA1 0xFF]

/-- `init_idt` from `init_pic` on. -/
def afterGates (isr33 : U32) : List IrqAction :=
  initPic ++ [.setIdtGate 33 isr33 0x08 0x8E, .lidt, .sti]

/-- `idt` and `isr33` are where the linker puts the table and the stub. -/
def initIdt (idt isr33 : U32) : List IrqAction :=
  .setIdtp (8 * 256 - 1) idt ::
    (List.range 256).map (fun i => .setIdtGate (BitVec.ofNat 8 i) 0 0 0) ++ afterGates isr33

def isrHandler (intNum : U32) : List IrqAction :=
  (if intNum = 33 then [.keyboardHandler] else []) ++
    (if 40 ≤ intNum then [.outb 0xA0 0x20] else []) ++ [.outb 0x20 0x20]

/-! ## The kernel among its devices -/

structure Irq where
  board : Board
  idt : U8 → IdtEntry
  idtp : U16 × U32
  idtr : U16 × U32
  intFlag : Bool
  /-- What the running code has still to do. -/
  todo : List IrqAction
  keyboard : Keyboard
  /-- The scancodes `keyboard_handler` has read, and the vectors that were taken. -/
  handled : List U8
  taken : List U8
  /-- A vector led nowhere. -/
  fault : Bool

def perform (a : IrqAction) (s : Irq) : Irq :=
  match a with
  | .setIdtp limit base => { s with idtp := (limit, base) }
  | .setIdtGate num base sel flags =>
      { s with idt := fun v => if v = num then idtGate base sel flags else s.idt v }
  | .outb port val => { s with board := { s.board with pics := s.board.pics.outb port val } }
  | .lidt => { s with idtr := s.idtp }
  | .sti => { s with intFlag := true }
  | .keyboardHandler =>
      let r := s.board.readData
      { s with
        board := r.2
        keyboard := keyboardHandler s.keyboard r.1
        handled := s.handled ++ [r.1] }
  | .iret => { s with intFlag := true }

section
variable (idt isr33 : U32)

/-- The gate of a vector is in the table the processor was given, and leads to
`isr33` as a present 32-bit interrupt gate of the kernel's code segment. -/
def leadsToIsr33 (s : Irq) (v : U8) : Bool :=
  s.idtr.2 = idt && 8 * v.toNat + 7 ≤ s.idtr.1.toNat &&
    (s.idt v).baseHi ++ (s.idt v).baseLo = isr33 && (s.idt v).sel = 0x08 &&
    (s.idt v).flags.getLsbD 7 && (s.idt v).flags.extractLsb' 0 5 = 0x0E#5

def deliver (v : U8) (intNum : U32) (s : Irq) : Irq :=
  if leadsToIsr33 idt isr33 s v then
    { s with intFlag := false, todo := isrHandler intNum ++ .iret :: s.todo }
  else { s with intFlag := false, todo := [], fault := true }

inductive IrqEvent where
  | press (scancode : U8)
  /-- An edge on a line of another device. -/
  | edge (n : Nat)
  /-- The running code does what comes next in it. -/
  | next
  | interrupt (intNum : U32)
  deriving DecidableEq, Repr

def irqStep (s : Irq) : IrqEvent → Option Irq
  | .press scancode => some { s with board := s.board.press scancode }
  | .edge n =>
      if n < 16 ∧ n ≠ 1 ∧ n ≠ 2 then
        some { s with board := { s.board with pics := s.board.pics.raise n } }
      else none
  | .next =>
      match s.todo with
      | [] => none
      | a :: todo => some (perform a { s with todo })
  | .interrupt intNum =>
      if s.intFlag then
        s.board.pics.ack.map fun r =>
          deliver idt isr33 r.1 intNum
            { s with board := { s.board with pics := r.2 }, taken := s.taken ++ [r.1] }
      else none

/-- At the call of `init_idt`: the loader has left interrupts off, and the chips
and the keyboard in any state. -/
def atInitIdt (board : Board) (table : U8 → IdtEntry) (idtr : U16 × U32) : Irq where
  board := board
  idt := table
  idtp := (0, 0)
  idtr := idtr
  intFlag := false
  todo := initIdt idt isr33
  keyboard := .start
  handled := []
  taken := []
  fault := false

end

/-- The scancode an event brings. -/
def IrqEvent.pressed : IrqEvent → List U8
  | .press scancode => [scancode]
  | _ => []

/-- The processor's part, with a stub that hands on its vector. -/
def IrqEvent.OfCpu (e : IrqEvent) : Prop := e = .next ∨ e = .interrupt 33

end MicroKernel.Kernel
