import MicroKernel.Machine.Word
import Mathlib.Data.List.Basic

/-!
# The interrupt controllers and the keyboard's port

Two 8259 chips, the second wired to line 2 of the first, and the output side of
the keyboard controller. What they do with a byte is the documented behaviour of
the hardware, for the commands a kernel needs: the four initialisation words,
the mask, and the end of an interrupt. Rotation, polling, the status reads and
the special modes are not modelled, and no code here asks for them.

Requests are edges. A chip latches an edge whether the line is masked or not,
and loses it when it is initialised again.
-/

namespace MicroKernel

/-! ## Eight lines -/

def setLine (lines : U8) (n : Nat) (b : Bool) : U8 :=
  if b then lines ||| 1#8 <<< n else lines &&& ~~~(1#8 <<< n)

/-- The first of the lines that is up, 8 when none is: line 0 comes first. -/
def priority (lines : U8) : Nat := (List.range 8).findIdx fun n => lines.getLsbD n

theorem getLsbD_setLine (lines : U8) {n : Nat} (hn : n < 8) (b : Bool) (i : Nat) :
    (setLine lines n b).getLsbD i = if i = n then b else lines.getLsbD i := by
  have hone : (1#8 <<< n).getLsbD i = decide (i = n) := by
    rw [BitVec.getLsbD_shiftLeft, BitVec.getLsbD_one]
    grind
  by_cases hi : i < 8
  · cases b
    · rw [setLine, if_neg Bool.false_ne_true, BitVec.getLsbD_and, BitVec.getLsbD_not, hone]
      by_cases h : i = n <;> simp [h, hi]
    · rw [setLine, if_pos rfl, BitVec.getLsbD_or, hone]
      by_cases h : i = n <;> simp [h]
  · have hne : i ≠ n := by omega
    rw [if_neg hne, BitVec.getLsbD_of_ge _ _ (Nat.le_of_not_lt hi),
      BitVec.getLsbD_of_ge _ _ (Nat.le_of_not_lt hi)]

theorem priority_le (lines : U8) : priority lines ≤ 8 := List.findIdx_le_length

theorem getLsbD_priority {lines : U8} (h : priority lines < 8) :
    lines.getLsbD (priority lines) = true := by
  have hlen : (List.range 8).findIdx (fun n => lines.getLsbD n) < (List.range 8).length := by
    rwa [List.length_range]
  have hup := @List.findIdx_getElem _ _ _ hlen
  rwa [List.getElem_range] at hup

theorem not_getLsbD_of_lt_priority {lines : U8} {n : Nat} (h : n < priority lines) :
    lines.getLsbD n = false := by
  have hdown := List.not_of_lt_findIdx h
  rwa [List.getElem_range] at hdown

theorem priority_le_of_getLsbD {lines : U8} {n : Nat} (h : lines.getLsbD n = true) :
    priority lines ≤ n := by
  refine Nat.le_of_not_lt fun hlt => ?_
  rw [not_getLsbD_of_lt_priority hlt] at h
  cases h

theorem priority_eq {lines : U8} {n : Nat} (hn : n < 8) (hup : lines.getLsbD n = true)
    (hdown : ∀ m < n, lines.getLsbD m = false) : priority lines = n := by
  refine Nat.le_antisymm (priority_le_of_getLsbD hup) (Nat.le_of_not_lt fun hlt => ?_)
  have hfirst := getLsbD_priority (Nat.lt_trans hlt hn)
  rw [hdown _ hlt] at hfirst
  cases hfirst

/-- Taking the first line down again, when a line above all that are up was put up
first, changes nothing. -/
theorem setLine_priority_setLine {lines : U8} {n : Nat} (hn : n < 8) (h : n < priority lines) :
    setLine (setLine lines n true) (priority (setLine lines n true)) false = lines := by
  have hfirst : priority (setLine lines n true) = n := by
    refine priority_eq hn ?_ fun m hm => ?_
    · rw [getLsbD_setLine lines hn, if_pos rfl]
    · rw [getLsbD_setLine lines hn, if_neg (Nat.ne_of_lt hm)]
      exact not_getLsbD_of_lt_priority (Nat.lt_trans hm h)
  rw [hfirst]
  refine BitVec.eq_of_getLsbD_eq fun i _ => ?_
  rw [getLsbD_setLine _ hn, getLsbD_setLine _ hn]
  split
  · next hi => rw [hi, not_getLsbD_of_lt_priority h]
  · rfl

/-! ## One chip -/

/-- The initialisation word the data port takes next; `ready`, it is the mask. -/
inductive PicStage where
  | ready
  | icw2
  | icw3
  | icw4
  deriving DecidableEq, Repr

structure Pic where
  stage : PicStage
  icw1 : U8
  /-- The vector of line 0. -/
  base : U8
  /-- ICW3: the lines with a chip behind them, or the line this chip is behind. -/
  cascade : U8
  autoEoi : Bool
  /-- The lines that are masked, requested, and in service. -/
  imr : U8
  irr : U8
  isr : U8
  deriving DecidableEq, Repr

def Pic.setIrr (p : Pic) (irr : U8) : Pic := { p with irr }

/-- The end of the interrupt of one line. -/
def Pic.endOf (p : Pic) (n : Nat) : Pic := { p with isr := setLine p.isr n false }

/-- A byte to the command port. -/
def Pic.command (p : Pic) (b : U8) : Pic :=
  if b.getLsbD 4 then
    { p with stage := .icw2, icw1 := b, autoEoi := false, imr := 0, irr := 0, isr := 0 }
  else if b.getLsbD 3 then p
  else if b.extractLsb' 5 3 = 1#3 then p.endOf (priority p.isr)
  else if b.extractLsb' 5 3 = 3#3 then p.endOf (b.extractLsb' 0 3).toNat
  else p

/-- A byte to the data port. The second bit of ICW1 leaves out ICW3, and only the
first promises an ICW4. -/
def Pic.data (p : Pic) (b : U8) : Pic :=
  let afterIcw3 : PicStage := if p.icw1.getLsbD 0 then .icw4 else .ready
  match p.stage with
  | .ready => { p with imr := b }
  | .icw2 =>
      { p with base := b &&& 0xF8, stage := if p.icw1.getLsbD 1 then afterIcw3 else .icw3 }
  | .icw3 => { p with cascade := b, stage := afterIcw3 }
  | .icw4 => { p with autoEoi := b.getLsbD 1, stage := .ready }

/-- The line the chip asks the processor to serve, 8 for none: the first that is
requested and not masked, if it comes before those in service. -/
def Pic.request (p : Pic) : Nat :=
  let n := priority (p.irr &&& ~~~p.imr)
  if n < priority p.isr then n else 8

def Pic.serve (p : Pic) (n : Nat) : Pic :=
  { p with
    irr := setLine p.irr n false
    isr := if p.autoEoi then p.isr else setLine p.isr n true }

/-- What a chip is set to, without what has been requested of it. -/
def Pic.settings (p : Pic) : Pic := p.setIrr 0

/-! ## Both of them -/

structure Pics where
  master : Pic
  slave : Pic
  deriving DecidableEq, Repr

def Pics.outb (p : Pics) (port : U16) (val : U8) : Pics :=
  if port = 0x20 then { p with master := p.master.command val }
  else if port = 0x21 then { p with master := p.master.data val }
  else if port = 0xA0 then { p with slave := p.slave.command val }
  else if port = 0xA1 then { p with slave := p.slave.data val }
  else p

def Pics.outs (p : Pics) (log : List (U16 × U8)) : Pics :=
  log.foldl (fun p o => p.outb o.1 o.2) p

/-- An edge on one of the sixteen lines. The slave alone drives line 2. -/
def Pics.raise (p : Pics) (n : Nat) : Pics :=
  if n < 8 then { p with master := p.master.setIrr (setLine p.master.irr n true) }
  else { p with slave := p.slave.setIrr (setLine p.slave.irr (n - 8) true) }

/-- The master as it sees the slave on line 2. -/
def Pics.front (p : Pics) : Pic :=
  p.master.setIrr (setLine p.master.irr 2 (decide (p.slave.request < 8)))

/-- Whether both chips have been told that the slave is behind line 2. -/
def Pics.cascaded (p : Pics) : Bool :=
  p.master.cascade.getLsbD 2 && p.slave.cascade.extractLsb' 0 3 = 2#3

/-- The processor asks for the vector of the request. -/
def Pics.ack (p : Pics) : Option (U8 × Pics) :=
  let n := p.front.request
  if n = 8 then none
  else
    let master := p.front.serve n
    if n = 2 ∧ p.cascaded then
      let k := p.slave.request
      some (p.slave.base + BitVec.ofNat 8 k, { master, slave := p.slave.serve k })
    else some (p.master.base + BitVec.ofNat 8 n, { p with master })

def Pics.settings (p : Pics) : Pics :=
  { master := p.master.settings, slave := p.slave.settings }

/-- What reaches the chips from outside: a byte from the processor, or an edge. -/
inductive Signal where
  | byte (port : U16) (val : U8)
  | edge (line : Nat)
  deriving DecidableEq, Repr

def Signal.sent : Signal → List (U16 × U8)
  | .byte port val => [(port, val)]
  | .edge _ => []

def Pics.take (p : Pics) : Signal → Pics
  | .byte port val => p.outb port val
  | .edge line => p.raise line

/-! ## The keyboard -/

/-- The controllers, and the bytes the keyboard controller has accepted and not
given out yet, the oldest first: that one is in its output buffer. -/
structure Board where
  pics : Pics
  keys : List U8
  /-- The byte last given out. -/
  last : U8
  deriving DecidableEq, Repr

/-- The output buffer fills, an edge on line 1, when a byte is there to fill it. -/
def Board.fill (b : Board) : Board :=
  if b.keys = [] then b else { b with pics := b.pics.raise 1 }

def Board.press (b : Board) (scancode : U8) : Board :=
  if b.keys = [] then { b with keys := [scancode] }.fill
  else { b with keys := b.keys ++ [scancode] }

/-- A read of port 0x60. An empty output buffer still holds its last byte. -/
def Board.readData (b : Board) : U8 × Board :=
  match b.keys with
  | [] => (b.last, b)
  | k :: keys => (k, { b with keys, last := k }.fill)

end MicroKernel
