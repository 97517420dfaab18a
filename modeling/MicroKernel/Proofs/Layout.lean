import MicroKernel.Lib.Regions
import MicroKernel.Proofs.Start

/-!
# Who owns which bytes

On the way to `kmain` memory is the display adapter, the tables, the variables,
the messages and the stack. The linker puts them apart, so what a routine may
touch is a list of names.
-/

namespace MicroKernel.Proofs

open ByteMem X86 MicroKernel.Core

/-- `text` is the GDT with its pointer, `task` the descriptor of the TSS. -/
inductive Area where
  | adapter
  | text
  | idtPtr
  | cursor
  | task
  | messages
  | idt
  | stack
  | directory
  | table
  | tss
  deriving DecidableEq, Repr

section
variable (img : Image)

def Area.lo : Area → Nat
  | .adapter => 0xB0000
  | .text => img.gdtPtr.toNat - 24
  | .idtPtr => img.idtPtr.toNat
  | .cursor => img.vga.cursorX.toNat
  | .task => img.gdtTss.toNat
  | .messages => img.bootMessage.toNat
  | .idt => img.idtStart.toNat
  | .stack => img.idtStart.toNat + 2048
  | .directory => img.pageDirectory.toNat
  | .table => img.firstPageTable.toNat
  | .tss => img.tssEntry.toNat

def Area.size : Area → Nat
  | .adapter => 0x10001
  | .text => 30
  | .idtPtr => 6
  | .cursor => 9
  | .task => 8
  | .messages => messageBytes.length
  | .idt => 2048
  | .stack => 16384
  | .directory => 4096
  | .table => 4096
  | .tss => 104

def Area.In (a : Area) : U32 → Prop := Within (a.lo img) (a.lo img + a.size)

end

section
variable {img : Image}

theorem Area.parted (hl : Linked img) (ht : TextLinked img) : Parted (Area.In img) := by
  obtain ⟨hdata, hcursor, htask, hmessages, hbss, hstack, hdir, htable, htss, htop⟩ := hl
  obtain ⟨hlow, hhigh⟩ := ht
  intro a b x ha hb
  by_contra hne
  cases a <;> cases b <;> first
    | exact hne rfl
    | simp only [Area.In, Within, Area.lo, Area.size] at ha hb
      omega

/-- All of it is in the first 4 MiB. -/
theorem Area.low (hl : Linked img) (ht : TextLinked img) (a : Area) :
    a.lo img + a.size ≤ 0x400000 := by
  obtain ⟨hdata, hcursor, htask, hmessages, hbss, hstack, hdir, htable, htss, htop⟩ := hl
  obtain ⟨hlow, hhigh⟩ := ht
  cases a <;> simp only [Area.lo, Area.size] <;> omega

theorem texts_settled (hl : Linked img) (ht : TextLinked img) :
    SettledIn (Area.In img) [.messages] fun m => Holds m img.bootMessage messageBytes := by
  have hlow := Area.low hl ht .messages
  simp only [Area.lo, Area.size] at hlow
  exact settledIn_holds Area.messages (by omega) fun _ hx => hx

theorem atCursor_settled (hl : Linked img) (x y : Nat) :
    SettledIn (Area.In img) [.cursor] fun m => AtCursor img.vga m x y := by
  intro m m' hsame h
  have hplaced := hl.placed (n := 0) rfl (Nat.zero_le _)
  refine h.touches (R := fun a => ¬ Area.In img .cursor a) hplaced (fun a ha => ?_)
    fun a ha hout => hout ?_
  · exact hsame a (inAny_of_mem (not_not.1 ha) (List.mem_singleton_self _))
  · rw [InCursor, Within] at ha
    rw [Area.In, Within, Area.lo, Area.size]
    omega

/-- Bytes stored in an area, all of it. -/
theorem only_write (img : Image) (a : Area) (base : U32) (bytes : List U8)
    (hfit : base.toNat + bytes.length ≤ 2 ^ 32) (hbase : base.toNat = a.lo img)
    (hlen : bytes.length = a.size) (m : PhysMem) :
    Only (Area.In img) [a] m (ByteMem.write m base bytes) := by
  refine (touches_write hfit).mono fun x hx => ?_
  rw [hbase, hlen] at hx
  exact inAny_of_mem hx (List.mem_singleton_self a)

end

end MicroKernel.Proofs
