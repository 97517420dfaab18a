import MicroKernel.Proofs.Effects

/-!
# Where `_start` ends

`tss_install` loads the task register with 0x18, the selector behind the two
segments of the GDT. Its comment takes the descriptor of the TSS to be there, but
that is in the data section, and the limit of the table that `gdt_install` has
loaded ends with the second segment. So the `ltr` faults, before there is an IDT,
and no value is ever pushed for `kmain`.

What is behind it would not push the right one either.
-/

namespace MicroKernel.Proofs

open ByteMem X86 MicroKernel.Core Spec

section
variable {img : Image} {s t u : Sys}

/-! ## What the selectors name -/

/-- The two segments of the GDT, of which both are all of memory. -/
def flatCode : Descriptor := { base := 0, limit := 0xFFFFF, access := 0x9A, flags := 0xC }

def flatData : Descriptor := { base := 0, limit := 0xFFFFF, access := 0x92, flags := 0xC }

example : flatCode.last = 2 ^ 32 - 1 ∧ flatData.last = 2 ^ 32 - 1 := by decide

theorem gdtHeld_descriptors {m : PhysMem} (h : GdtHeld img m) :
    descriptor m (23, img.gdtStart) 0x08 = some flatCode ∧
      descriptor m (23, img.gdtStart) 0x10 = some flatData ∧
      descriptor m (23, img.gdtStart) 0x18 = none := by
  have hbytes : gdtBytes = List.replicate 8 0 ++ flatCode.bytes ++ flatData.bytes := by decide
  obtain ⟨hgdt, -⟩ := holds_append.1 h
  rw [hbytes, holds_append, holds_append] at hgdt
  obtain ⟨⟨-, hcode⟩, hdata⟩ := hgdt
  have hfirst : ¬ ((0x08 : U16).toNat / 8 = 0 ∨ (0x08 : U16).getLsbD 2 = true ∨
      (23 : U16).toNat < (0x08 : U16).toNat / 8 * 8 + 7) := by decide
  have hsecond : ¬ ((0x10 : U16).toNat / 8 = 0 ∨ (0x10 : U16).getLsbD 2 = true ∨
      (23 : U16).toNat < (0x10 : U16).toNat / 8 * 8 + 7) := by decide
  have hpast : (23 : U16).toNat < (0x18 : U16).toNat / 8 * 8 + 7 := by decide
  refine ⟨?_, ?_, if_pos (Or.inr (Or.inr hpast))⟩
  · exact (if_neg hfirst).trans (congrArg some (readDescriptor_of_holds hcode))
  · exact (if_neg hsecond).trans (congrArg some (readDescriptor_of_holds hdata))

/-! ## The `ltr` -/

theorem ltr_atLtr (hl : Linked img) (ht : TextLinked img) (hs : StackRoom img 4 u.esp)
    (hgdt : GdtHeld img u.mem) (hgdtr : u.gdtr = (23, img.gdtStart)) :
    ltr .eax (atLtr img u) = none := by
  obtain ⟨hcontrol, hsel, hheld⟩ := atLtr_regs hl ht hs hgdt
  have hkeep : (atLtr img u).gdtr = u.gdtr := congrArg Control.gdtr hcontrol
  obtain ⟨-, -, hpast⟩ := gdtHeld_descriptors hheld
  refine ltr_none ?_
  rw [hsel, hkeep, hgdtr, hpast]

theorem inOrder_append (fs gs : List Routine) (s : Sys) :
    inOrder (fs ++ gs) s = (inOrder fs s).bind (inOrder gs) := List.foldlM_append

theorem tssInstall_none (h : ltr .eax (atLtr img s) = none) :
    callTo (img.ra .tssInstall) (tssInstall img) s = none := by
  have hbody : tssInstall img (cpu (pushVal (img.ra .tssInstall)) s) =
      (ltr .eax (atLtr img s)).bind (inOrder [straight [ret]]) := rfl
  rw [callTo, hbody, h, Option.bind_none, Option.bind_none]

theorem start_none (cpuid : U32 → CpuidAnswer) (hhead : inOrder (startHead img) s = some u)
    (h : ltr .eax (atLtr img u) = none) : start img cpuid s = none := by
  rw [start, inOrder_append, hhead, Option.bind_some, inOrder_cons, tssInstall_none h,
    Option.bind_none]

/-- With the GDT loaded. -/
theorem startHead_gdtr (hl : Linked img) (ht : TextLinked img) (v : U32) :
    Leads (fun s => s.ebx = v ∧ Loaded img s.mem) (inOrder (startHead img)) fun u =>
      Booting img v u ∧ u.gdtr = (23, img.gdtStart) := by
  have hlast : Leads (Booting img v) (callTo (img.ra .gdtInstall) (gdtInstall img)) fun u =>
      Booting img v u ∧ u.gdtr = (23, img.gdtStart) := by
    intro w hw
    obtain ⟨u, hrun, hu⟩ := gdtInstall_leads hl ht v w hw
    have heffect := gdtInstall_effect hl ht (hl.room hw.esp (by decide)) hw.gdt hrun
    exact ⟨u, hrun, hu, congrArg Control.gdtr heffect.control⟩
  exact (entry_leads img v).cons ((clearScreen_leads hl ht v).cons
    ((printBoot_leads hl ht v).cons hlast.last))

end

/-- `_start` never pushes an argument: the calls before `tss_install` return and keep
EBX, and its `ltr` faults. Nor would what is pushed behind it be the EBX it is begun
with, but what `cpuid` leaves there. -/
theorem start_argument {img : Image} {s : Sys} (cpuid : U32 → CpuidAnswer) (hl : Linked img)
    (ht : TextLinked img) (hm : Loaded img s.mem) :
    (¬ ∃ t, start img cpuid s = some t ∧ t.mem.read32 t.esp = s.ebx) ∧
      (∃ u, inOrder (startHead img) s = some u ∧ u.ebx = s.ebx ∧
        ltr .eax (atLtr img u) = none) ∧
      ∀ v w, Booting img v w →
        ∃ t, inOrder (startTail img cpuid) w = some t ∧ t.mem.read32 t.esp = (cpuid 1).ebx := by
  obtain ⟨u, hhead, hu, hgdtr⟩ := startHead_gdtr hl ht s.ebx s ⟨rfl, hm⟩
  have hltr := ltr_atLtr hl ht (hl.room hu.esp (by decide)) hu.gdt hgdtr
  refine ⟨?_, ⟨u, hhead, hu.ebx, hltr⟩, fun v w hw => startTail_leads hl ht cpuid v w hw⟩
  rintro ⟨t, hrun, -⟩
  rw [start_none cpuid hhead hltr] at hrun
  cases hrun

theorem linkedImage_text : TextLinked linkedImage where
  low := by decide
  high := by decide

/-- The sections in zeroed memory, and the multiboot information at 0x9500, as some
loaders leave it. -/
def loadedEntry : Sys :=
  { letterEntry with
    ebx := 0x9500
    mem := ByteMem.write (ByteMem.write (ByteMem.write (fun _ => 0) 0x11001C messageBytes)
      0x1001E8 (gdtBytes ++ gdtPtrBytes linkedImage)) 0x110014 gdtTssBytes }

/-- The bytes of each section, and those stored after it. -/
theorem loadedEntry_sections :
    Only (Area.In linkedImage) [.messages, .text, .task] (fun _ => 0) loadedEntry.mem ∧
      Loaded linkedImage loadedEntry.mem := by
  have hl := linkedImage_linked
  have ht := linkedImage_text
  have hparted := Area.parted hl ht
  have hmessages := only_write linkedImage .messages 0x11001C messageBytes
    (by rw [messageBytes_length]; decide) rfl rfl (fun _ => 0)
  have htext := only_write linkedImage .text 0x1001E8 (gdtBytes ++ gdtPtrBytes linkedImage)
    (by decide) (by decide) rfl (ByteMem.write (fun _ => 0) 0x11001C messageBytes)
  have htask := only_write linkedImage .task 0x110014 gdtTssBytes (by decide) rfl rfl
    (ByteMem.write (ByteMem.write (fun _ => 0) 0x11001C messageBytes) 0x1001E8
      (gdtBytes ++ gdtPtrBytes linkedImage))
  refine ⟨(hmessages.append htext).append htask, ?_⟩
  exact {
    gdt := (gdtHeld_settled hl ht).keeps hparted htask (by decide) (holds_write (by decide))
    descriptor := holds_write (by decide)
    texts := (texts_settled hl ht).keeps hparted (htext.append htask) (by decide)
      (holds_write (by rw [messageBytes_length]; decide)) }

theorem loadedEntry_loaded : Loaded linkedImage loadedEntry.mem := loadedEntry_sections.2

/-- Where `tss_install` would have come back to. -/
def behindTss : Sys := { loadedEntry with esp := linkedImage.kernelStackTop }

theorem behindTss_cursor : AtCursor linkedImage.vga behindTss.mem 0 0 := by
  have hzero : AtCursor linkedImage.vga (fun _ => 0) 0 0 := ⟨rfl, rfl⟩
  exact (atCursor_settled linkedImage_linked 0 0).keeps
    (Area.parted linkedImage_linked linkedImage_text) loadedEntry_sections.1 (by decide) hzero

theorem start_argument_loaded :
    (¬ ∃ t, start linkedImage (fun _ => ⟨0, 0, 0, 0⟩) loadedEntry = some t ∧
        t.mem.read32 t.esp = 0x9500) ∧
      ∃ t, inOrder (startTail linkedImage fun _ => ⟨0, 0, 0, 0⟩) behindTss = some t ∧
        t.mem.read32 t.esp = 0 := by
  obtain ⟨hnever, -, htail⟩ := start_argument (fun _ => ⟨0, 0, 0, 0⟩) linkedImage_linked
    linkedImage_text loadedEntry_loaded
  exact ⟨hnever, htail 0x9500 behindTss ⟨rfl, rfl, ⟨Cursor.origin, Cursor.origin_onScreen,
    behindTss_cursor⟩, loadedEntry_loaded.gdt, loadedEntry_loaded.texts⟩⟩

theorem start_argument_lost :
    ¬ ∃ t, start linkedImage (fun _ => ⟨0, 0, 0, 0⟩) loadedEntry = some t ∧
      t.mem.read32 t.esp = loadedEntry.ebx := by
  rintro ⟨t, hrun, -⟩
  obtain ⟨u, hhead, hu, hgdtr⟩ := startHead_gdtr linkedImage_linked linkedImage_text _ loadedEntry
    ⟨rfl, loadedEntry_loaded⟩
  have hltr := ltr_atLtr linkedImage_linked linkedImage_text
    (linkedImage_linked.room hu.esp (by decide)) hu.gdt hgdtr
  rw [start_none _ hhead hltr] at hrun
  cases hrun

end MicroKernel.Proofs
