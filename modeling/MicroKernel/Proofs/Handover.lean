import MicroKernel.Proofs.TaskRegister

/-!
# The two halves of the way to `kmain`

The way to `kmain` is followed by what is known of the machine between two
calls: which of the tables are made, what has been sent, what the system
registers hold, and where the cursor is. A call goes from one such point to the
next, and what it does not touch is still known behind it. DF is clear
throughout, as a loader that follows the C convention leaves it.

The way ends at the `ltr`, so there are two of them: the first goes there, and the
second begins where `tss_install` would have come back to and goes on to the call.
-/

namespace MicroKernel.Proofs

open ByteMem X86 MicroKernel.Core Spec

/-- What can be known of the memory. -/
inductive BootFact where
  | texts
  | gdt
  | descriptor
  | clearedIdt
  | task
  | gates
  | maps
  deriving DecidableEq, Repr

/-- Where the bytes are that it is about. -/
def BootFact.areas : BootFact → List Area
  | .texts => [.messages]
  | .gdt => [.text]
  | .descriptor => [.task]
  | .clearedIdt => [.idt]
  | .task => [.task, .tss]
  | .gates => [.idt]
  | .maps => [.directory, .table]

def BootFact.Held (img : Image) : BootFact → PhysMem → Prop
  | .texts => fun m => Holds m img.bootMessage messageBytes
  | .gdt => GdtHeld img
  | .descriptor => fun m => Holds m img.gdtTss gdtTssBytes
  | .clearedIdt => fun m => Holds m img.idtStart (List.replicate 2048 0)
  | .task => TaskHeld img
  | .gates => GatesHeld img
  | .maps => MapsFirst img

structure Progress where
  facts : List BootFact
  sent : List (U16 × U8)
  control : Control
  cursor : Cursor

/-- Between two calls. -/
structure Reached (img : Image) (g : Progress) (s : Sys) : Prop where
  esp : s.esp = img.kernelStackTop
  df : s.df = false
  ports : s.ports = g.sent
  control : s.control = g.control
  onScreen : g.cursor.OnScreen
  cursor : AtCursor img.vga s.mem g.cursor.x g.cursor.y
  facts : ∀ f ∈ g.facts, f.Held img s.mem

section
variable {img : Image} {g : Progress} {s t u w : Sys} {as : List Area} {fs new : List BootFact}
  {log : List (U16 × U8)} {c : Control}

theorem BootFact.settled (hl : Linked img) (ht : TextLinked img) (f : BootFact) :
    SettledIn (Area.In img) f.areas (f.Held img) := by
  cases f with
  | texts => exact texts_settled hl ht
  | gdt => exact gdtHeld_settled hl ht
  | descriptor => exact descriptor_settled hl ht rfl
  | clearedIdt => exact zeroIdt_settled hl ht
  | task => exact taskHeld_settled hl ht
  | gates => exact gatesHeld_settled hl ht
  | maps => exact mapsFirst_settled hl ht

/-- What is known of areas that are not touched is still known. -/
theorem BootFact.keeps (hl : Linked img) (ht : TextLinked img) {f : BootFact} {m m' : PhysMem}
    (h : Only (Area.In img) as m m') (hapart : ∀ a ∈ f.areas, a ∉ as) (hf : f.Held img m) :
    f.Held img m' :=
  (f.settled hl ht).keeps (Area.parted hl ht) h hapart hf

/-! ## The screen -/

theorem vgaRegion_areas (hl : Linked img) {sp x : U32} {n : Nat}
    (hs : StackRoom img n sp) (hx : VgaRegion img.vga sp n x) :
    InAny (Area.In img) [.adapter, .cursor, .stack] x := by
  obtain hx | hx | hx := hx
  · refine inAny_of_mem (a := .adapter) ?_ (by decide)
    rw [InAdapter, Within] at hx
    rw [Area.In, Within, Area.lo, Area.size]
    omega
  · refine inAny_of_mem (a := .cursor) ?_ (by decide)
    rw [InCursor, Within] at hx
    rw [Area.In, Within, Area.lo, Area.size]
    omega
  · exact inAny_of_mem (a := .stack) (hs.below_stack hl hx) (by decide)

/-- A call of a VGA routine. -/
theorem vgaCall_effect {ra : U32} {f : Routine} {hits : List U32} {ok : Prop}
    {F : List U16 → List U16} {n : Nat} (hl : Linked img) (hesp : w.esp = img.kernelStackTop)
    (hn : n + 4 ≤ 108)
    (hf : f (cpu (pushVal ra) w) = some ((cpu (pushVal ra) w).returned u))
    (hmoves : Moves img.vga (VgaRegion img.vga (w.esp - 4) n) hits ok F
      (cpu (pushVal ra) w) u)
    (hsends : Sending (f (cpu (pushVal ra) w)) (cpu (pushVal ra) w) log) :
    ∃ t, callTo ra f w = some t ∧ t.esp = w.esp ∧ t.mem = u.mem ∧
      Effect img [.adapter, .cursor, .stack] log w.control w t := by
  have hp : Placed img.vga w.esp (n + 4) := hl.placed hesp hn
  have hregion : ∀ a, VgaRegion img.vga (w.esp - 4) n a → VgaRegion img.vga w.esp (n + 4) a :=
    fun a => Or.imp_right (Or.imp_right (below_sub hp.toRoom (Nat.le_refl 4) (Nat.le_refl _)))
  obtain ⟨t, ht, hregs, hmem, hall⟩ := callTo_moves hp (Nat.le_add_left 4 n)
    (fun _ h => Or.inr (Or.inr (below_mono (Nat.le_add_left 4 n) h))) hf (hmoves.mono hregion)
  obtain ⟨hports, hcontrol⟩ := hsends.callTo t ht
  exact ⟨t, ht, Sys.esp_of_withRegs hregs, hmem, hall.df, hports, hcontrol,
    hall.touches.mono fun x hx => vgaRegion_areas hl (hl.room hesp hn) hx⟩

/-- No fact is about the screen, the cursor or the stack. -/
theorem BootFact.off_screen (f : BootFact) :
    ∀ a ∈ f.areas, a ∉ [Area.adapter, .cursor, .stack] := by
  cases f <;> decide

/-- With the stack set up, but no cursor yet. -/
structure StackSet (img : Image) (fs : List BootFact) (sent : List (U16 × U8)) (c : Control)
    (s : Sys) : Prop where
  esp : s.esp = img.kernelStackTop
  df : s.df = false
  ports : s.ports = sent
  control : s.control = c
  facts : ∀ f ∈ fs, f.Held img s.mem

/-- With the screen cleared. -/
def Progress.cleared (fs : List BootFact) (sent : List (U16 × U8)) (c : Control) : Progress where
  facts := fs
  sent := sent ++ placeBytes .origin
  control := c
  cursor := .origin

theorem clear_reached (hl : Linked img) (ht : TextLinked img) {sent : List (U16 × U8)} :
    Leads (StackSet img fs sent c) (callTo (img.ra .clearScreen) (vgaClearScreen img.vga))
      (Reached img (.cleared fs sent c)) := by
  intro s h
  obtain ⟨hentry, -⟩ := Placed.sub (n := 68) (hl.placed h.esp (by decide)) (Nat.le_refl 4)
  obtain ⟨u, hu, hcur, hmoves⟩ :=
    vgaClearScreen_spec (s := cpu (pushVal (img.ra .clearScreen)) s) hentry
  obtain ⟨t, hcall, hesp, hmem, he⟩ := vgaCall_effect hl h.esp (by decide) hu hmoves
    (vgaClearScreen_sends hentry)
  refine ⟨t, hcall, hesp.trans h.esp, he.df.trans h.df, ?_, he.control.trans h.control,
    Cursor.origin_onScreen, hmem ▸ hcur, fun f hf => ?_⟩
  · rw [he.ports, h.ports]
    rfl
  · exact BootFact.keeps hl ht he.only f.off_screen (h.facts f hf)

/-- The place of the cursor after each character. -/
def printBytes (p : Cursor) (m : Message) : List (U16 × U8) :=
  (p.path newlineImm m.text).flatMap placeBytes

/-- After a message. -/
def Progress.print (g : Progress) (m : Message) : Progress :=
  { g with
    sent := g.sent ++ printBytes g.cursor m
    cursor := m.text.foldl (Cursor.put newlineImm) g.cursor }

theorem printMessage_reached (hl : Linked img) (ht : TextLinked img) (htexts : .texts ∈ g.facts)
    (m : Message) :
    Leads (Reached img g) (printMessage img m) (Reached img (g.print m)) := by
  intro s h
  have hset : Effect img [] [] s.control s (cpu (movImm .esi (img.message m)) s) :=
    effect_plain (plain_movImm _ (by decide)) (quiet_movImm _) s
  have hregs : (cpu (movImm .esi (img.message m)) s).esi = img.message m ∧
      (cpu (movImm .esi (img.message m)) s).esp = s.esp := ⟨rfl, rfl⟩
  rw [printMessage_eq]
  generalize cpu (movImm .esi (img.message m)) s = w at *
  obtain ⟨hesi, hesp⟩ := hregs
  rw [h.esp] at hesp
  have hstack := hl.kernelStackTop
  have hsp : w.esp.toNat = img.kernelStackTop.toNat := congrArg BitVec.toNat hesp
  have hpush := effect_push hl (hl.room (n := 4) hesp (by decide)) (img.raPrint m)
  have hentered := hset.steady hpush
  have htext : Holds (cpu (pushVal (img.raPrint m)) w).mem img.bootMessage messageBytes :=
    BootFact.keeps hl ht (f := .texts) hentered.only (by decide) (h.facts _ htexts)
  have hcur := (atCursor_settled hl g.cursor.x g.cursor.y).keeps (Area.parted hl ht)
    hentered.only (by decide) h.cursor
  have hstride := stride_clear (hentered.df.trans h.df) 1
  obtain ⟨hentry, hsub⟩ := Placed.sub (n := 104) (hl.placed hesp (Nat.le_refl 108))
    (Nat.le_refl 4)
  obtain ⟨hstr, hout⟩ := message_upwards hl htext m (w.esp - 4) (n := 104) (by
    have hsub' : (w.esp - 4).toNat = w.esp.toNat - 4 := hsub
    omega)
  have hread : (cpu (pushVal (img.raPrint m)) w).esi = img.message m := hesi
  rw [← hread, ← hstride] at hstr hout
  obtain ⟨u, hu, hend, hmoves⟩ := vgaPrintString_spec (t := ⟨[], g.cursor.x, g.cursor.y⟩) hentry
    rfl ⟨h.onScreen.x_lt, h.onScreen.y_lt⟩ hcur hstr.length_lt hstr hout
  obtain ⟨hx, hy⟩ := Terminal.print_at newlineImm
    ((cpu (pushVal (img.raPrint m)) w).mem img.vga.textAttribute) g.cursor m.text
  rw [hx, hy] at hend
  obtain ⟨t, hcall, hesp', hmem, he⟩ := vgaCall_effect hl hesp (by decide) hu hmoves
    (vgaPrintString_sends hentry h.onScreen hcur hstr hout)
  have hall := hset.steady he
  exact ⟨t, hcall, hesp'.trans hesp, hall.df.trans h.df, by rw [hall.ports, h.ports]; rfl,
    hall.control.trans h.control, Cursor.print_onScreen h.onScreen m.text, hmem ▸ hend,
    fun f hf => BootFact.keeps hl ht hall.only f.off_screen (h.facts f hf)⟩

/-! ## The tables -/

/-- One of the routines that do not print. -/
theorem install_reached (as : List Area) (new : List BootFact) {g' : Progress} {n : Nat}
    {k : U32 → U32} {f : Routine} (hl : Linked img) (ht : TextLinked img) (hn : n ≤ 108)
    (hkept : ∀ s, StackRoom img n s.esp → ∃ t, f s = some t ∧ Kept img n k s t)
    (heffect : ∀ s t, Reached img g s → StackRoom img n s.esp → f s = some t →
      Effect img as log g'.control s t ∧ ∀ f ∈ new, f.Held img t.mem)
    (hsent : g'.sent = g.sent ++ log) (hcursor : g'.cursor = g.cursor) (hcur : .cursor ∉ as)
    (hfacts : ∀ f ∈ g'.facts, f ∈ new ∨ f ∈ g.facts ∧ ∀ a ∈ f.areas, a ∉ as) :
    Leads (Reached img g) f (Reached img g') := by
  intro s h
  have hroom := hl.room h.esp hn
  obtain ⟨t, hrun, hk⟩ := hkept s hroom
  obtain ⟨he, hnew⟩ := heffect s t h hroom hrun
  have hcursor' := (atCursor_settled hl g.cursor.x g.cursor.y).keeps (Area.parted hl ht) he.only
    (by simpa using hcur) h.cursor
  refine ⟨t, hrun, hk.esp.trans h.esp, he.df.trans h.df, ?_, he.control, hcursor ▸ h.onScreen,
    hcursor ▸ hcursor', fun f hf => ?_⟩
  · rw [he.ports, h.ports, hsent]
  · obtain hf | ⟨hmem, hapart⟩ := hfacts f hf
    · exact hnew f hf
    · exact BootFact.keeps hl ht he.only hapart (h.facts f hmem)

def Progress.gdt (img : Image) (g : Progress) : Progress :=
  { g with control := flatControl g.control (23, img.gdtStart) }

def Progress.tss (g : Progress) : Progress :=
  { g with facts := [.task, .texts, .gdt, .clearedIdt] }

def Progress.idt (img : Image) (g : Progress) : Progress :=
  { g with
    facts := [.gates, .task, .texts, .gdt]
    sent := g.sent ++ picRemapBytes
    control := { g.control with idtr := (256 * 8 - 1, img.idtStart) } }

def Progress.pit (g : Progress) : Progress := { g with sent := g.sent ++ timerBytes 0 }

def Progress.fpu (cpuid : U32 → CpuidAnswer) (g : Progress) : Progress :=
  { g with
    control := { g.control with
      cr0 := g.control.cr0 &&& 0xFFFB ||| 0x20
      cr4 := if hasSse cpuid then g.control.cr4 ||| 0x600 else g.control.cr4 } }

def Progress.paging (img : Image) (g : Progress) : Progress :=
  { g with
    facts := [.maps, .gates, .task, .texts, .gdt]
    control := { g.control with cr0 := g.control.cr0 ||| 0x80000000, cr3 := img.pageDirectory } }

theorem BootFact.off_stack (f : BootFact) : ∀ a ∈ f.areas, a ∉ [Area.stack] := by
  cases f <;> decide

theorem gdtInstall_reached (hl : Linked img) (ht : TextLinked img) (hgdt : .gdt ∈ g.facts) :
    Leads (Reached img g) (callTo (img.ra .gdtInstall) (gdtInstall img))
      (Reached img (g.gdt img)) := by
  refine install_reached [.stack] [] hl ht (by decide) (fun _ => gdtInstall_kept hl)
    (fun s t h hroom hcall => ?_) (List.append_nil _).symm rfl (by decide)
    fun f hf => Or.inr ⟨hf, f.off_stack⟩
  have heffect := gdtInstall_effect hl ht hroom (h.facts _ hgdt) hcall
  rw [h.control] at heffect
  exact ⟨heffect, List.forall_mem_nil _⟩

theorem ret_mem (s : Sys) : (ret s).mem = s.mem := rfl

/-- As if `tss_install` came back without its `ltr`. -/
theorem atLtr_reached (hl : Linked img) (ht : TextLinked img)
    (hg : g.facts = [.texts, .gdt, .descriptor, .clearedIdt]) :
    Leads (Reached img g) (fun s => some (ret (atLtr img s))) (Reached img g.tss) := by
  have hfacts : ∀ f ∈ [BootFact.task, .texts, .gdt, .clearedIdt], f ∈ [BootFact.task] ∨
      f ∈ [BootFact.texts, .gdt, .descriptor, .clearedIdt] ∧
        ∀ a ∈ f.areas, a ∉ [Area.stack, .task, .tss] := by decide
  have hkept (s : Sys) (hs : StackRoom img 4 s.esp) : Kept img 4 id s (ret (atLtr img s)) :=
    Kept.ret hl hs (tssInstallBody_kept hl _)
  refine install_reached [.stack, .task, .tss] [.task] hl ht (by decide)
    (fun s hs => ⟨_, rfl, hkept s hs⟩) (fun s t h hroom hcall => ?_) (List.append_nil _).symm rfl
    (by decide) (hg ▸ hfacts)
  obtain rfl := Option.some.inj hcall
  have hdescriptor := h.facts .descriptor (by rw [hg]; decide)
  obtain ⟨heffect, hheld⟩ := atLtr_effect hl ht hroom h.df hdescriptor
  rw [h.control] at heffect
  rw [← ret_mem (atLtr img s)] at hheld
  exact ⟨effect_ret heffect, List.forall_mem_singleton.2 hheld⟩

theorem idtInstall_reached (hl : Linked img) (ht : TextLinked img)
    (hg : g.facts = [.task, .texts, .gdt, .clearedIdt]) :
    Leads (Reached img g) (callTo (img.ra .idtInstall) (idtInstall img))
      (Reached img (g.idt img)) := by
  have hfacts : ∀ f ∈ [BootFact.gates, .task, .texts, .gdt], f ∈ [BootFact.gates] ∨
      f ∈ [BootFact.task, .texts, .gdt, .clearedIdt] ∧
        ∀ a ∈ f.areas, a ∉ [Area.stack, .idtPtr, .idt] := by decide
  refine install_reached [.stack, .idtPtr, .idt] [.gates] hl ht (by decide)
    (fun _ => idtInstall_kept hl) (fun s t h hroom hcall => ?_) rfl rfl (by decide) (hg ▸ hfacts)
  have hzero := h.facts .clearedIdt (by rw [hg]; decide)
  obtain ⟨heffect, hheld⟩ := idtInstall_effect hl ht hroom hzero hcall
  rw [h.control] at heffect
  exact ⟨heffect, List.forall_mem_singleton.2 hheld⟩

theorem pitCall_reached (hl : Linked img) (ht : TextLinked img) :
    Leads (Reached img g)
      (inOrder [straight [cpu (pushByte 100)], callTo (img.ra .pitInstall) pitInstall,
        straight [cpu (add .esp 4)]])
      (Reached img g.pit) := by
  refine install_reached [.stack] [] hl ht (by decide) (fun _ => pitInstall_kept hl)
    (fun s t h hroom hcall => ?_) rfl rfl (by decide) fun f hf => Or.inr ⟨hf, f.off_stack⟩
  have heffect := pitCall_effect hl hroom hcall
  rw [h.control] at heffect
  exact ⟨heffect, List.forall_mem_nil _⟩

theorem fpuSseInstall_reached (cpuid : U32 → CpuidAnswer) (hl : Linked img)
    (ht : TextLinked img) :
    Leads (Reached img g) (callTo (img.ra .fpuSseInstall) (fpuSseInstall cpuid))
      (Reached img (g.fpu cpuid)) := by
  refine install_reached [.stack] [] hl ht (by decide) (fun _ => fpuSseInstall_kept cpuid hl)
    (fun s t h hroom hcall => ?_) (List.append_nil _).symm rfl (by decide)
    fun f hf => Or.inr ⟨hf, f.off_stack⟩
  have heffect := fpuSseInstall_effect hl hroom hcall
  have hcr0 : s.cr0 = g.control.cr0 := congrArg Control.cr0 h.control
  have hcr4 : s.cr4 = g.control.cr4 := congrArg Control.cr4 h.control
  rw [h.control, hcr0, hcr4] at heffect
  exact ⟨heffect, List.forall_mem_nil _⟩

theorem pagingInstall_reached (hl : Linked img) (ht : TextLinked img) (hp : TablesPlaced img)
    (hg : g.facts = [.gates, .task, .texts, .gdt]) :
    Leads (Reached img g) (callTo (img.ra .pagingInstall) (pagingInstall img))
      (Reached img (g.paging img)) := by
  have hfacts : ∀ f ∈ [BootFact.maps, .gates, .task, .texts, .gdt], f ∈ [BootFact.maps] ∨
      f ∈ [BootFact.gates, .task, .texts, .gdt] ∧
        ∀ a ∈ f.areas, a ∉ [Area.stack, .directory, .table] := by decide
  refine install_reached [.stack, .directory, .table] [.maps] hl ht (by decide)
    (fun _ => pagingInstall_kept hl) (fun s t h hroom hcall => ?_) (List.append_nil _).symm rfl
    (by decide) (hg ▸ hfacts)
  obtain ⟨heffect, hheld⟩ := pagingInstall_effect hl hroom hp h.df hcall
  have hcr0 : s.cr0 = g.control.cr0 := congrArg Control.cr0 h.control
  rw [h.control, hcr0] at heffect
  exact ⟨heffect, List.forall_mem_singleton.2 hheld⟩

/-! ## The two ways -/

/-- The image as it is loaded. The IDT is in the section that the loader clears. -/
structure Entry (img : Image) (s : Sys) : Prop where
  df : s.df = false
  loaded : Loaded img s.mem
  idt : Holds s.mem img.idtStart (List.replicate 2048 0)

/-- What `tss_install` would come back to, with the cursor at `p`. -/
structure PastTss (img : Image) (p : Cursor) (s : Sys) : Prop where
  esp : s.esp = img.kernelStackTop
  df : s.df = false
  segments : s.control = flatControl s.control (23, img.gdtStart)
  onScreen : p.OnScreen
  cursor : AtCursor img.vga s.mem p.x p.y
  gdt : GdtHeld img s.mem
  task : TaskHeld img s.mem
  texts : Holds s.mem img.bootMessage messageBytes
  idt : Holds s.mem img.idtStart (List.replicate 2048 0)

/-- Where messages leave the cursor. -/
def past (p : Cursor) (ms : List Message) : Cursor :=
  (ms.flatMap Message.text).foldl (Cursor.put newlineImm) p

def Progress.behind (p : Cursor) (sent : List (U16 × U8)) (c : Control) : Progress where
  facts := [.task, .texts, .gdt, .clearedIdt]
  sent := sent
  control := c
  cursor := p

/-- The calls behind `tss_install`. -/
def Progress.install (img : Image) (cpuid : U32 → CpuidAnswer) (g : Progress) : Progress :=
  let devices := ((((g.print .gdtOk).idt img).print .idtOk).pit).print .pitOk
  ((((devices.fpu cpuid).print .fpuOk).paging img).print .pagingOk).print .handover

theorem PastTss.reached {p : Cursor} (h : PastTss img p s) :
    Reached img (.behind p s.ports s.control) s where
  esp := h.esp
  df := h.df
  ports := rfl
  control := rfl
  onScreen := h.onScreen
  cursor := h.cursor
  facts := by
    simp only [Progress.behind, List.forall_mem_cons]
    exact ⟨h.task, h.texts, h.gdt, h.idt, List.forall_mem_nil _⟩

/-- At the call of `tss_install`. -/
def Progress.head (img : Image) (sent : List (U16 × U8)) (c : Control) : Progress :=
  ((Progress.cleared [.texts, .gdt, .descriptor, .clearedIdt] sent c).print .boot).gdt img

theorem head_past (img : Image) (sent : List (U16 × U8)) (c : Control) :
    (Progress.head img sent c).tss.cursor = past .origin [.boot] ∧
      (Progress.head img sent c).tss.sent =
        sent ++ placeBytes .origin ++ printBytes .origin .boot := by
  simp only [Progress.head, Progress.tss, Progress.gdt, Progress.print, Progress.cleared, past,
    List.flatMap_cons, List.flatMap_nil, List.append_nil, and_self]

theorem startHead_reached (hl : Linked img) (ht : TextLinked img) (h : Entry img s) :
    ∃ u, inOrder (startHead img) s = some u ∧
      Reached img (.head img s.ports s.control) u := by
  have hentry : Leads (· = s) (straight [cpu cli, cpu (movImm .esp img.kernelStackTop)])
      (StackSet img [.texts, .gdt, .descriptor, .clearedIdt] s.ports s.control) := by
    rintro _ rfl
    refine ⟨_, rfl, rfl, ?_, rfl, rfl, ?_⟩
    · exact (flag_setBit _ 10 false (by decide)).trans ((if_neg (by decide)).trans h.df)
    · simp only [List.forall_mem_cons]
      exact ⟨h.loaded.texts, h.loaded.gdt, h.loaded.descriptor, h.idt, List.forall_mem_nil _⟩
  have hloaded : BootFact.texts ∈ [BootFact.texts, .gdt, .descriptor, .clearedIdt] := by decide
  have hgdt : BootFact.gdt ∈ [BootFact.texts, .gdt, .descriptor, .clearedIdt] := by decide
  have hall : Leads (· = s) (inOrder (startHead img)) (Reached img (.head img s.ports s.control)) :=
    hentry.cons ((clear_reached hl ht).cons ((printMessage_reached hl ht hloaded .boot).cons
      (gdtInstall_reached hl ht hgdt).last))
  exact hall s rfl

theorem startTail_reached (cpuid : U32 → CpuidAnswer) (hl : Linked img) (ht : TextLinked img)
    (hp : TablesPlaced img) (hg : g.facts = [.task, .texts, .gdt, .clearedIdt]) :
    Leads (Reached img g) (inOrder (startTail img cpuid)) fun t =>
      ∃ u, t = run [cpu sti, cpu (push .ebx)] u ∧ Reached img (g.install img cpuid) u := by
  have hpush {g : Progress} : Leads (Reached img g) (straight [cpu sti, cpu (push .ebx)])
      fun t => ∃ u, t = run [cpu sti, cpu (push .ebx)] u ∧ Reached img g u :=
    fun u hu => ⟨_, rfl, u, rfl, hu⟩
  have hprint {g : Progress} (hg : .texts ∈ g.facts) (m : Message) :=
    printMessage_reached hl ht hg m
  have htss : BootFact.texts ∈ g.facts := by
    rw [hg]
    decide
  have hidt : BootFact.texts ∈ [BootFact.gates, .task, .texts, .gdt] := by decide
  have hmaps : BootFact.texts ∈ [BootFact.maps, .gates, .task, .texts, .gdt] := by decide
  refine (hprint htss .gdtOk).cons ((idtInstall_reached (g := g.print .gdtOk) hl ht hg).cons ?_)
  refine (hprint hidt .idtOk).cons ((pitCall_reached hl ht).cons ?_)
  refine (hprint hidt .pitOk).cons ((fpuSseInstall_reached cpuid hl ht).cons ?_)
  refine (hprint hidt .fpuOk).cons ((pagingInstall_reached hl ht hp rfl).cons ?_)
  exact (hprint hmaps .pagingOk).cons ((hprint hmaps .handover).cons hpush.last)

/-- What is sent behind `tss_install` up to the end of `pic_remap`, after which
interrupts are enabled. -/
def remapped (p : Cursor) : List (U16 × U8) := printBytes p .gdtOk ++ picRemapBytes

def afterRemap (p : Cursor) : List (U16 × U8) :=
  printBytes (past p [.gdtOk]) .idtOk ++ timerBytes 0 ++
    printBytes (past p [.gdtOk, .idtOk]) .pitOk ++
    printBytes (past p [.gdtOk, .idtOk, .pitOk]) .fpuOk ++
    printBytes (past p [.gdtOk, .idtOk, .pitOk, .fpuOk]) .pagingOk ++
    printBytes (past p [.gdtOk, .idtOk, .pitOk, .fpuOk, .pagingOk]) .handover

theorem install_sent (img : Image) (cpuid : U32 → CpuidAnswer) (g : Progress) :
    (g.install img cpuid).sent = g.sent ++ (remapped g.cursor ++ afterRemap g.cursor) ∧
      (g.install img cpuid).cursor = past g.cursor messages.tail := by
  simp only [Progress.install, Progress.print, Progress.idt, Progress.pit, Progress.fpu,
    Progress.paging, remapped, afterRemap, past, messages, List.tail_cons, List.flatMap_cons,
    List.flatMap_nil, List.foldl_append, List.append_nil, List.append_assoc, and_self]

/-! ## What the processor finds -/

/-- The dword of the stack pointer and the word of the stack segment hold each other's
values. -/
theorem taskHeld_ringZero {m : PhysMem} (h : TaskHeld img m) :
    readDescriptor m img.gdtTss = tssDescriptor img ∧
      ringZeroStack m img.tssEntry = (img.kernelStackTop.setWidth 16, 0x10) := by
  obtain ⟨hdescriptor, hdwords⟩ := h
  rw [tssDwords, dwords_cons, dwords_cons, dwords_cons, ← halves img.kernelStackTop,
    bytes32_append, holds_append, holds_append, holds_append, holds_append] at hdwords
  obtain ⟨-, hpointer, ⟨hsegment, -⟩, -⟩ := hdwords
  have hpointer' : m.read32 (img.tssEntry + 4) = 0x10 := read32_of_holds hpointer
  have hsegment' : m.read16 (img.tssEntry + 4 + 4) = img.kernelStackTop.setWidth 16 :=
    read16_of_holds hsegment
  rw [BitVec.add_assoc] at hsegment'
  exact ⟨readDescriptor_of_holds hdescriptor, Prod.ext hsegment' hpointer'⟩

end

/-- The processor at the `ltr`. -/
structure AtLtr (img : Image) (s t : Sys) : Prop where
  code : descriptor t.mem t.gdtr t.cs = some flatCode
  data : ∀ sel ∈ [t.ds, t.es, t.fs, t.gs, t.ss], descriptor t.mem t.gdtr sel = some flatData
  /-- What the task register is to be loaded with names no descriptor. -/
  selector : descriptor t.mem t.gdtr ((t.get .eax).setWidth 16) = none
  tss : readDescriptor t.mem img.gdtTss = tssDescriptor img
  ringZero : ringZeroStack t.mem img.tssEntry = (img.kernelStackTop.setWidth 16, 0x10)
  control : t.control = flatControl s.control (23, img.gdtStart)
  ports : t.ports = s.ports ++ placeBytes .origin ++ printBytes .origin .boot
  back : PastTss img (past .origin [.boot]) (ret t)

/-- The processor at the call of `kmain`, for the kernel it is to run. -/
structure HandedOver (img : Image) (cpuid : U32 → CpuidAnswer) (p : Cursor) (s t : Sys) :
    Prop where
  code : descriptor t.mem t.gdtr t.cs = some flatCode
  data : ∀ sel ∈ [t.ds, t.es, t.fs, t.gs, t.ss], descriptor t.mem t.gdtr sel = some flatData
  task : t.tr = s.tr
  tss : readDescriptor t.mem img.gdtTss = tssDescriptor img
  ringZero : ringZeroStack t.mem img.tssEntry = (img.kernelStackTop.setWidth 16, 0x10)
  limit : t.idtr.1 = 256 * 8 - 1
  gates : ∀ g ∈ idtGates, readGate t.mem t.idtr.2 g.1 =
    { offset := img.stub g.2, sel := t.cs, flags := 0x8E }
  others : ∀ v < 256, v ∉ idtGates.map (·.1) →
    readGate t.mem t.idtr.2 v = { offset := 0, sel := 0, flags := 0 }
  low : ∀ pse va, va.toNat < 2 ^ 22 →
    walk t.mem t.cr3 pse va = some { address := va, writable := true, user := false }
  high : ∀ pse va, 2 ^ 22 ≤ va.toNat → walk t.mem t.cr3 pse va = none
  cr0 : t.cr0 = (s.cr0 &&& 0xFFFB ||| 0x20) ||| 0x80000000
  cr4 : t.cr4 = if hasSse cpuid then s.cr4 ||| 0x600 else s.cr4
  ports : t.ports = s.ports ++ (remapped p ++ afterRemap p)
  cursor : AtCursor img.vga t.mem (past p messages.tail).x (past p messages.tail).y
  interrupts : flag t.eflags 9 = true

theorem zeroGate {m : PhysMem} {idtStart : U32} {k : Nat}
    (h : Holds m (gateAddr idtStart k) (List.replicate 8 0)) :
    readGate m idtStart k = { offset := 0, sel := 0, flags := 0 } := by
  have hbytes : List.replicate 8 0 = gateBytes 0 0 0 := by decide
  rw [hbytes] at h
  exact holds_gateBytes h

/-- Segments that are flat, for who reads the GDT. -/
theorem flat_segments {img : Image} {t : Sys} (hgdt : GdtHeld img t.mem)
    (h : t.control = flatControl t.control (23, img.gdtStart)) :
    descriptor t.mem t.gdtr t.cs = some flatCode ∧
      ∀ sel ∈ [t.ds, t.es, t.fs, t.gs, t.ss], descriptor t.mem t.gdtr sel = some flatData := by
  obtain ⟨hcode, hdata, -⟩ := gdtHeld_descriptors hgdt
  have hgdtr : t.gdtr = (23, img.gdtStart) := congrArg Control.gdtr h
  have hcs : t.cs = 0x08 := congrArg Control.cs h
  have hsegments : [t.ds, t.es, t.fs, t.gs, t.ss] = [0x10, 0x10, 0x10, 0x10, 0x10] :=
    congrArg (fun c : Control => [c.ds, c.es, c.fs, c.gs, c.ss]) h
  refine ⟨by rw [hgdtr, hcs, hcode], ?_⟩
  rw [hgdtr, hsegments]
  intro sel hsel
  obtain rfl : sel = 0x10 := by simpa using hsel
  exact hdata

theorem pastTss_of {img : Image} {g : Progress} {w : Sys}
    (hg : g.facts = [.task, .texts, .gdt, .clearedIdt])
    (hc : g.control = flatControl g.control (23, img.gdtStart)) (hr : Reached img g (ret w)) :
    PastTss img g.cursor (ret w) := by
  have hfacts := hr.facts
  rw [hg] at hfacts
  simp only [List.forall_mem_cons] at hfacts
  obtain ⟨htask, htexts, hgdt, hidt, -⟩ := hfacts
  exact {
    esp := hr.esp
    df := hr.df
    segments := by
      rw [hr.control]
      exact hc
    onScreen := hr.onScreen
    cursor := hr.cursor
    gdt := hgdt
    task := htask
    texts := htexts
    idt := hidt }

/-- At the `ltr`, from what would be known if it came back from there. -/
theorem atLtr_of {img : Image} {s w : Sys} {g : Progress}
    (hsel : (w.get .eax).setWidth 16 = (0x18 : U16))
    (hg : g.facts = [.task, .texts, .gdt, .clearedIdt])
    (hc : g.control = flatControl s.control (23, img.gdtStart))
    (hsent : g.sent = s.ports ++ placeBytes .origin ++ printBytes .origin .boot)
    (hcursor : g.cursor = past .origin [.boot]) (hr : Reached img g (ret w)) : AtLtr img s w := by
  have hflat : g.control = flatControl g.control (23, img.gdtStart) := by
    rw [hc]
    rfl
  have hback := pastTss_of hg hflat hr
  have hcontrol : w.control = flatControl s.control (23, img.gdtStart) := hr.control.trans hc
  have hgdtr : w.gdtr = (23, img.gdtStart) := congrArg Control.gdtr hcontrol
  have hgdt : GdtHeld img w.mem := hback.gdt
  obtain ⟨-, -, hpast⟩ := gdtHeld_descriptors hgdt
  obtain ⟨hcode, hdata⟩ := flat_segments hgdt hback.segments
  obtain ⟨htss, hring⟩ := taskHeld_ringZero hback.task
  rw [hcursor] at hback
  exact {
    code := hcode
    data := hdata
    selector := by rw [hsel, hgdtr, hpast]
    tss := htss
    ringZero := hring
    control := hcontrol
    ports := hr.ports.trans hsent
    back := hback }

theorem startHead_atLtr {img : Image} {s : Sys} (cpuid : U32 → CpuidAnswer) (hl : Linked img)
    (ht : TextLinked img) (h : Entry img s) :
    ∃ u, inOrder (startHead img) s = some u ∧ AtLtr img s (atLtr img u) ∧
      start img cpuid s = none := by
  obtain ⟨u, hhead, hu⟩ := startHead_reached hl ht h
  have hroom : StackRoom img 4 u.esp := hl.room hu.esp (by decide)
  have hgdt : GdtHeld img u.mem :=
    hu.facts .gdt (show .gdt ∈ [BootFact.texts, .gdt, .descriptor, .clearedIdt] by decide)
  have hgdtr : u.gdtr = (23, img.gdtStart) := congrArg Control.gdtr hu.control
  obtain ⟨-, hsel, -⟩ := atLtr_regs hl ht hroom hgdt
  obtain ⟨t, ht', hr⟩ := atLtr_reached hl ht rfl u hu
  obtain rfl := Option.some.inj ht'
  obtain ⟨hcursor, hsent⟩ := head_past img s.ports s.control
  have hat := atLtr_of (g := (Progress.head img s.ports s.control).tss) hsel rfl rfl hsent hcursor
    hr
  exact ⟨u, hhead, hat, start_none cpuid hhead (ltr_atLtr hl ht hroom hgdt hgdtr)⟩

/-- The system registers in the end, from those behind `tss_install`. -/
def bootControl (img : Image) (cpuid : U32 → CpuidAnswer) (c : Control) : Control :=
  { c with
    cr0 := (c.cr0 &&& 0xFFFB ||| 0x20) ||| 0x80000000
    cr3 := img.pageDirectory
    cr4 := if hasSse cpuid then c.cr4 ||| 0x600 else c.cr4
    idtr := (256 * 8 - 1, img.idtStart) }

theorem startTail_handedOver {img : Image} {p : Cursor} {s : Sys} (cpuid : U32 → CpuidAnswer)
    (hl : Linked img) (ht : TextLinked img) (hp : TablesPlaced img) (h : PastTss img p s) :
    ∃ t, inOrder (startTail img cpuid) s = some t ∧ HandedOver img cpuid p s t := by
  obtain ⟨_, hrun, u, rfl, hu⟩ := startTail_reached cpuid hl ht hp rfl s h.reached
  obtain ⟨hsent, hat⟩ := install_sent img cpuid (.behind p s.ports s.control)
  have hpush := effect_push hl (hl.room (n := 4) hu.esp (by decide)) u.ebx
  have hcursor := hu.cursor
  rw [hat] at hcursor
  have hfacts : ∀ f ∈ [BootFact.maps, .gates, .task, .texts, .gdt],
      f.Held img (cpu (pushVal u.ebx) u).mem :=
    fun f hf => BootFact.keeps hl ht hpush.only f.off_stack (hu.facts f hf)
  simp only [List.forall_mem_cons] at hfacts
  obtain ⟨hmaps, hgates, htask, -, hgdt, -⟩ := hfacts
  have hcontrol : (run [cpu sti, cpu (push .ebx)] u).control = bootControl img cpuid s.control :=
    hu.control
  have hif : flag (run [cpu sti, cpu (push .ebx)] u).eflags 9 = true :=
    (flag_setBit _ 9 true (by decide)).trans (if_pos rfl)
  have hcursor' : AtCursor img.vga (cpu (pushVal u.ebx) u).mem _ _ :=
    (atCursor_settled hl _ _).keeps (Area.parted hl ht) hpush.only (by decide) hcursor
  have hports : (run [cpu sti, cpu (push .ebx)] u).ports = _ := hu.ports.trans hsent
  have hmem : (run [cpu sti, cpu (push .ebx)] u).mem = (cpu (pushVal u.ebx) u).mem := rfl
  rw [← hmem] at hmaps hgates htask hgdt hcursor'
  refine ⟨_, hrun, ?_⟩
  generalize run [cpu sti, cpu (push .ebx)] u = t at *
  have hflat : t.control = flatControl t.control (23, img.gdtStart) := by
    have hsegments := congrArg (bootControl img cpuid) h.segments
    rw [hcontrol]
    exact hsegments
  obtain ⟨hcode, hdata⟩ := flat_segments hgdt hflat
  obtain ⟨htss, hring⟩ := taskHeld_ringZero htask
  have hidtr : t.idtr = (256 * 8 - 1, img.idtStart) := congrArg Control.idtr hcontrol
  have hcs : t.cs = 0x08 := congrArg Control.cs hflat
  have hcr3 : t.cr3 = img.pageDirectory := congrArg Control.cr3 hcontrol
  exact {
    code := hcode
    data := hdata
    task := congrArg Control.tr hcontrol
    tss := htss
    ringZero := hring
    limit := congrArg Prod.fst hidtr
    gates := by
      rw [hidtr, hcs]
      exact fun g hg => holds_gateBytes (hgates.present g hg)
    others := by
      rw [hidtr]
      exact fun v hv hout => zeroGate (hgates.absent v hv hout)
    low := by
      rw [hcr3]
      exact fun pse va => walk_low hp hmaps pse
    high := by
      rw [hcr3]
      exact fun pse va => walk_high hp hmaps pse
    cr0 := congrArg Control.cr0 hcontrol
    cr4 := congrArg Control.cr4 hcontrol
    ports := hports
    cursor := hcursor'
    interrupts := hif }

theorem loadedEntry_entry : Entry linkedImage loadedEntry where
  df := by decide
  loaded := loadedEntry_loaded
  idt := by
    have hzero : Holds (fun _ => 0) linkedImage.idtStart (List.replicate 2048 0) :=
      holds_iff.2 fun i hi => (List.getElem_replicate hi).symm
    exact BootFact.keeps linkedImage_linked linkedImage_text (f := .clearedIdt)
      loadedEntry_sections.1 (by decide) hzero

end MicroKernel.Proofs
