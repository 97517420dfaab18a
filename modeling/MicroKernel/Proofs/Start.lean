import MicroKernel.Proofs.Install
import MicroKernel.Proofs.VgaCalls

/-!
# EBX on the way to `kmain`

`_start` keeps the pointer that the loader left in EBX in that register alone.
Up to `tss_install` every call returns, with the GDT, the messages and the cursor
in order and the stack where it was, and so does every one behind it; but two of
these leave something else in EBX, the second what `cpuid` answers there.

The messages are read the way DF points. Downwards, each is its first character:
the byte before it is the end of another, or of the descriptor of the TSS.
-/

namespace MicroKernel.Proofs

open ByteMem X86 MicroKernel.Core Spec

/-- From a state with `P`, `f` ends in one with `Q`. -/
def Leads (P : Sys → Prop) (f : Routine) (Q : Sys → Prop) : Prop :=
  ∀ s, P s → ∃ t, f s = some t ∧ Q t

theorem Leads.cons {P Q R : Sys → Prop} {f : Routine} {fs : List Routine} (hf : Leads P f Q)
    (hfs : Leads Q (inOrder fs) R) : Leads P (inOrder (f :: fs)) R := by
  intro s hs
  obtain ⟨t, ht, hq⟩ := hf s hs
  obtain ⟨u, hu, hr⟩ := hfs t hq
  exact ⟨u, by rw [inOrder_cons, ht, Option.bind_some, hu], hr⟩

theorem Leads.last {P Q : Sys → Prop} {f : Routine} (hf : Leads P f Q) :
    Leads P (inOrder [f]) Q :=
  hf.cons fun s hs => ⟨s, rfl, hs⟩

/-! ## The GDT -/

/-- The GDT with its pointer behind it. -/
def GdtHeld (img : Image) (m : PhysMem) : Prop :=
  Holds m img.gdtStart (gdtBytes ++ gdtPtrBytes img)

theorem gdtStart_toNat {img : Image} (ht : TextLinked img) :
    img.gdtStart.toNat = img.gdtPtr.toNat - 24 := by
  have hlow := ht.low
  exact below_toNat (k := 24) (by omega)

theorem GdtHeld.pointer {img : Image} {m : PhysMem} (h : GdtHeld img m) :
    m.read16 img.gdtPtr = 23 ∧ m.read32 (img.gdtPtr + 2) = img.gdtStart := by
  obtain ⟨-, hptr⟩ := holds_append.1 h
  have hback : img.gdtStart + BitVec.ofNat 32 gdtBytes.length = img.gdtPtr :=
    BitVec.sub_add_cancel ..
  rw [hback, gdtPtrBytes, holds_append, bytes16_length] at hptr
  exact ⟨read16_of_holds hptr.1, read32_of_holds hptr.2⟩

/-- It is in the text section, so it is held as long as that is not written to. -/
theorem GdtHeld.touches {img : Image} {m m' : PhysMem} {R : U32 → Prop} (hl : Linked img)
    (ht : TextLinked img) (h : GdtHeld img m) (htouch : Touches R m m')
    (hout : ∀ x, Within 0x100000 img.idtPtr.toNat x → ¬ R x) : GdtHeld img m' := by
  have hlow := ht.low
  have hhigh := ht.high
  have hstart := gdtStart_toNat ht
  have hlen : (gdtBytes ++ gdtPtrBytes img).length = 30 := rfl
  have htop := hl.top
  have hboot := hl.bootMessage
  have hbss := hl.bss
  refine Holds.touches h htouch (by omega) fun x hx => hout x ?_
  rw [Within, hlen, hstart] at hx
  rw [Within]
  omega

/-! ## The messages -/

theorem message_text (m : Message) : 0 ∉ m.text ∧ ∃ c rest, m.text = c :: rest := by
  cases m <;> exact ⟨by decide, _, _, rfl⟩

/-- Its place among the others. -/
theorem messages_split (m : Message) :
    ∃ pre post, messages = pre ++ m :: post ∧ m.offset = (pre.flatMap Message.bytes).length ∧
      (m ≠ .boot → pre ≠ []) := by
  refine ⟨messages.takeWhile (· != m), (messages.dropWhile (· != m)).tail, ?_, rfl, ?_⟩ <;>
  cases m <;> decide

section
variable {img : Image} {mem : PhysMem} {m : Message}

theorem message_holds (h : Holds mem img.bootMessage messageBytes) (m : Message) :
    Holds mem (img.message m) m.bytes := by
  obtain ⟨pre, post, hsplit, hoffset, -⟩ := messages_split m
  rw [messageBytes, hsplit, List.flatMap_append, List.flatMap_cons, holds_append,
    holds_append] at h
  rw [Image.message, hoffset]
  exact h.2.1

theorem message_fits (m : Message) : m.offset + m.bytes.length ≤ messageBytes.length := by
  obtain ⟨pre, post, hsplit, hoffset, -⟩ := messages_split m
  rw [messageBytes, hsplit, List.flatMap_append, List.flatMap_cons, List.length_append,
    List.length_append, hoffset]
  omega

/-- The byte before a message. -/
theorem message_before (h : Holds mem img.bootMessage messageBytes)
    (hboot : m = .boot → mem (img.bootMessage - 1) = 0) : mem (img.message m + -1) = 0 := by
  obtain ⟨pre, post, hsplit, hoffset, hfirst⟩ := messages_split m
  by_cases hm : m = .boot
  · subst hm
    have hzero : img.message .boot = img.bootMessage := BitVec.add_zero _
    rw [hzero, BitVec.add_neg_eq_sub]
    exact hboot rfl
  · obtain ⟨init, k, rfl⟩ : ∃ init k, pre = init ++ [k] :=
      ⟨_, _, (List.dropLast_concat_getLast (hfirst hm)).symm⟩
    have hbytes : (init ++ [k]).flatMap Message.bytes =
        (init.flatMap Message.bytes ++ k.text) ++ [0] := by
      rw [List.flatMap_append, List.flatMap_singleton, Message.bytes, List.append_assoc]
    rw [messageBytes, hsplit, List.flatMap_append, hbytes, holds_append, holds_append] at h
    have hend := h.1.2.1
    rw [hbytes, List.length_append] at hoffset
    rw [Image.message, hoffset, BitVec.ofNat_add, ← BitVec.add_assoc]
    have hback (a : U32) : a + BitVec.ofNat 32 1 + -1 = a := by
      rw [BitVec.add_neg_eq_sub]
      exact BitVec.add_sub_cancel a 1
    exact (congrArg mem (hback _)).trans hend

/-- The messages, and the byte before them, are apart from what the VGA routines
write. -/
theorem Linked.apart (hl : Linked img) {sp x : U32} {n : Nat}
    (hlow : img.idtStart.toNat ≤ sp.toNat - n) (hfirst : img.bootMessage.toNat - 1 ≤ x.toNat)
    (hlast : x.toNat < img.bootMessage.toNat + messageBytes.length) :
    ¬ VgaRegion img.vga sp n x := by
  have := hl.cursorX
  have := hl.data
  have := hl.bootMessage
  have := hl.bss
  rw [VgaRegion, InAdapter, InCursor, Below, Within, Within, Within]
  omega

theorem Linked.text (hl : Linked img) {sp x : U32} {n : Nat}
    (hlow : img.idtStart.toNat ≤ sp.toNat - n) (hx : Within 0x100000 img.idtPtr.toNat x) :
    ¬ VgaRegion img.vga sp n x := by
  have := hl.cursorX
  have := hl.bootMessage
  have := hl.bss
  rw [Within] at hx
  rw [VgaRegion, InAdapter, InCursor, Below, Within, Within, Within]
  omega

theorem Linked.before (hl : Linked img) :
    (img.bootMessage - 1).toNat = img.bootMessage.toNat - 1 := by
  have hdata := hl.data
  have hboot := hl.bootMessage
  exact below_toNat (k := 1) (by omega)

/-- It can be read upwards, apart from what is written meanwhile. -/
theorem message_upwards (hl : Linked img) (h : Holds mem img.bootMessage messageBytes)
    (m : Message) (sp : U32) {n : Nat} (hlow : img.idtStart.toNat ≤ sp.toNat - n) :
    NulString mem 1 (img.message m) m.text ∧
      Apart (VgaRegion img.vga sp n) 1 (img.message m) (m.text.length + 1) := by
  have hbase := hl.bootMessage
  have hbss := hl.bss
  have htop := hl.top
  have hfits := message_fits m
  have hlen : m.bytes.length = m.text.length + 1 := List.length_append
  have haddr : (img.message m).toNat = img.bootMessage.toNat + m.offset :=
    offset_toNat (n := messageBytes.length) (by omega) (by omega)
  obtain ⟨hnul, -⟩ := message_text m
  refine ⟨nulString_of_holds (message_holds h m) hnul, apart_of fun i hi => ?_⟩
  have hone : BitVec.ofNat 32 i * 1 = BitVec.ofNat 32 i := BitVec.mul_one _
  have hi' : (img.message m + BitVec.ofNat 32 i).toNat = (img.message m).toNat + i :=
    offset_toNat hi (by omega)
  rw [hone]
  exact hl.apart hlow (by omega) (by omega)

/-- It can be read whichever way DF points. -/
theorem message_string (hl : Linked img) (h : Holds mem img.bootMessage messageBytes)
    (hboot : m = .boot → mem (img.bootMessage - 1) = 0) {d : U32}
    (hd : d = 1 ∨ d = -1) (sp : U32) {n : Nat} (hlow : img.idtStart.toNat ≤ sp.toNat - n) :
    ∃ str, NulString mem d (img.message m) str ∧
      Apart (VgaRegion img.vga sp n) d (img.message m) (str.length + 1) := by
  obtain rfl | rfl := hd
  · exact ⟨m.text, message_upwards hl h m sp hlow⟩
  have hbase := hl.bootMessage
  have hbss := hl.bss
  have htop := hl.top
  have hfits := message_fits m
  have hlen : m.bytes.length = m.text.length + 1 := List.length_append
  have haddr : (img.message m).toNat = img.bootMessage.toNat + m.offset :=
    offset_toNat (n := messageBytes.length) (by omega) (by omega)
  obtain ⟨hnul, c, rest, hc⟩ := message_text m
  have hbytes := message_holds h m
  rw [Message.bytes, hc] at hbytes
  rw [hc, List.mem_cons, not_or] at hnul
  have hback : (img.message m + -1).toNat = (img.message m).toNat - 1 := by
    rw [BitVec.add_neg_eq_sub]
    exact below_toNat (k := 1) (by omega)
  exact ⟨[c], ⟨⟨hbytes.1, Ne.symm hnul.1⟩, message_before h hboot⟩,
    hl.apart hlow (by omega) (by omega), hl.apart hlow (by omega) (by omega), trivial⟩

/-! ## Between the calls -/

/-- The memory as it is loaded: the GDT, the descriptor of the TSS, and the messages
behind it. -/
structure Loaded (img : Image) (m : PhysMem) : Prop where
  gdt : GdtHeld img m
  descriptor : Holds m img.gdtTss gdtTssBytes
  texts : Holds m img.bootMessage messageBytes

theorem Loaded.before (hl : Linked img) (h : Loaded img mem) : mem (img.bootMessage - 1) = 0 := by
  have hbase := hl.bootMessage
  have hdesc := hl.gdtTss
  have htop := hl.top
  have hbss := hl.bss
  have hone := hl.before
  have hlast := holds_iff.1 h.descriptor 7 (by decide)
  have haddr : (img.gdtTss + BitVec.ofNat 32 7).toNat = img.gdtTss.toNat + 7 :=
    offset_toNat (n := 8) (by decide) (by omega)
  have hat : img.bootMessage - 1 = img.gdtTss + BitVec.ofNat 32 7 :=
    BitVec.eq_of_toNat_eq (by omega)
  rw [hat]
  exact hlast

structure Booting (img : Image) (v : U32) (s : Sys) : Prop where
  esp : s.esp = img.kernelStackTop
  ebx : s.ebx = v
  cursor : ∃ p : Cursor, p.OnScreen ∧ AtCursor img.vga s.mem p.x p.y
  gdt : GdtHeld img s.mem
  texts : Holds s.mem img.bootMessage messageBytes

end

section
variable {img : Image} {v : U32} {s t : Sys} {n : Nat}

theorem Linked.placed (hl : Linked img) {sp : U32} (hsp : sp = img.kernelStackTop)
    (hn : n ≤ 108) : Placed img.vga sp n := by
  have := hl.data
  have := hl.cursorX
  have := hl.bootMessage
  have := hl.bss
  have := hl.kernelStackTop
  have := hl.top
  subst hsp
  exact ⟨⟨by omega, by omega⟩, by omega, by omega, Or.inr (by omega), Or.inr (by omega)⟩

theorem Linked.room (hl : Linked img) {sp : U32} (hsp : sp = img.kernelStackTop)
    (hn : n ≤ 108) : StackRoom img n sp := by
  have := hl.kernelStackTop
  subst hsp
  exact ⟨by omega, Nat.le_refl _⟩

theorem texts_touches {m m' : PhysMem} {sp : U32} (hl : Linked img)
    (h : Holds m img.bootMessage messageBytes) (hlow : img.idtStart.toNat ≤ sp.toNat - n)
    (ht : Touches (VgaRegion img.vga sp n) m m') :
    Holds m' img.bootMessage messageBytes := by
  have hbss := hl.bss
  have htop := hl.top
  refine h.touches ht (by omega) fun x hx => hl.apart hlow ?_ hx.2
  exact Nat.le_trans (Nat.sub_le _ _) hx.1

/-- A routine that keeps what is needed. -/
theorem Booting.kept {g : U32 → U32} (hl : Linked img) (ht : TextLinked img)
    (h : Booting img v s) (hk : Kept img n g s t) (hn : n ≤ 108) : Booting img (g v) t := by
  have hcur := hl.cursorX
  have hbase := hl.bootMessage
  have hbss := hl.bss
  have hstack := hl.kernelStackTop
  have htop := hl.top
  have hsp : s.esp.toNat = img.kernelStackTop.toNat := congrArg BitVec.toNat h.esp
  obtain ⟨p, hon, hcursor⟩ := h.cursor
  refine ⟨hk.esp.trans h.esp, hk.ebx.trans (congrArg g h.ebx), ⟨p, hon, ?_⟩, ?_, ?_⟩
  · refine hcursor.touches (hl.placed h.esp hn) hk.touches fun x hx => ?_
    rw [InCursor, Within] at hx
    rw [Needed, Below, Within, Within, Within, Within, Within]
    omega
  · refine h.gdt.touches hl ht hk.touches fun x hx => ?_
    rw [Within] at hx
    rw [Needed, Below, Within, Within, Within, Within, Within]
    omega
  · refine h.texts.touches hk.touches (by omega) fun x hx => ?_
    rw [Within] at hx
    rw [Needed, Below, Within, Within, Within, Within, Within]
    omega

theorem kept_leads {f : Routine} {g : U32 → U32} (hl : Linked img) (ht : TextLinked img)
    (hn : n ≤ 108)
    (h : ∀ s, StackRoom img n s.esp → ∃ t, f s = some t ∧ Kept img n g s t) (v : U32) :
    Leads (Booting img v) f (Booting img (g v)) := by
  intro s hs
  obtain ⟨t, hrun, hk⟩ := h s (hl.room hs.esp hn)
  exact ⟨t, hrun, hs.kept hl ht hk hn⟩

/-- A call of a VGA routine that saves its registers. -/
theorem vgaCall_booting {ra : U32} {f : Routine} {w u : Sys} {hits : List U32} {ok : Prop}
    {F : List U16 → List U16} (hl : Linked img) (ht : TextLinked img)
    (hesp : w.esp = img.kernelStackTop) (hebx : w.ebx = v) (hgdt : GdtHeld img w.mem)
    (htexts : Holds w.mem img.bootMessage messageBytes) (hn : n + 4 ≤ 108)
    (hf : f (cpu (pushVal ra) w) = some ((cpu (pushVal ra) w).returned u))
    (hcur : ∃ p : Cursor, p.OnScreen ∧ AtCursor img.vga u.mem p.x p.y)
    (hmoves : Moves img.vga (VgaRegion img.vga (w.esp - 4) n) hits ok F
      (cpu (pushVal ra) w) u) :
    ∃ t, callTo ra f w = some t ∧ Booting img v t ∧
      Touches (VgaRegion img.vga w.esp (n + 4)) w.mem t.mem := by
  have hp : Placed img.vga w.esp (n + 4) := hl.placed hesp hn
  have hstack := hl.kernelStackTop
  have hsp : w.esp.toNat = img.kernelStackTop.toNat := congrArg BitVec.toNat hesp
  have hregion : ∀ a, VgaRegion img.vga (w.esp - 4) n a → VgaRegion img.vga w.esp (n + 4) a :=
    fun a => Or.imp_right (Or.imp_right (below_sub hp.toRoom (Nat.le_refl 4) (Nat.le_refl _)))
  obtain ⟨t, hcall, hregs, hmem, hall⟩ := callTo_moves hp (Nat.le_add_left 4 n)
    (fun _ h => Or.inr (Or.inr (below_mono (Nat.le_add_left 4 n) h))) hf (hmoves.mono hregion)
  refine ⟨t, hcall, ⟨?_, ?_, hmem ▸ hcur, ?_, ?_⟩, hall.touches⟩
  · exact (Sys.esp_of_withRegs hregs).trans hesp
  · exact (Sys.ebx_of_withRegs hregs).trans hebx
  · exact hgdt.touches hl ht hall.touches fun x => hl.text (by omega)
  · exact texts_touches hl htexts (by omega) hall.touches

theorem clearScreen_leads (hl : Linked img) (ht : TextLinked img) (v : U32) :
    Leads (fun s => (s.esp = img.kernelStackTop ∧ s.ebx = v) ∧ Loaded img s.mem)
      (callTo (img.ra .clearScreen) (vgaClearScreen img.vga))
      fun t => Booting img v t ∧ t.mem (img.bootMessage - 1) = 0 := by
  rintro s ⟨⟨hesp, hebx⟩, hloaded⟩
  have hdata := hl.data
  have hbase := hl.bootMessage
  have hbss := hl.bss
  have hstack := hl.kernelStackTop
  have hsp : s.esp.toNat = img.kernelStackTop.toNat := congrArg BitVec.toNat hesp
  obtain ⟨hentry, -⟩ := Placed.sub (n := 68) (hl.placed hesp (by decide)) (Nat.le_refl 4)
  obtain ⟨u, hu, hcur, hmoves⟩ :=
    vgaClearScreen_spec (s := cpu (pushVal (img.ra .clearScreen)) s) hentry
  obtain ⟨t, hcall, hboot, htouch⟩ := vgaCall_booting hl ht hesp hebx hloaded.gdt hloaded.texts
    (by decide) hu ⟨Cursor.origin, Cursor.origin_onScreen, hcur⟩ hmoves
  have hone := hl.before
  have hkept : t.mem (img.bootMessage - 1) = s.mem (img.bootMessage - 1) :=
    htouch _ (hl.apart (by omega) (by omega) (by omega))
  exact ⟨t, hcall, hboot, hkept.trans (hloaded.before hl)⟩

theorem printMessage_eq (img : Image) (m : Message) (s : Sys) :
    printMessage img m s = callTo (img.raPrint m) (vgaPrintString img.vga)
      (cpu (movImm .esi (img.message m)) s) := by
  have hset : straight [cpu (movImm .esi (img.message m))] s =
      some (cpu (movImm .esi (img.message m)) s) := rfl
  rw [printMessage, inOrder_cons, hset, Option.bind_some, inOrder_cons]
  exact Option.bind_fun_some _

theorem printMessage_leads (hl : Linked img) (ht : TextLinked img) (m : Message) (v : U32) :
    Leads (fun s => Booting img v s ∧ (m = .boot → s.mem (img.bootMessage - 1) = 0))
      (printMessage img m) (Booting img v) := by
  rintro s ⟨hs, hbefore⟩
  obtain ⟨p, hon, hcur⟩ := hs.cursor
  have hstack := hl.kernelStackTop
  have hbase := hl.bootMessage
  have hbss := hl.bss
  have hdata := hl.data
  have hesi (s : Sys) : Plain s (cpu (movImm .esi (img.message m)) s) ∧
      (cpu (movImm .esi (img.message m)) s).esi = img.message m :=
    ⟨plain_movImm _ (by decide) s, rfl⟩
  obtain ⟨hplain, hw⟩ := hesi s
  rw [printMessage_eq]
  generalize cpu (movImm .esi (img.message m)) s = w at *
  have hesp : w.esp = img.kernelStackTop := hplain.esp.trans hs.esp
  have htexts : Holds w.mem img.bootMessage messageBytes := hplain.mem ▸ hs.texts
  have hsp : w.esp.toNat = img.kernelStackTop.toNat := congrArg BitVec.toNat hesp
  have hp : Placed img.vga w.esp 108 := hl.placed hesp (Nat.le_refl 108)
  have hpush := touches_push (img.raPrint m) hp.toRoom (by decide)
  have hwide := hpush.mono (S := VgaRegion img.vga w.esp 108) fun _ h => Or.inr (Or.inr h)
  have hcur' := (hplain.mem ▸ hcur : AtCursor img.vga w.mem p.x p.y).below hp hpush
  obtain ⟨hentry, hsub⟩ := Placed.sub (n := 104) hp (Nat.le_refl 4)
  have hone := hl.before
  have hbefore' (hm : m = .boot) :
      (cpu (pushVal (img.raPrint m)) w).mem (img.bootMessage - 1) = 0 := by
    rw [hwide _ (hl.apart (by omega) (by omega) (by omega)), hplain.mem]
    exact hbefore hm
  obtain ⟨str, hstr, hout⟩ := message_string (m := m) (n := 104) hl
    (texts_touches hl htexts (by omega) hwide) hbefore'
    (stride_cases (cpu (pushVal (img.raPrint m)) w).toCpu 1) (w.esp - 4) (by
      have hsub' : (w.esp - 4).toNat = w.esp.toNat - 4 := hsub
      omega)
  have hread : (cpu (pushVal (img.raPrint m)) w).esi = img.message m := hw
  rw [← hread] at hstr hout
  obtain ⟨u, hu, hend, hmoves⟩ := vgaPrintString_spec (t := ⟨[], p.x, p.y⟩) hentry rfl
    ⟨hon.x_lt, hon.y_lt⟩ hcur' hstr.length_lt hstr hout
  obtain ⟨hx, hy⟩ := Terminal.print_at newlineImm
    ((cpu (pushVal (img.raPrint m)) w).mem img.vga.textAttribute) p str
  rw [hx, hy] at hend
  obtain ⟨t, hcall, hboot, -⟩ := vgaCall_booting hl ht hesp (hplain.ebx.trans hs.ebx)
    (hplain.mem ▸ hs.gdt) htexts (by decide) hu ⟨_, Cursor.print_onScreen hon str, hend⟩ hmoves
  exact ⟨t, hcall, hboot⟩

theorem print_leads (hl : Linked img) (ht : TextLinked img) {m : Message} (hm : m ≠ .boot)
    (v : U32) : Leads (Booting img v) (printMessage img m) (Booting img v) :=
  fun s hs => printMessage_leads hl ht m v s ⟨hs, fun h => absurd h hm⟩

theorem printBoot_leads (hl : Linked img) (ht : TextLinked img) (v : U32) :
    Leads (fun s => Booting img v s ∧ s.mem (img.bootMessage - 1) = 0) (printMessage img .boot)
      (Booting img v) :=
  fun s hs => printMessage_leads hl ht .boot v s ⟨hs.1, fun _ => hs.2⟩

/-! ## Before `tss_install` and behind it -/

theorem entry_leads (img : Image) (v : U32) :
    Leads (fun s => s.ebx = v ∧ Loaded img s.mem)
      (straight [cpu cli, cpu (movImm .esp img.kernelStackTop)])
      fun t => (t.esp = img.kernelStackTop ∧ t.ebx = v) ∧ Loaded img t.mem :=
  fun _ hs => ⟨_, rfl, ⟨rfl, hs.1⟩, hs.2⟩

theorem push_leads (img : Image) (v : U32) :
    Leads (Booting img v) (straight [cpu sti, cpu (push .ebx)])
      fun t => t.mem.read32 t.esp = v := by
  intro s hs
  refine ⟨_, rfl, ?_⟩
  rw [← hs.ebx]
  exact pushVal_read s.ebx (cpu sti s)

theorem gdtInstall_leads (hl : Linked img) (ht : TextLinked img) (v : U32) :
    Leads (Booting img v) (callTo (img.ra .gdtInstall) (gdtInstall img)) (Booting img v) :=
  kept_leads hl ht (by decide) (fun _ => gdtInstall_kept hl) v

/-- Whatever is in EBX behind `tss_install`, what is pushed is what `cpuid` leaves
there. -/
theorem startTail_leads (hl : Linked img) (ht : TextLinked img) (cpuid : U32 → CpuidAnswer)
    (v : U32) : Leads (Booting img v) (inOrder (startTail img cpuid))
      fun t => t.mem.read32 t.esp = (cpuid 1).ebx := by
  have hprint {m : Message} (hm : m ≠ .boot) (v : U32) := print_leads hl ht hm v
  refine (hprint (by decide) v).cons ?_
  refine (kept_leads hl ht (by decide) (fun _ => idtInstall_kept hl) v).cons ?_
  refine (hprint (by decide) v).cons ?_
  refine (kept_leads hl ht (by decide) (fun _ => pitInstall_kept hl) v).cons ?_
  refine (hprint (by decide) _).cons ?_
  refine (kept_leads hl ht (by decide) (fun _ => fpuSseInstall_kept cpuid hl) _).cons ?_
  refine (hprint (by decide) _).cons ?_
  refine (kept_leads hl ht (by decide) (fun _ => pagingInstall_kept hl) _).cons ?_
  refine (hprint (by decide) _).cons ((hprint (by decide) _).cons ?_)
  exact (push_leads img _).last

end

theorem messageBytes_length : messageBytes.length = 230 := by decide +kernel

theorem linkedImage_linked : Linked linkedImage where
  data := by decide
  cursorX := by decide
  gdtTss := by decide
  bootMessage := by decide
  bss := by
    rw [messageBytes_length]
    decide
  kernelStackTop := by decide
  pageDirectory := by decide
  firstPageTable := by decide
  tssEntry := by decide
  top := by decide

end MicroKernel.Proofs
