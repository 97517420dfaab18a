import MicroKernel.Lib.NulString
import MicroKernel.Proofs.Newline
import MicroKernel.Proofs.VgaChar

/-!
# Printing a string

`vga_print_string` is followed character by character. The screen becomes that of
a terminal for which the backslash is the newline, where each character that
changes a cell lands on it, which the address, its lower half overwritten, does
only by chance. It becomes that of the terminal that was meant where the string
has neither a newline nor a backslash besides.
-/

namespace MicroKernel.Proofs

open ByteMem X86 MicroKernel.Core Spec

section
variable {img : VgaImage} {attr : U8}

theorem lodsb_test {u : Sys} {c : U8} (hc : u.mem u.esi = c) :
    Plain u (run [lodsb, testAl] u) ∧ (run [lodsb, testAl] u).esi = u.esi + u.stride 1 ∧
      lowByte (run [lodsb, testAl] u).eax = c ∧
      (run [lodsb, testAl] u).zf = decide (c = 0) := by
  have hlow : lowByte (setAl u.eax (u.mem u.esi)) = c := by
    rw [hc]
    exact setWidth_setAl _ _
  refine ⟨run_plain (by simp) u, rfl, hlow, ?_⟩
  show flag (logicFlags u.eflags (lowByte (setAl u.eax (u.mem u.esi)))) 6 = _
  rw [zf_logicFlags, hlow]

/-- The call of `vga_print_char`. -/
theorem printCharCall_moves {u : Sys} {t : Terminal} {c : U8} (hp : Placed img u.esp 72)
    (ht : t.OnScreen) (hcur : AtCursor img u.mem t.x t.y) (hattr : u.mem img.textAttribute = attr)
    (hc : lowByte u.eax = c) :
    ∃ v, callTo (img.ra .printStringChar) (vgaPrintChar img) u = some v ∧
      v.withRegs u = v ∧
      AtCursor img v.mem (t.put newlineImm attr c).x (t.put newlineImm attr c).y ∧
      Moves img (VgaRegion img u.esp 72) (storedAt newlineImm attr t c) (Lands newlineImm attr t c)
        (fun cells => (Terminal.put newlineImm attr { t with cells } c).cells) u v := by
  obtain ⟨hentry, -⟩ := Placed.sub (n := 68) hp (Nat.le_refl 4)
  have hpush : Touches (Below u.esp 72) u.mem
      (cpu (pushVal (img.ra .printStringChar)) u).mem :=
    touches_push _ hp.toRoom (by decide)
  have hkept := hcur.below hp hpush
  obtain ⟨w, hw, hend, hmoves⟩ :=
    vgaPrintChar_spec (s := cpu (pushVal (img.ra .printStringChar)) u) hentry ht hkept hc
  rw [hp.attr_touches (hpush.mono fun _ h => Or.inr (Or.inr h)), hattr] at hend hmoves
  have hregion : ∀ a, VgaRegion img (u.esp - 4) 68 a → VgaRegion img u.esp 72 a := fun a =>
    Or.imp_right (Or.imp_right (below_sub hp.toRoom (Nat.le_refl 4) (Nat.le_refl 72)))
  obtain ⟨v, hcall, hregs, hmem, hall⟩ := callTo_moves hp (by decide)
    (fun _ h => Or.inr (Or.inr (below_mono (by decide) h))) hw (hmoves.mono hregion)
  exact ⟨v, hcall, hregs, hmem ▸ hend, hall⟩

/-- A round of the loop, in a state whose ESI is at the rest of the string. -/
theorem printLoop_round {c : U8} {str : List U8} {u : Sys} {t : Terminal}
    (hp : Placed img u.esp 72) (hattr : u.mem img.textAttribute = attr) (ht : t.OnScreen)
    (hcur : AtCursor img u.mem t.x t.y) (hstr : NulString u.mem (u.stride 1) u.esi (c :: str))
    (hout : Apart (VgaRegion img u.esp 72) (u.stride 1) u.esi (str.length + 2)) :
    ∃ w v, Plain u w ∧ lowByte w.eax = c ∧
      callTo (img.ra .printStringChar) (vgaPrintChar img) w = some v ∧
      (∀ n, printLoop img (n + 1) u = printLoop img n v) ∧ v.esp = u.esp ∧
      AtCursor img v.mem (t.put newlineImm attr c).x (t.put newlineImm attr c).y ∧
      NulString v.mem (v.stride 1) v.esi str ∧
      Apart (VgaRegion img v.esp 72) (v.stride 1) v.esi (str.length + 1) ∧
      Moves img (VgaRegion img u.esp 72) (storedAt newlineImm attr t c) (Lands newlineImm attr t c)
        (fun cells => (Terminal.put newlineImm attr { t with cells } c).cells) u v := by
  obtain ⟨hc, hnz⟩ := hstr.1
  obtain ⟨hplain, hesi, hlow, hzf⟩ := lodsb_test hc
  have hround : ∀ n, printLoop img (n + 1) u =
      (callTo (img.ra .printStringChar) (vgaPrintChar img) (run [lodsb, testAl] u)).bind
        (printLoop img n) := by
    intro n
    rw [printLoop, hzf, decide_eq_false hnz]
    rfl
  generalize run [lodsb, testAl] u = w at *
  have hpw : Placed img w.esp 72 := hplain.esp ▸ hp
  obtain ⟨v, hcall, hregs, hcur', hput⟩ := printCharCall_moves hpw ht (hplain.mem ▸ hcur)
    (hplain.mem ▸ hattr) hlow
  have hesp := (Sys.esp_of_withRegs hregs).trans hplain.esp
  have hesi' := (Sys.esi_of_withRegs hregs).trans hesi
  rw [hplain.esp] at hput
  have hmoves := (moves_plain hplain).trans hput
  have hstride : v.stride 1 = u.stride 1 := by
    rw [Cpu.stride, Cpu.stride, hmoves.df]
  refine ⟨w, v, hplain, hlow, hcall, fun n => by rw [hround, hcall]; rfl, hesp, hcur', ?_, ?_,
    hmoves.congr fun hok => ⟨⟨trivial, hok⟩, fun _ _ => rfl⟩⟩
  · rw [hesi', hstride]
    exact (hstr.touches hmoves.touches hout).2
  · rw [hesi', hesp, hstride]
    exact hout.2

theorem printLoop_spec {str : List U8} {n : Nat} (hn : str.length < n) {u : Sys} {t : Terminal}
    (hp : Placed img u.esp 72) (hattr : u.mem img.textAttribute = attr) (ht : t.OnScreen)
    (hcur : AtCursor img u.mem t.x t.y) (hstr : NulString u.mem (u.stride 1) u.esi str)
    (hout : Apart (VgaRegion img u.esp 72) (u.stride 1) u.esi (str.length + 1)) :
    ∃ v, printLoop img n u = some (run [cpu popad, ret] v) ∧ v.esp = u.esp ∧
      AtCursor img v.mem (t.print newlineImm attr str).x (t.print newlineImm attr str).y ∧
      Moves img (VgaRegion img u.esp 72) (storedFor newlineImm attr t str)
        (EachStep (fun pre => Lands newlineImm attr (t.print newlineImm attr pre)) str)
        (fun cells => (Terminal.print newlineImm attr { t with cells } str).cells) u v := by
  induction str generalizing n u t with
  | nil =>
      obtain ⟨n, rfl⟩ := Nat.exists_eq_succ_of_ne_zero (Nat.ne_of_gt hn)
      obtain ⟨hplain, -, -, hzf⟩ := lodsb_test hstr
      refine ⟨_, by rw [printLoop, hzf]; rfl, hplain.esp, hplain.mem ▸ hcur, ?_⟩
      exact (moves_plain hplain).congr fun _ => ⟨trivial, fun _ _ => rfl⟩
  | cons c str ih =>
      obtain ⟨n, rfl⟩ := Nat.exists_eq_succ_of_ne_zero (Nat.ne_of_gt (Nat.zero_lt_of_lt hn))
      obtain ⟨-, v, -, -, -, hround, hesp, hcur', hkept, hout', hmoves⟩ :=
        printLoop_round hp hattr ht hcur hstr hout
      obtain ⟨z, hz, hesp', hend, hrest⟩ := ih (Nat.lt_of_succ_lt_succ hn) (hesp ▸ hp)
        ((hp.attr_touches hmoves.touches).trans hattr)
        (Terminal.put_onScreen ht) hcur' hkept hout'
      rw [hesp] at hrest
      refine ⟨z, (hround n).trans hz, hesp'.trans hesp, hend, ?_⟩
      refine (hmoves.trans hrest).congr fun hok => ⟨eachStep_cons.1 hok, fun cells _ => ?_⟩
      have hone := (Terminal.put_cells newlineImm attr t c cells).symm
      exact congrArg (fun t => (Terminal.print newlineImm attr t str).cells) hone

theorem vgaPrintString_spec {str : List U8} {s : Sys} {t : Terminal}
    (hp : Placed img s.esp 104) (hattr : s.mem img.textAttribute = attr) (ht : t.OnScreen)
    (hcur : AtCursor img s.mem t.x t.y) (hlen : str.length < 2 ^ 32)
    (hstr : NulString s.mem (s.stride 1) s.esi str)
    (hout : Apart (VgaRegion img s.esp 104) (s.stride 1) s.esi (str.length + 1)) :
    ∃ v, vgaPrintString img s = some (s.returned v) ∧
      AtCursor img v.mem (t.print newlineImm attr str).x (t.print newlineImm attr str).y ∧
      Moves img (VgaRegion img s.esp 104) (storedFor newlineImm attr t str)
        (EachStep (fun pre => Lands newlineImm attr (t.print newlineImm attr pre)) str)
        (fun cells => (Terminal.print newlineImm attr { t with cells } str).cells) s v := by
  obtain ⟨hbody, hentry⟩ := pushad_moves (n := 72) hp
  have hwide := hentry.touches.mono (S := VgaRegion img s.esp 104) fun _ h => Or.inr (Or.inr h)
  obtain ⟨v, hr, hesp, hend, hmoves⟩ := printLoop_spec hlen (u := cpu pushad s) hbody
    ((hp.attr_touches hwide).trans hattr) ht (hcur.below hp hentry.touches)
    (hstr.touches hwide hout) (hout.mono fun _ => region_pushad (n := 72) hp)
  obtain ⟨hback, hall⟩ := popad_moves (n := 72) hp hesp hmoves
  exact ⟨v, hr.trans (congrArg some hback), hend, hall⟩

/-! ## Where the stores go -/

theorem lands_inScreen {t : Terminal} {c : U8} (ht : t.OnScreen) (h : Lands newlineImm attr t c) :
    ∀ a ∈ storedAt newlineImm attr t c, InScreen a := by
  intro a ha
  rw [storedAt] at ha
  split at ha
  · cases ha
  · next i b htarget =>
      have hi := Terminal.target_lt ht htarget
      have haddr := cellAddr_toNat hi
      have hnext : (cellAddr i + 1).toNat = (cellAddr i).toNat + 1 :=
        offset_toNat (i := 1) (n := 2) (by decide) (by omega)
      rw [h i b htarget] at ha
      rw [InScreen, Within]
      obtain rfl | ha := List.mem_cons.1 ha
      · omega
      · obtain rfl := List.mem_singleton.1 ha
        omega

/-- The condition is met only with the attributes whose stores can reach the screen
at all, or where no cell changes. -/
theorem lands_of_inner {sp : U32} {n : Nat} {t : Terminal} {c : U8} (hp : Placed img sp n)
    (hattr : attr.toNat < 0x80 ∨ 0x90 ≤ attr.toNat)
    (h : ∀ a ∈ storedAt newlineImm attr t c, Inner img a) : Lands newlineImm attr t c := by
  intro i b htarget
  have hstored : storeAddr attr b ∈ storedAt newlineImm attr t c := by
    rw [storedAt, htarget]
    exact List.mem_cons_self
  have haddr := storeAddr_toNat attr b
  have hb := b.isLt
  have ha := attr.isLt
  have hvars := hp.vars
  have hin := h _ hstored
  rw [Inner, InScreen, InCursor, Within, Within] at hin
  omega

theorem storedFor_inner {t : Terminal} {str : List U8} (ht : t.OnScreen)
    (h : EachStep (fun pre => Lands newlineImm attr (t.print newlineImm attr pre)) str) :
    ∀ a ∈ storedFor newlineImm attr t str, InScreen a := by
  induction str generalizing t with
  | nil => exact fun _ ha => absurd ha List.not_mem_nil
  | cons c str ih =>
      obtain ⟨hfirst, hrest⟩ := eachStep_cons.1 h
      intro a ha
      obtain ha | ha := List.mem_append.1 ha
      · exact lands_inScreen ht hfirst a ha
      · exact ih (Terminal.put_onScreen ht) hrest a ha

theorem eachStep_of_inner {sp : U32} {n : Nat} {t : Terminal} {str : List U8}
    (hp : Placed img sp n) (hattr : attr.toNat < 0x80 ∨ 0x90 ≤ attr.toNat)
    (h : ∀ a ∈ storedFor newlineImm attr t str, Inner img a) :
    EachStep (fun pre => Lands newlineImm attr (t.print newlineImm attr pre)) str := by
  induction str generalizing t with
  | nil => exact eachStep_nil
  | cons c str ih =>
      refine eachStep_cons.2 ⟨lands_of_inner hp hattr fun a ha => ?_, ih fun a ha => ?_⟩
      · exact h a (List.mem_append_left _ ha)
      · exact h a (List.mem_append_right _ ha)

/-! ## The result -/

/-- A call of `vga_print_string`: the screen, the cursor, the attribute and the
string, which is neither on the screen nor in what the routines write. -/
structure PrintCall (img : VgaImage) (s : Sys) (t : Terminal) (attr : U8) (str : List U8) :
    Prop where
  placed : Placed img s.esp 104
  df : s.df = false
  shade : s.mem img.textAttribute = attr
  onScreen : t.OnScreen
  cursor : AtCursor img s.mem t.x t.y
  cells : t.cells = screenOf s.mem
  string : NulString s.mem 1 s.esi str
  apart : Apart (VgaRegion img s.esp 104) 1 s.esi (str.length + 1)

theorem PrintCall.spec {s : Sys} {t : Terminal} {str : List U8} (h : PrintCall img s t attr str) :
    ∃ v, vgaPrintString img s = some (s.returned v) ∧
      AtCursor img v.mem (t.print newlineImm attr str).x (t.print newlineImm attr str).y ∧
      Moves img (VgaRegion img s.esp 104) (storedFor newlineImm attr t str)
        (EachStep (fun pre => Lands newlineImm attr (t.print newlineImm attr pre)) str)
        (fun cells => (Terminal.print newlineImm attr { t with cells } str).cells) s v := by
  have hup := stride_clear h.df 1
  have hcursor : VgaRegion img s.esp 104 img.cursorX :=
    Or.inr (Or.inl ⟨Nat.le_refl _, Nat.lt_add_of_pos_right (by decide)⟩)
  exact vgaPrintString_spec h.placed h.shade h.onScreen h.cursor
    (Nat.lt_of_succ_lt (h.apart.lt hcursor)) (by rw [hup]; exact h.string)
    (by rw [hup]; exact h.apart)

/-- Nothing but the screen and the cursor's variables has been stored to, and the
screen is the terminal's. -/
structure Faithful (img : VgaImage) (s s' : Sys) (t : Terminal) : Prop where
  inside : ∃ log, s'.stored = s.stored ++ log ∧ ∀ a ∈ log, Inner img a
  screen : screenOf s'.mem = t.cells

/-- The call returns, and has printed the string as a terminal does. -/
def Prints (img : VgaImage) (s : Sys) (t : Terminal) (attr : U8) (str : List U8) : Prop :=
  ∃ s', vgaPrintString img s = some s' ∧
    Faithful img s s' (t.print Terminal.lineFeed attr str)

/-- Neither what is a newline nor what the code takes for one, and a cell that is to
change lies where the store goes. -/
def LandsPlain (attr : U8) (t : Terminal) (c : U8) : Prop :=
  c ≠ Terminal.lineFeed ∧ c ≠ newlineImm ∧ Lands Terminal.lineFeed attr t c

theorem lands_other {nl nl' c : U8} {t : Terminal} (h : c ≠ nl) (h' : c ≠ nl') :
    Lands nl attr t c ↔ Lands nl' attr t c := by
  simp only [Lands, Terminal.target, if_neg h, if_neg h']

/-- With no newline in the string it is all one which character is the newline. -/
theorem eachPlain_iff {t : Terminal} {str : List U8} :
    EachStep (fun pre c => LandsPlain attr (t.print Terminal.lineFeed attr pre) c) str ↔
      (∀ c ∈ str, c ≠ Terminal.lineFeed ∧ c ≠ newlineImm) ∧
        EachStep (fun pre => Lands newlineImm attr (t.print newlineImm attr pre)) str := by
  induction str generalizing t with
  | nil => exact iff_of_true eachStep_nil ⟨by simp, eachStep_nil⟩
  | cons c str ih =>
      rw [eachStep_cons, eachStep_cons, List.forall_mem_cons]
      constructor
      · rintro ⟨⟨hlf, himm, hlands⟩, hrest⟩
        obtain ⟨hnone, hall⟩ := ih.1 hrest
        rw [put_other hlf himm] at hall
        exact ⟨⟨⟨hlf, himm⟩, hnone⟩, (lands_other hlf himm).1 hlands, hall⟩
      · rintro ⟨⟨⟨hlf, himm⟩, hnone⟩, hlands, hall⟩
        refine ⟨⟨hlf, himm, (lands_other hlf himm).2 hlands⟩, ?_⟩
        refine ih.2 ⟨hnone, ?_⟩
        rw [put_other hlf himm]
        exact hall

/-- Whatever the screen shows at first. -/
theorem PrintCall.withScreen {s : Sys} {t : Terminal} {str : List U8}
    (h : PrintCall img s t attr str) {m : PhysMem} (hm : Touches InScreen s.mem m) :
    PrintCall img { s with mem := m } { t with cells := screenOf m } attr str := by
  have hp := h.placed
  have hwide : ∀ a, InScreen a → VgaRegion img s.esp 104 a := fun a ha => by
    rw [InScreen, Within] at ha
    exact Or.inl ⟨by omega, by omega⟩
  have hvars : ∀ a, InCursor img a → ¬ InScreen a := fun a ha hb => by
    have := hp.vars
    rw [InCursor, Within] at ha
    rw [InScreen, Within] at hb
    omega
  exact
    { placed := hp
      df := h.df
      shade := (hp.attr_touches (hm.mono hwide)).trans h.shade
      onScreen := ⟨h.onScreen.x_lt, h.onScreen.y_lt⟩
      cursor := h.cursor.touches hp hm hvars
      cells := rfl
      string := h.string.touches hm (h.apart.mono hwide)
      apart := h.apart }

/-- What a call that prints as a terminal does has to be: it lands, and the terminal
of the code shows the same in the end. -/
theorem PrintCall.lands {s : Sys} {t : Terminal} {str : List U8} (h : PrintCall img s t attr str)
    (hattr : attr.toNat < 0x80 ∨ 0x90 ≤ attr.toNat) (hprints : Prints img s t attr str) :
    EachStep (fun pre => Lands newlineImm attr (t.print newlineImm attr pre)) str ∧
      (t.print newlineImm attr str).cells = (t.print Terminal.lineFeed attr str).cells := by
  obtain ⟨s', hs', hfaithful⟩ := hprints
  obtain ⟨v, hv, -, hmoves⟩ := h.spec
  obtain rfl := Option.some.inj (hs'.symm.trans hv)
  obtain ⟨log, hlog, -, hhits⟩ := hmoves.logs h.df
  obtain ⟨log', hlog', hinner⟩ := hfaithful.inside
  obtain rfl : log' = log := List.append_cancel_left (hlog'.symm.trans hlog)
  have hlands := eachStep_of_inner h.placed hattr fun a ha => hinner a (hhits a ha)
  refine ⟨hlands, ?_⟩
  have hscreen : screenOf v.mem = _ := hmoves.screen h.df hlands
  rw [← h.cells] at hscreen
  exact hscreen.symm.trans hfaithful.screen

/-- Past the screen nothing lands: the string prints nothing. -/
theorem quiet_of_lands {t : Terminal} {str : List U8} (ht : t.OnScreen)
    (hattr : attr.toNat < 0x80 ∨ 0x90 ≤ attr.toNat)
    (h : EachStep (fun pre => Lands newlineImm attr (t.print newlineImm attr pre)) str) :
    Quiet newlineImm attr t str := by
  intro pre c post hstr
  have hlands := h pre c post hstr
  cases htarget : (t.print newlineImm attr pre).target newlineImm c with
  | none => rfl
  | some target =>
      obtain ⟨i, b⟩ := target
      have hi := Terminal.target_lt (Terminal.print_onScreen ht pre) htarget
      have haddr := congrArg BitVec.toNat (hlands i b htarget)
      rw [storeAddr_toNat, cellAddr_toNat hi] at haddr
      have hb := b.isLt
      omega

/-- A screen that shows one word throughout. -/
def plainScreen (m : PhysMem) (v : U16) : PhysMem := fill (bytes16 v) 2 2000 m 0xB8000

theorem plainScreen_touches (m : PhysMem) (v : U16) : Touches InScreen m (plainScreen m v) :=
  touches_fill_up (a := 0xB8000) (n := 2000) (k := 2) (bytes16_length v) (by decide) (by decide)

theorem screenOf_plainScreen (m : PhysMem) (v : U16) :
    screenOf (plainScreen m v) = List.replicate 2000 v := by
  have hfill := screenOf_fill (m := m) 2000 (i := 0) v (by decide)
  rw [List.take_zero, List.nil_append, List.drop_eq_nil_of_le (Nat.le_of_eq (screenOf_length m)),
    List.append_nil] at hfill
  exact hfill

/-- A string is printed as a terminal prints it where each of its characters is
printable and lands. Where the attribute takes the stores past the screen, only such
a string is, whatever is on the screen before. -/
theorem vgaPrintString_faithful {s : Sys} {t : Terminal} {str : List U8}
    (h : PrintCall img s t attr str) :
    (EachStep (fun pre c => LandsPlain attr (t.print Terminal.lineFeed attr pre) c) str →
      Prints img s t attr str) ∧
    (attr.toNat < 0x80 ∨ 0x90 ≤ attr.toNat →
      (∀ m, Touches InScreen s.mem m →
        Prints img { s with mem := m } { t with cells := screenOf m } attr str) →
      EachStep (fun pre c => LandsPlain attr (t.print Terminal.lineFeed attr pre) c) str) := by
  refine ⟨fun hall => ?_, fun hattr hprints => ?_⟩
  · obtain ⟨hnone, hlands⟩ := eachPlain_iff.1 hall
    obtain ⟨v, hv, -, hmoves⟩ := h.spec
    obtain ⟨log, hlog, hin, -⟩ := hmoves.logs h.df
    rw [Prints, ← print_other (fun c hc => (hnone c hc).symm) t]
    refine ⟨_, hv, ⟨log, hlog, fun a ha => ?_⟩, ?_⟩
    · exact (hin a ha).elim id fun hit => Or.inl (storedFor_inner h.onScreen hlands a hit)
    · rw [show (s.returned v).mem = v.mem from rfl, hmoves.screen h.df hlands, ← h.cells]
  · have hsame := hprints s.mem (Touches.refl _)
    rw [← h.cells] at hsame
    obtain ⟨hlands, -⟩ := h.lands hattr hsame
    have hquiet := quiet_of_lands h.onScreen hattr hlands
    refine eachPlain_iff.2 ⟨fun c hc => ⟨?_, ?_⟩, hlands⟩
    · rintro rfl
      exact absurd (hquiet.mem _ hc) (by decide)
    · rintro rfl
      -- the backslash shows on a screen of letters
      have hletters := h.withScreen (plainScreen_touches s.mem (Terminal.cell attr 0x41))
      obtain ⟨hlands', hcells⟩ := hletters.lands hattr (hprints _ (plainScreen_touches _ _))
      have hv : ∀ b : U8, b ≠ 0x41 → Terminal.cell attr 0x41 ≠ Terminal.cell attr b :=
        fun b hb heq => hb ((BitVec.append_right_inj _).1 heq).symm
      exact print_differs (by decide) (by decide) (by decide) (hv _ (by decide))
        (hv _ (by decide)) hletters.onScreen (screenOf_plainScreen _ _)
        (quiet_of_lands hletters.onScreen hattr hlands') hc hcells

def letterImage : VgaImage where
  cursorX := 0x101010
  ra := fun _ => 0x100100

/-- About to print `A`, white on black. -/
def letterEntry : Sys where
  eax := 0
  ecx := 0
  edx := 0
  ebx := 0
  esp := 0x108000
  ebp := 0
  esi := 0x102000
  edi := 0
  eip := 0x100000
  eflags := 2
  cs := 8
  ds := 16
  es := 16
  fs := 16
  gs := 16
  mem := ByteMem.write (ByteMem.write (fun _ => 0) 0x101018 [0x0F]) 0x102000 [0x41, 0]
  ss := 16
  cr0 := 1
  cr3 := 0
  cr4 := 0
  tr := 0
  gdtr := (0, 0)
  idtr := (0, 0)
  ports := []
  stored := []

theorem letterEntry_call :
    PrintCall letterImage letterEntry ⟨screenOf letterEntry.mem, 0, 0⟩ 0x0F [0x41] where
  placed := ⟨⟨by decide, by decide⟩, by decide, by decide, by decide, by decide⟩
  df := rfl
  shade := rfl
  onScreen := ⟨by decide, by decide⟩
  cursor := ⟨rfl, rfl⟩
  cells := rfl
  string := ⟨⟨rfl, by decide⟩, rfl⟩
  apart := by
    have hout : ∀ a : U32, a = 0x102000 ∨ a = 0x102001 →
        ¬ VgaRegion letterImage letterEntry.esp 104 a := by
      intro a ha
      rw [VgaRegion, InAdapter, InCursor, Below, Within, Within, Within]
      obtain rfl | rfl := ha <;> decide
    exact ⟨hout _ (Or.inl rfl), hout _ (Or.inr rfl), trivial⟩

/-- About to print `@B` from the 33rd column on, black on black and blinking. -/
def luckyEntry : Sys :=
  { letterEntry with
    mem := ByteMem.write (ByteMem.write (fun _ => 0) 0x101010 [32, 0, 0, 0, 0, 0, 0, 0, 0x80])
      0x102000 [0x40, 0x42, 0] }

theorem luckyEntry_call :
    PrintCall letterImage luckyEntry ⟨screenOf luckyEntry.mem, 32, 0⟩ 0x80 [0x40, 0x42] where
  placed := letterEntry_call.placed
  df := rfl
  shade := rfl
  onScreen := ⟨by decide, by decide⟩
  cursor := ⟨rfl, rfl⟩
  cells := rfl
  string := ⟨⟨rfl, by decide⟩, ⟨rfl, by decide⟩, rfl⟩
  apart := by
    have hout : ∀ a : U32, a = 0x102000 ∨ a = 0x102001 ∨ a = 0x102002 →
        ¬ VgaRegion letterImage luckyEntry.esp 104 a := by
      intro a ha
      rw [VgaRegion, InAdapter, InCursor, Below, Within, Within, Within]
      obtain rfl | rfl | rfl := ha <;> decide
    exact ⟨hout _ (Or.inl rfl), hout _ (Or.inr (Or.inl rfl)), hout _ (Or.inr (Or.inr rfl)),
      trivial⟩

/-- Both letters land: the cells' addresses are 0xB8040 and 0xB8042. -/
theorem vgaPrintString_faithful_lucky :
    Prints letterImage luckyEntry ⟨screenOf luckyEntry.mem, 32, 0⟩ 0x80 [0x40, 0x42] := by
  refine (vgaPrintString_faithful luckyEntry_call).1 ?_
  have hlands : ∀ (t : Terminal) (c : U8), c ≠ 0x08 → c ≠ Terminal.lineFeed → c ≠ newlineImm →
      storeAddr 0x80 c = cellAddr (80 * t.y + t.x) → LandsPlain 0x80 t c := by
    intro t c hback hlf himm haddr
    refine ⟨hlf, himm, fun i b htarget => ?_⟩
    rw [Terminal.target, if_neg hback, if_neg hlf] at htarget
    cases htarget
    exact haddr
  refine eachStep_cons.2 ⟨hlands _ _ (by decide) (by decide) (by decide) rfl,
    eachStep_cons.2 ⟨hlands _ _ (by decide) (by decide) (by decide) rfl, eachStep_nil⟩⟩

/-- The letter goes to 0xB0F41. -/
theorem vgaPrintString_letter :
    ¬ Prints letterImage letterEntry ⟨screenOf letterEntry.mem, 0, 0⟩ 0x0F [0x41] := by
  rintro ⟨s', hs', hfaithful⟩
  have h := letterEntry_call
  obtain ⟨v, hv, -, hmoves⟩ := h.spec
  obtain ⟨log, hlog, -, hhits⟩ := hmoves.logs h.df
  obtain rfl := Option.some.inj (hs'.symm.trans hv)
  obtain ⟨log', hlog', hinner⟩ := hfaithful.inside
  obtain rfl : log' = log := List.append_cancel_left (hlog'.symm.trans hlog)
  have hin := hinner (storeAddr 0x0F 0x41) (hhits _ List.mem_cons_self)
  rw [Inner, InScreen, InCursor, Within, Within] at hin
  exact absurd hin (by decide)

end

end MicroKernel.Proofs
