import MicroKernel.Proofs.VgaRoutines

/-!
# Printing one character

The ways through `vga_print_char` meet in tails that all end by `popa` and
`ret`. Each tail is described from its own entry on: how the terminal goes on,
and where the store of a cell goes, whose address `mov ah` and `mov al` have
spoilt by then.
-/

namespace MicroKernel.Proofs

open ByteMem X86 MicroKernel.Core Spec

section
variable {img : VgaImage} {u v : Sys} {x y : Nat}

/-- How `r`, a tail entered in `u` with the terminal `t`, ends. -/
def Ends (img : VgaImage) (r : Option Sys) (u : Sys) (t : Terminal)
    (F : Terminal → Terminal) (hits : List U32) (ok : Prop) : Prop :=
  ∃ v, r = some (run [cpu popad, ret] v) ∧ v.esp = u.esp ∧
    AtCursor img v.mem (F t).x (F t).y ∧
    Moves img (VgaRegion img u.esp 36) hits ok (fun cells => (F { t with cells }).cells) u v

/-- Code before a tail. -/
theorem Ends.after {r : Option Sys} {t t' : Terminal} {F G : Terminal → Terminal}
    {hits hits' : List U32} {ok ok' ok'' : Prop} {f : List U16 → List U16}
    (h : Ends img r v t' F hits' ok') (hesp : v.esp = u.esp)
    (hmoves : Moves img (VgaRegion img u.esp 36) hits ok f u v)
    (hx : (F t').x = (G t).x) (hy : (F t').y = (G t).y) (hok : ok'' → ok ∧ ok')
    (hFG : ∀ cells : List U16, cells.length = 2000 →
      (F { t' with cells := f cells }).cells = (G { t with cells }).cells) :
    Ends img r u t G (hits ++ hits') ok'' := by
  obtain ⟨w, hr, hw, hcur, hrest⟩ := h
  rw [hx, hy] at hcur
  rw [hesp] at hrest
  exact ⟨w, hr, hw.trans hesp, hcur, (hmoves.trans hrest).congr fun h => ⟨hok h, hFG⟩⟩

theorem Ends.plain {r : Option Sys} {t : Terminal} {F : Terminal → Terminal}
    {hits : List U32} {ok : Prop} (h : Ends img r v t F hits ok) (hv : Plain u v) :
    Ends img r u t F hits ok :=
  h.after hv.esp (moves_plain hv) rfl rfl (fun hok => ⟨trivial, hok⟩) fun _ _ => rfl

theorem cursor_region {sp : U32} {n : Nat} (hp : Placed img sp n) {a : U32}
    (ha : a = img.cursorX ∨ a = img.cursorY) :
    img.cursorX.toNat ≤ a.toNat ∧ a.toNat + 4 ≤ img.cursorX.toNat + 8 := by
  have := hp.cursorY_toNat
  obtain rfl | rfl := ha <;> omega

/-- A store to a variable of the cursor. -/
theorem store_moves {sp : U32} {n : Nat} (hp : Placed img sp n) {a : U32} (val : U32)
    (ha : a = img.cursorX ∨ a = img.cursorY) :
    Moves img (VgaRegion img sp n) [] True id u (u.store a (bytes32 val)) := by
  obtain ⟨hlow, hhigh⟩ := cursor_region hp ha
  have htop := hp.vars_top
  have hvars := hp.vars
  have htouch : Touches (InCursor img) u.mem (u.store a (bytes32 val)).mem := by
    refine (touches_write (by rw [bytes32_length]; omega)).mono fun x hx => ?_
    rw [Within, bytes32_length] at hx
    rw [InCursor, Within]
    omega
  have hlogs : Logs img [] u (u.store a (bytes32 val)) := by
    refine Logs.inner _ rfl fun x hx => Or.inr ?_
    obtain ⟨i, hi, rfl⟩ := List.mem_map.1 hx
    rw [List.mem_range, bytes32_length] at hi
    rw [InCursor, Within, offset_toNat hi (by omega)]
    omega
  have hquiet : Moves img (InCursor img) [] True id u (u.store a (bytes32 val)) := by
    refine Moves.quiet rfl hlogs htouch fun x hx hin => ?_
    rw [InScreen, Within] at hx
    rw [InCursor, Within] at hin
    omega
  exact hquiet.mono fun _ h => Or.inr (Or.inl h)

/-- The call of `vga_update_hw_cursor` that a routine ends with. -/
theorem updateCall_ends {t : Terminal} (ra : U32) (hp : Placed img u.esp 36)
    (hcur : AtCursor img u.mem t.x t.y) :
    Ends img ((callTo ra (vgaUpdateHwCursor img) u).map (run [cpu popad, ret])) u t id []
      True := by
  obtain ⟨hentry, -⟩ := Placed.sub (n := 32) hp (Nat.le_refl 4)
  obtain ⟨w, hw, hdf, hstored, htouch⟩ :=
    updateHwCursor_spec img (s := cpu (pushVal ra) u) hentry.toRoom
  have hquiet : Moves img (Below u.esp 36) [] True id _ w :=
    (moves_below hentry hdf hstored htouch).mono fun _ =>
      below_sub hp.toRoom (Nat.le_refl 4) (Nat.le_refl 36)
  obtain ⟨v, hcall, hregs, -, hmoves⟩ :=
    callTo_moves hp (by decide) (fun _ => below_mono (by decide)) hw hquiet
  have hesp : v.esp = u.esp := Sys.esp_of_withRegs hregs
  have hkept : AtCursor img v.mem t.x t.y := hcur.below hp hmoves.touches
  refine ⟨v, by rw [hcall]; rfl, hesp, hkept, ?_⟩
  exact hmoves.mono fun _ h => Or.inr (Or.inr h)

/-- `.update_cursor_and_exit` -/
theorem updateCursorAndExit_ends {t : Terminal} (hp : Placed img u.esp 36)
    (hcur : AtCursor img u.mem t.x t.y) :
    Ends img (updateCursorAndExit img u) u t id [] True :=
  updateCall_ends (img.ra .printCharUpdate) hp hcur

/-- The call of `vga_scroll_screen`. -/
theorem scrollCall_moves (hp : Placed img u.esp 36) (hcur : AtCursor img u.mem x y) :
    ∃ v, callTo (img.ra .printCharScroll) (vgaScrollScreen img) u = some v ∧
      v.esp = u.esp ∧ AtCursor img v.mem x y ∧
      Moves img (VgaRegion img u.esp 36) [] True
        (Terminal.scrolled (u.mem img.textAttribute)) u v := by
  have hvars := hp.vars
  have hpart := hp.apart
  obtain ⟨hentry, -⟩ := Placed.sub (n := 32) hp (Nat.le_refl 4)
  obtain ⟨z, hz, hscroll⟩ :=
    scrollScreen_spec (s := cpu (pushVal (img.ra .printCharScroll)) u) hentry
  have hpush : Touches (VgaRegion img u.esp 36) u.mem
      (cpu (pushVal (img.ra .printCharScroll)) u).mem :=
    (touches_push _ hp.toRoom (by decide)).mono fun _ h => Or.inr (Or.inr h)
  rw [hp.attr_touches hpush] at hscroll
  have hregion : ∀ a, ScrollRegion (u.esp - 4) a → InAdapter a ∨ Below u.esp 36 a :=
    fun a => Or.imp_right (below_sub hp.toRoom (Nat.le_refl 4) (Nat.le_refl 36))
  obtain ⟨v, hcall, hregs, -, hmoves⟩ := callTo_moves hp (by decide)
    (fun _ h => Or.inr (below_mono (by decide) h)) hz (hscroll.mono hregion)
  have hkept : AtCursor img v.mem x y := by
    refine hcur.touches hp hmoves.touches fun a ha hb => ?_
    rw [InCursor, Within] at ha
    rw [InAdapter, Below, Within, Within] at hb
    omega
  exact ⟨v, hcall, Sys.esp_of_withRegs hregs, hkept,
    hmoves.mono fun _ h => h.imp_right Or.inr⟩

/-- A variable compared with a constant. -/
theorem less_load {a b : U32} {k : Nat} (h : u.mem.read32 a = BitVec.ofNat 32 k)
    (hk : k < 2 ^ 31) (hb : b.toNat < 2 ^ 31) :
    (run [load .edx a, cmpImm .edx b] u).less = decide (k < b.toNat) := by
  have hedx : (run [load .edx a, cmpImm .edx b] u).less =
      (flag (cmpFlags u.eflags (u.mem.read32 a) b) 7 !=
        flag (cmpFlags u.eflags (u.mem.read32 a) b) 11) := rfl
  have hval : (BitVec.ofNat 32 k).toNat = k := by
    rw [BitVec.toNat_ofNat, Nat.mod_eq_of_lt (by omega)]
  rw [hedx, h, less_cmpFlags _ _ _ (by omega) hb, hval]

theorem zf_load {a : U32} {k : Nat} (h : u.mem.read32 a = BitVec.ofNat 32 k) (hk : k < 2 ^ 32) :
    (run [load .edx a, cmpImm .edx 0] u).zf = decide (k = 0) := by
  have hedx : (run [load .edx a, cmpImm .edx 0] u).zf =
      flag (cmpFlags u.eflags (u.mem.read32 a) 0) 6 := rfl
  rw [hedx, h, zf_cmpFlags, decide_eq_decide]
  exact ofNat_eq_zero_iff hk

/-- `.check_scroll`, where `t` has a row that may be one too many. -/
theorem checkScroll_ends {t : Terminal} (hp : Placed img u.esp 36)
    (hcur : AtCursor img u.mem t.x t.y) (hy : t.y ≤ 25) :
    Ends img (checkScroll img u) u t
      (fun t => if t.y < 25 then t
        else ⟨Terminal.scrolled (u.mem img.textAttribute) t.cells, t.x, 24⟩) [] True := by
  let w := run [load .edx img.cursorY, cmpImm .edx vgaHeight] u
  have hw : Plain u w := run_plain (by simp) u
  have hless : w.less = decide (t.y < 25) := less_load hcur.y (by omega) (by decide)
  have hkept : AtCursor img w.mem t.x t.y := by rw [hw.mem]; exact hcur
  have hpw : Placed img w.esp 36 := by rw [hw.esp]; exact hp
  show Ends img (if w.less then updateCursorAndExit img w else _) u t _ [] True
  rw [hless]
  by_cases hrow : t.y < 25
  · rw [decide_eq_true hrow, if_pos rfl]
    refine (updateCursorAndExit_ends hpw hkept).after hw.esp (moves_plain hw) ?_ ?_
      (fun _ => ⟨trivial, trivial⟩)
      fun cells _ => ?_ <;> simp only [if_pos hrow, id]
  · rw [decide_eq_false hrow, if_neg Bool.false_ne_true]
    obtain ⟨v, hcall, hesp, hkept', hscroll⟩ := scrollCall_moves hpw hkept
    rw [hw.esp, hw.mem] at hscroll
    have hpv : Placed img v.esp 36 := by rw [hesp]; exact hpw
    have hpoke := store_moves (u := v) hp (vgaHeight - 1) (Or.inr rfl)
    have hlast : AtCursor img (ByteMem.write v.mem img.cursorY (bytes32 (BitVec.ofNat 32 24)))
        t.x 24 := atCursor_writeY hkept' hp
    have htail := updateCursorAndExit_ends (u := poke32 img.cursorY (vgaHeight - 1) v)
      (t := ⟨[], t.x, 24⟩) hpv hlast
    rw [hcall, Option.bind_some]
    refine htail.after (hesp.trans hw.esp) (((moves_plain hw).trans hscroll).trans hpoke) ?_ ?_
      (fun _ => ⟨⟨⟨trivial, trivial⟩, trivial⟩, trivial⟩) fun cells _ => ?_ <;>
    simp only [if_neg hrow, id, Function.comp]

/-- `inc` and `dec` of a variable of the cursor. -/
theorem countMem_moves {sp f val a : U32} {n : Nat} (hp : Placed img sp n)
    (hf : flag f 10 = flag u.eflags 10) (ha : a = img.cursorX ∨ a = img.cursorY) :
    Moves img (VgaRegion img sp n) [] True id u ((u.setFlags f).store a (bytes32 val)) :=
  ((moves_plain (plain_flags hf)).trans (store_moves hp val ha)).congr fun _ =>
    ⟨⟨trivial, trivial⟩, fun _ _ => rfl⟩

theorem newLine_atCursor {sp : U32} {n : Nat} (h : AtCursor img u.mem x y)
    (hp : Placed img sp n) :
    AtCursor img (incMem img.cursorY (poke32 img.cursorX 0 u)).mem 0 (y + 1) := by
  have hstart : AtCursor img (poke32 img.cursorX 0 u).mem 0 y := atCursor_writeX h hp
  have hnext : (poke32 img.cursorX 0 u).mem.read32 img.cursorY + 1 = BitVec.ofNat 32 (y + 1) := by
    rw [hstart.y, BitVec.ofNat_add]
    rfl
  show AtCursor img (ByteMem.write _ img.cursorY (bytes32 _)) 0 (y + 1)
  rw [hnext]
  exact atCursor_writeY hstart hp

theorem advance_atCursor {sp : U32} {n : Nat} (h : AtCursor img u.mem x y)
    (hp : Placed img sp n) : AtCursor img (incMem img.cursorX u).mem (x + 1) y := by
  have hnext : u.mem.read32 img.cursorX + 1 = BitVec.ofNat 32 (x + 1) := by
    rw [h.x, BitVec.ofNat_add]
    rfl
  show AtCursor img (ByteMem.write _ img.cursorX (bytes32 _)) (x + 1) y
  rw [hnext]
  exact atCursor_writeX h hp

theorem back_atCursor {sp : U32} {n : Nat} (h : AtCursor img u.mem x y) (hp : Placed img sp n)
    (hx : x < 80) (hcol : x ≠ 0) : AtCursor img (decMem img.cursorX u).mem (x - 1) y := by
  have hdec : u.mem.read32 img.cursorX - 1 = BitVec.ofNat 32 (x - 1) := by
    rw [h.x, ← BitVec.ofNat_sub_ofNat_of_le _ _ (by omega) (by omega)]
    rfl
  show AtCursor img (ByteMem.write _ img.cursorX (bytes32 _)) (x - 1) y
  rw [hdec]
  exact atCursor_writeX h hp

/-- `.handle_newline` -/
theorem handleNewline_ends {t : Terminal} (hp : Placed img u.esp 36)
    (hcur : AtCursor img u.mem t.x t.y) (hy : t.y < 25) :
    Ends img (handleNewline img u) u t (Terminal.newLine (u.mem img.textAttribute)) [] True := by
  have hrow := newLine_atCursor hcur hp
  have hmoves : Moves img (VgaRegion img u.esp 36) [] True id u
      (incMem img.cursorY (poke32 img.cursorX 0 u)) :=
    ((store_moves hp 0 (Or.inl rfl)).trans
      (countMem_moves hp (df_incFlags ..) (Or.inr rfl))).congr fun _ =>
        ⟨⟨trivial, trivial⟩, fun _ _ => rfl⟩
  have htail := checkScroll_ends (u := incMem img.cursorY (poke32 img.cursorX 0 u))
    (t := ⟨[], 0, t.y + 1⟩) hp hrow hy
  rw [hp.attr_touches hmoves.touches] at htail
  refine htail.after (u := u) rfl hmoves ?_ ?_ (fun _ => ⟨trivial, trivial⟩) fun cells _ => ?_ <;>
    rw [Terminal.newLine] <;> split <;> rfl

theorem cursor_adapter {sp a : U32} {n : Nat} (hp : Placed img sp n) (ha : InCursor img a) :
    ¬ InAdapter a := by
  have := hp.vars
  rw [InCursor, Within] at ha
  rw [InAdapter, Within]
  omega

/-! ## The store of a cell -/

theorem storeAddr_toNat (attr c : U8) :
    (storeAddr attr c).toNat = 0xB0000 + 256 * attr.toNat + c.toNat := by
  have := attr.isLt
  have := c.isLt
  rw [storeAddr, BitVec.toNat_add, BitVec.toNat_ofNat]
  show (0xB0000 + _ % 2 ^ 32) % 2 ^ 32 = _
  omega

/-- The upper half of every cell's address is the same. -/
theorem setAl_setAh_cellAddr {i : Nat} (hi : i < 2000) (attr c : U8) :
    setAl (setAh (cellAddr i) attr) c = storeAddr attr c := by
  have haddr := cellAddr_toNat hi
  have := attr.isLt
  have := c.isLt
  have hhigh : ((cellAddr i).extractLsb' 16 16).toNat = 0xB := by
    rw [BitVec.extractLsb'_toNat, haddr, Nat.shiftRight_eq_div_pow]
    omega
  apply BitVec.eq_of_toNat_eq
  rw [setAl_setAh, append_toNat, append_toNat, hhigh, storeAddr_toNat]
  omega

/-- What the address is computed from, and that CL is left alone. -/
theorem cellAddress_regs (img : VgaImage) (u : Sys) :
    (run (cellAddress img) u).eax =
        ((vgaWidth.setWidth 64 * (u.mem.read32 img.cursorY).setWidth 64 : U64).setWidth 32 +
          u.mem.read32 img.cursorX) <<< 1 + vgaMemoryAddress ∧
      (run (cellAddress img) u).ecx = u.ecx := by
  have hload (s : Sys) : (load .edi img.cursorY s).edi = s.mem.read32 img.cursorY ∧
      (load .edi img.cursorY s).mem = s.mem ∧ (load .edi img.cursorY s).ecx = s.ecx := by
    obtain ⟨⟨⟩⟩ := s
    exact ⟨rfl, rfl, rfl⟩
  have himm (s : Sys) : (cpu (movImm .eax vgaWidth) s).eax = vgaWidth ∧
      (cpu (movImm .eax vgaWidth) s).edi = s.edi ∧
      (cpu (movImm .eax vgaWidth) s).mem = s.mem ∧
      (cpu (movImm .eax vgaWidth) s).ecx = s.ecx := by
    obtain ⟨⟨⟩⟩ := s
    exact ⟨rfl, rfl, rfl, rfl⟩
  have hmul (s : Sys) : (mul .edi s).eax =
      (s.eax.setWidth 64 * s.edi.setWidth 64 : U64).setWidth 32 ∧
      (mul .edi s).mem = s.mem ∧ (mul .edi s).ecx = s.ecx := by
    obtain ⟨⟨⟩⟩ := s
    exact ⟨rfl, rfl, rfl⟩
  have haddMem (s : Sys) : (addMem .eax img.cursorX s).eax =
      s.eax + s.mem.read32 img.cursorX ∧ (addMem .eax img.cursorX s).ecx = s.ecx := by
    obtain ⟨⟨⟩⟩ := s
    exact ⟨rfl, rfl⟩
  have hshl (s : Sys) : (shl1 .eax s).eax = s.eax <<< 1 ∧ (shl1 .eax s).ecx = s.ecx := by
    obtain ⟨⟨⟩⟩ := s
    exact ⟨rfl, rfl⟩
  have hadd (s : Sys) : (cpu (add .eax vgaMemoryAddress) s).eax = s.eax + vgaMemoryAddress ∧
      (cpu (add .eax vgaMemoryAddress) s).ecx = s.ecx := by
    obtain ⟨⟨⟩⟩ := s
    exact ⟨rfl, rfl⟩
  simp only [cellAddress, run_cons, run_nil, hload, himm, hmul, haddMem, hshl, hadd, and_self]

theorem cellAddress_eax (hcur : AtCursor img u.mem x y) :
    (run (cellAddress img) u).eax = cellAddr (80 * y + x) := by
  have hrow : (vgaWidth.setWidth 64 * (BitVec.ofNat 32 y).setWidth 64 : U64).setWidth 32 =
      BitVec.ofNat 32 (80 * y) := by
    rw [BitVec.setWidth_mul _ _ (by decide), BitVec.setWidth_setWidth_of_le _ (by decide),
      BitVec.setWidth_setWidth_of_le _ (by decide), BitVec.setWidth_eq, BitVec.setWidth_eq,
      BitVec.ofNat_mul]
    rfl
  rw [(cellAddress_regs img u).1, hcur.x, hcur.y, hrow, ← BitVec.ofNat_add,
    BitVec.shiftLeft_eq_mul_twoPow, cellAddr, BitVec.add_comm, Nat.mul_comm 2, BitVec.ofNat_mul]
  rfl

theorem storeCell_moves (img : VgaImage) {w : Sys} {i : Nat} {attr c : U8} (hw : Plain u w)
    (heax : w.eax = storeAddr attr c) (hi : i < 2000) :
    Moves img InAdapter [storeAddr attr c, storeAddr attr c + 1]
      (storeAddr attr c = cellAddr i) (fun cells => cells.set i (Terminal.cell attr c)) u
      (storeAx .eax w) := by
  have hword : (storeAddr attr c).setWidth 16 = Terminal.cell attr c := by
    have := attr.isLt
    have := c.isLt
    apply BitVec.eq_of_toNat_eq
    rw [BitVec.toNat_setWidth, storeAddr_toNat, Terminal.cell, append_toNat]
    omega
  have haddr := storeAddr_toNat attr c
  have hattr := attr.isLt
  have hc := c.isLt
  have hmem : (storeAx .eax w).mem =
      ByteMem.write u.mem (storeAddr attr c) (bytes16 (Terminal.cell attr c)) := by
    show ByteMem.write w.mem w.eax (bytes16 (w.eax.setWidth 16)) = _
    rw [hw.mem, heax, hword]
  have hstored : (storeAx .eax w).stored =
      u.stored ++ [storeAddr attr c, storeAddr attr c + 1] := by
    show w.stored ++ [w.eax + 0#32, w.eax + 1] = _
    rw [hw.stored, heax, BitVec.add_zero]
  refine ⟨hw.df, ?_, fun _ => ⟨_, hstored, fun a ha => Or.inr ha, fun a ha => ha⟩,
    fun _ hok => ?_⟩
  · rw [hmem]
    refine (touches_write (by rw [bytes16_length]; omega)).mono fun a ha => ?_
    rw [Within, bytes16_length] at ha
    exact ⟨by omega, by omega⟩
  · rw [hmem, hok, screenOf_write hi]

/-! ## The three kinds of characters -/

theorem movAlLow_eax {c : U8} (hc : lowByte u.ecx = c) (w : Sys) (hw : w.ecx = u.ecx) :
    (movAlLow .ecx w).eax = setAl w.eax c := by
  show setAl w.eax (lowByte w.ecx) = _
  rw [hw, hc]

section
variable {attr c : U8} {al : Insn} (hcur : AtCursor img u.mem x y)
  (hattr : u.mem img.textAttribute = attr) (hi : 80 * y + x < 2000) (hplain : PlainInsn al)
  (hal : ∀ w : Sys, w.ecx = u.ecx → (al w).eax = setAl w.eax c)
include hcur hattr hi hplain hal

/-- What the store of a cell does, AL being set by `al`. -/
theorem cellAddress_storeAx :
    ∃ w, run (cellAddress img ++ [loadAh img.textAttribute, al, storeAx .eax]) u =
      storeAx .eax w ∧ Plain u w ∧ w.eax = storeAddr attr c := by
  refine ⟨run (cellAddress img ++ [loadAh img.textAttribute, al]) u, ?_, ?_, ?_⟩
  · simp only [run_append, run_cons, run_nil]
  · exact run_plain (by simp [cellAddress, hplain]) u
  · have hmem : (run (cellAddress img) u).mem = u.mem :=
      (run_plain (by simp [cellAddress]) u : Plain u _).mem
    have hah (s : Sys) : (loadAh img.textAttribute s).eax =
        setAh s.eax (s.mem img.textAttribute) ∧ (loadAh img.textAttribute s).ecx = s.ecx := by
      obtain ⟨⟨⟩⟩ := s
      exact ⟨rfl, rfl⟩
    have hecx := (hah _).2.trans (cellAddress_regs img u).2
    rw [run_append, run_cons, run_cons, run_nil, hal _ hecx, (hah _).1, cellAddress_eax hcur,
      hmem, hattr, setAl_setAh_cellAddr hi]

theorem cellAddress_store :
    let v := run (cellAddress img ++ [loadAh img.textAttribute, al, storeAx .eax]) u
    v.esp = u.esp ∧ Moves img InAdapter [storeAddr attr c, storeAddr attr c + 1]
      (storeAddr attr c = cellAddr (80 * y + x))
      (fun cells => cells.set (80 * y + x) (Terminal.cell attr c)) u v := by
  obtain ⟨w, hcode, hw, heax⟩ := cellAddress_storeAx hcur hattr hi hplain hal
  rw [hcode]
  exact ⟨hw.esp, storeCell_moves img hw heax hi⟩

end

/-- `.handle_backspace` -/
theorem handleBackspace_ends {t : Terminal} (hp : Placed img u.esp 36) (ht : t.OnScreen)
    (hcur : AtCursor img u.mem t.x t.y) :
    Ends img (handleBackspace img u) u t
      (fun t => Terminal.put newlineImm (u.mem img.textAttribute) t 0x08)
      (storedAt newlineImm (u.mem img.textAttribute) t 0x08)
      (Lands newlineImm (u.mem img.textAttribute) t 0x08) := by
  let w := run [load .edx img.cursorX, cmpImm .edx 0] u
  have hw : Plain u w := run_plain (by simp) u
  have hx := ht.x_lt
  have hy := ht.y_lt
  have hzf : w.zf = decide (t.x = 0) := zf_load hcur.x (by omega)
  have hkept : AtCursor img w.mem t.x t.y := by rw [hw.mem]; exact hcur
  have hpw : Placed img w.esp 36 := by rw [hw.esp]; exact hp
  show Ends img (if w.zf then updateCursorAndExit img w else _) u t _ _ _
  rw [hzf]
  by_cases hcol : t.x = 0
  · have hnone : t.target newlineImm 0x08 = none := by
      rw [Terminal.target, if_pos rfl, if_pos hcol]
    rw [decide_eq_true hcol, if_pos rfl, storedAt, hnone]
    refine (updateCursorAndExit_ends hpw hkept).after hw.esp (moves_plain hw) ?_ ?_
      (fun _ => ⟨trivial, trivial⟩) fun cells _ => ?_
    · show t.x = t.x - 1
      rw [hcol]
    · rfl
    · exact (Terminal.shown_none hnone cells).symm
  · have hsome : t.target newlineImm 0x08 = some (80 * t.y + t.x - 1, 0x20) := by
      rw [Terminal.target, if_pos rfl, if_neg hcol]
    have hcell : 80 * t.y + (t.x - 1) = 80 * t.y + t.x - 1 := by omega
    have hback := back_atCursor hkept hp hx hcol
    have hcount : Moves img (VgaRegion img u.esp 36) [] True id w (decMem img.cursorX w) :=
      countMem_moves hp (df_decFlags ..) (Or.inl rfl)
    have hattr : (decMem img.cursorX w).mem img.textAttribute = u.mem img.textAttribute := by
      rw [hp.attr_touches hcount.touches, hw.mem]
    rw [decide_eq_false hcol, if_neg Bool.false_ne_true, storedAt, hsome]
    obtain ⟨hesp, hstore⟩ := cellAddress_store hback hattr (by omega) (plain_movAl 0x20)
      fun _ _ => rfl
    rw [hcell] at hstore
    have hcur' := hback.touches hp hstore.touches fun _ => cursor_adapter hp
    have hesp' := hesp.trans hw.esp
    rw [List.cons_append, run_cons]
    generalize run _ (decMem img.cursorX w) = z at *
    refine (updateCursorAndExit_ends (t := ⟨[], t.x - 1, t.y⟩) (hesp' ▸ hp) hcur').after hesp'
      (((moves_plain hw).trans hcount).trans (hstore.mono fun _ => Or.inl)) rfl rfl
      (fun hlands => ⟨⟨⟨trivial, trivial⟩, hlands _ _ hsome⟩, trivial⟩) fun cells _ => ?_
    exact (Terminal.shown_some hsome cells).symm

/-- The end of `.print`. -/
theorem advance_ends {t : Terminal} (hp : Placed img u.esp 36) (ht : t.OnScreen)
    (hcur : AtCursor img u.mem t.x t.y) :
    let s := run [incMem img.cursorX, load .edx img.cursorX, cmpImm .edx vgaWidth] u
    Ends img (if s.less then updateCursorAndExit img s else handleNewline img s) u t
      (fun t => if t.x + 1 < 80 then { t with x := t.x + 1 }
        else Terminal.newLine (u.mem img.textAttribute) t) [] True := by
  have hx := ht.x_lt
  have hnext := advance_atCursor hcur hp
  have hcount : Moves img (VgaRegion img u.esp 36) [] True id u (incMem img.cursorX u) :=
    countMem_moves hp (df_incFlags ..) (Or.inl rfl)
  have hattr := hp.attr_touches hcount.touches
  have hpv : Placed img (incMem img.cursorX u).esp 36 := hp
  have hesp : (incMem img.cursorX u).esp = u.esp := rfl
  rw [run_cons]
  generalize incMem img.cursorX u = v at *
  have hw : Plain v (run [load .edx img.cursorX, cmpImm .edx vgaWidth] v) :=
    run_plain (by simp) v
  have hless := less_load hnext.x (by omega) (show vgaWidth.toNat < 2 ^ 31 by decide)
  generalize run _ v = w at *
  have hkept : AtCursor img w.mem (t.x + 1) t.y := by rw [hw.mem]; exact hnext
  have hall := hcount.trans (moves_plain hw)
  have hpw : Placed img w.esp 36 := by rw [hw.esp]; exact hpv
  have hwidth : vgaWidth.toNat = 80 := rfl
  show Ends img (if w.less then _ else _) u t _ _ _
  rw [hless, hwidth]
  by_cases hcol : t.x + 1 < 80
  · rw [decide_eq_true hcol, if_pos rfl]
    refine (updateCursorAndExit_ends (t := ⟨[], t.x + 1, t.y⟩) hpw hkept).after
      (hw.esp.trans hesp) hall ?_ ?_ (fun _ => ⟨⟨trivial, trivial⟩, trivial⟩)
      fun cells _ => ?_ <;> simp only [if_pos hcol, id, Function.comp]
  · rw [decide_eq_false hcol, if_neg Bool.false_ne_true]
    have htail := handleNewline_ends (t := ⟨[], t.x + 1, t.y⟩) hpw hkept ht.y_lt
    rw [hw.mem, hattr] at htail
    refine htail.after (hw.esp.trans hesp) hall ?_ ?_ (fun _ => ⟨⟨trivial, trivial⟩, trivial⟩)
      fun cells _ => ?_ <;>
    · simp only [if_neg hcol, Terminal.newLine]
      split <;> rfl

/-- `.print` -/
theorem printCell_ends {t : Terminal} {c : U8} (hp : Placed img u.esp 36) (ht : t.OnScreen)
    (hcur : AtCursor img u.mem t.x t.y) (hc : lowByte u.ecx = c) (hback : c ≠ 0x08)
    (hline : c ≠ newlineImm) :
    Ends img (printCell img u) u t (fun t => Terminal.put newlineImm (u.mem img.textAttribute) t c)
      (storedAt newlineImm (u.mem img.textAttribute) t c)
      (Lands newlineImm (u.mem img.textAttribute) t c) := by
  have hx := ht.x_lt
  have hy := ht.y_lt
  have hsome : t.target newlineImm c = some (80 * t.y + t.x, c) := by
    rw [Terminal.target, if_neg hback, if_neg hline]
  have hput : ∀ t : Terminal, Terminal.put newlineImm (u.mem img.textAttribute) t c =
      (if t.x + 1 < 80 then
          { t with cells := t.shown newlineImm (u.mem img.textAttribute) c, x := t.x + 1 }
        else Terminal.newLine (u.mem img.textAttribute)
          { t with cells := t.shown newlineImm (u.mem img.textAttribute) c }) := by
    intro t
    rw [Terminal.put, if_neg hback, if_neg hline]
  obtain ⟨hesp, hstore⟩ :=
    cellAddress_store hcur rfl (by omega) plain_movAlLow (movAlLow_eax hc)
  have hkept := hcur.touches hp hstore.touches fun _ => cursor_adapter hp
  have hwide := hstore.mono (S := VgaRegion img u.esp 36) fun _ => Or.inl
  have hattr := hp.attr_touches hwide.touches
  have hcode : printCell img u = (fun v =>
      let s := run [incMem img.cursorX, load .edx img.cursorX, cmpImm .edx vgaWidth] v
      if s.less then updateCursorAndExit img s else handleNewline img s)
      (run (cellAddress img ++ [loadAh img.textAttribute, movAlLow .ecx, storeAx .eax]) u) := by
    simp only [printCell, run_append, run_cons, run_nil]
  rw [hcode]
  generalize run _ u = v at *
  have htail := advance_ends (hesp ▸ hp) ht hkept
  rw [hattr] at htail
  rw [storedAt, hsome]
  refine htail.after hesp hwide ?_ ?_ (fun h => ⟨h _ _ hsome, trivial⟩) fun cells _ => ?_
  · rw [hput]
    split
    · rfl
    · rw [Terminal.newLine_x, Terminal.newLine_x]
  · rw [hput]
    split
    · rfl
    · rw [Terminal.newLine_y, Terminal.newLine_y]
  · rw [hput, Terminal.shown_some hsome]

/-- The three ways of `vga_print_char`, once the character is in CL. -/
theorem charBody_ends {t : Terminal} {c : U8} (hp : Placed img u.esp 36) (ht : t.OnScreen)
    (hcur : AtCursor img u.mem t.x t.y) (hc : lowByte u.ecx = c) :
    Ends img (if (cmpLow .ecx 0x08 u).zf then handleBackspace img (cmpLow .ecx 0x08 u)
      else if (cmpLow .ecx newlineImm (cmpLow .ecx 0x08 u)).zf
        then handleNewline img (cmpLow .ecx newlineImm (cmpLow .ecx 0x08 u))
        else printCell img (cmpLow .ecx newlineImm (cmpLow .ecx 0x08 u))) u t
      (fun t => Terminal.put newlineImm (u.mem img.textAttribute) t c)
      (storedAt newlineImm (u.mem img.textAttribute) t c)
      (Lands newlineImm (u.mem img.textAttribute) t c) := by
  have hv : Plain u (cmpLow .ecx 0x08 u) := plain_cmpLow 0x08 u
  have hzf : (cmpLow .ecx 0x08 u).zf = decide (c = 0x08) := hc ▸ zf_cmpFlags ..
  have hcv : lowByte (cmpLow .ecx 0x08 u).ecx = c := hc
  generalize cmpLow .ecx 0x08 u = v at *
  have hw : Plain v (cmpLow .ecx newlineImm v) := plain_cmpLow newlineImm v
  have hzf' : (cmpLow .ecx newlineImm v).zf = decide (c = newlineImm) := hcv ▸ zf_cmpFlags ..
  have hcw : lowByte (cmpLow .ecx newlineImm v).ecx = c := hcv
  generalize cmpLow .ecx newlineImm v = w at *
  have huw := hv.trans hw
  rw [hzf, hzf']
  split
  · next hback =>
      obtain rfl := of_decide_eq_true hback
      have htail := handleBackspace_ends (t := t) (hv.esp ▸ hp) ht (hv.mem ▸ hcur)
      rw [hv.mem] at htail
      exact htail.plain hv
  · next hback =>
      split
      · next hline =>
          obtain rfl := of_decide_eq_true hline
          have htail := handleNewline_ends (t := t) (huw.esp ▸ hp) (huw.mem ▸ hcur) ht.y_lt
          rw [huw.mem] at htail
          exact htail.after huw.esp (moves_plain huw) rfl rfl (fun _ => ⟨trivial, trivial⟩)
            fun _ _ => rfl
      · next hline =>
          have htail := printCell_ends (t := t) (huw.esp ▸ hp) ht (huw.mem ▸ hcur) hcw
            (fun h => hback (decide_eq_true h)) fun h => hline (decide_eq_true h)
          rw [huw.mem] at htail
          exact htail.plain huw

/-! ## Routines that save their registers -/

theorem pushad_moves {s : Sys} {n : Nat} (hp : Placed img s.esp (n + 32)) :
    Placed img (cpu pushad s).esp n ∧
      Moves img (Below s.esp (n + 32)) [] True id s (cpu pushad s) := by
  have hdown : (cpu pushad s).esp = s.esp - BitVec.ofNat 32 32 := pushad_esp s.toCpu
  have hsaved := touches_pushad (hp.toRoom.mono (Nat.le_add_left 32 n))
  refine ⟨hdown ▸ (hp.sub (by decide)).1, moves_below hp rfl rfl ?_⟩
  exact hsaved.mono fun _ => below_mono (Nat.le_add_left 32 n)

theorem region_pushad {s : Sys} {n : Nat} (hp : Placed img s.esp (n + 32)) {a : U32}
    (ha : VgaRegion img (cpu pushad s).esp n a) : VgaRegion img s.esp (n + 32) a := by
  have hdown : (cpu pushad s).esp = s.esp - BitVec.ofNat 32 32 := pushad_esp s.toCpu
  rw [hdown] at ha
  exact ha.imp_right (Or.imp_right (below_sub hp.toRoom (by decide) (Nat.le_refl _)))

/-- Such a routine ends in the caller's registers, and does what its body does. -/
theorem popad_moves {s : Sys} {n : Nat} {hits : List U32} {ok : Prop}
    {f : List U16 → List U16} (hp : Placed img s.esp (n + 32)) (hesp : v.esp = (cpu pushad s).esp)
    (hmoves : Moves img (VgaRegion img (cpu pushad s).esp n) hits ok f (cpu pushad s) v) :
    run [cpu popad, ret] v = s.returned v ∧
      Moves img (VgaRegion img s.esp (n + 32)) hits ok f s v := by
  have hdown : (cpu pushad s).esp = s.esp - BitVec.ofNat 32 32 := pushad_esp s.toCpu
  obtain ⟨-, hsp⟩ := Placed.sub hp (by decide)
  refine ⟨?_, ?_⟩
  · refine popad_ret (hp.toRoom.mono (Nat.le_add_left 32 n)) hesp hmoves.touches
      fun x hx hreg => ?_
    have := hp.adapter
    have := hp.apart
    rw [hdown, VgaRegion, InAdapter, InCursor, Below, Within, Within, Within, hsp] at hreg
    rw [Within] at hx
    omega
  · have hentry := (pushad_moves hp).2.mono (S := VgaRegion img s.esp (n + 32)) fun _ h =>
      Or.inr (Or.inr h)
    exact (hentry.trans (hmoves.mono fun _ => region_pushad hp)).congr fun hok =>
      ⟨⟨trivial, hok⟩, fun _ _ => rfl⟩

theorem vgaPrintChar_spec {s : Sys} {t : Terminal} {c : U8} (hp : Placed img s.esp 68)
    (ht : t.OnScreen) (hcur : AtCursor img s.mem t.x t.y) (hc : lowByte s.eax = c) :
    ∃ v, vgaPrintChar img s = some (s.returned v) ∧
      AtCursor img v.mem (Terminal.put newlineImm (s.mem img.textAttribute) t c).x
        (Terminal.put newlineImm (s.mem img.textAttribute) t c).y ∧
      Moves img (VgaRegion img s.esp 68) (storedAt newlineImm (s.mem img.textAttribute) t c)
        (Lands newlineImm (s.mem img.textAttribute) t c)
        (fun cells => (Terminal.put newlineImm (s.mem img.textAttribute) { t with cells } c).cells)
        s v := by
  obtain ⟨hbody, hentry⟩ := pushad_moves (n := 36) hp
  have hattr := hp.attr_touches (hentry.touches.mono fun _ h => Or.inr (Or.inr h))
  have hkept := hcur.below hp hentry.touches
  have hv : Plain (cpu pushad s) (movzxAl .ecx (cpu pushad s)) := plain_movzxAl (by decide) _
  have hlow : lowByte (movzxAl .ecx (cpu pushad s)).ecx = c := by
    show (BitVec.setWidth 32 (lowByte s.eax)).setWidth 8 = c
    rw [hc, BitVec.setWidth_setWidth_of_le _ (by decide), BitVec.setWidth_eq]
  have htail := (charBody_ends (hv.esp ▸ hbody) ht (hv.mem ▸ hkept) hlow).plain hv
  rw [hv.mem, hattr] at htail
  obtain ⟨v, hr, hesp, hend, hmoves⟩ := htail
  obtain ⟨hback, hall⟩ := popad_moves (n := 36) hp hesp hmoves
  exact ⟨v, hr.trans (congrArg some hback), hend, hall⟩

end

end MicroKernel.Proofs
