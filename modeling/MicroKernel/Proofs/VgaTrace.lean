import MicroKernel.Proofs.VgaString
import MicroKernel.Spec.Cursor

/-!
# What the VGA routines store, in order

The record of the stores is that of the acts of a terminal, each act being the
stores of one stretch of code. It does not depend on what is on the screen, nor
on which way DF points but for the order of the addresses in an act. Where the
routines end is another matter: here each of the ways through them is followed
for the record alone.
-/

namespace MicroKernel.Proofs

open ByteMem X86 MicroKernel.Core Spec

/-- The addresses of the bytes stored for an act, the elements of a block being
`k` apart. -/
def actStores (img : VgaImage) (attr : U8) (k : U32) : Act → List U32
  | .blank => strides 2 k 2000 0xB8000
  | .cell c => [storeAddr attr c, storeAddr attr c + 1]
  | .column => (List.range 4).map fun i => img.cursorX + BitVec.ofNat 32 i
  | .row => (List.range 4).map fun i => img.cursorY + BitVec.ofNat 32 i
  | .scroll => strides 2 k 1920 0xB8000 ++ strides 2 k 80 0xB8F00

/-- What `r`, begun in `u`, adds to the record, if it ends. -/
def Records (r : Option Sys) (u : Sys) (log : List U32) : Prop :=
  ∀ v, r = some v → v.stored = u.stored ++ log

section
variable {r : Option Sys} {u v : Sys} {log log' : List U32}

theorem Records.after (h : Records r v log') (hv : v.stored = u.stored ++ log) :
    Records r u (log ++ log') := by
  intro w hw
  rw [h w hw, hv, List.append_assoc]

theorem Records.plain (h : Records r v log) (hv : Plain u v) : Records r u log := by
  intro w hw
  rw [h w hw, hv.stored]

theorem Records.bind {g : Routine} (h : Records r u log)
    (hg : ∀ v, r = some v → Records (g v) v log') : Records (r.bind g) u (log ++ log') := by
  intro w hw
  obtain ⟨v, hv, hgv⟩ := Option.bind_eq_some_iff.1 hw
  exact (hg v hv).after (h v hv) w hgv

theorem Records.popad (h : Records r u log) :
    Records (r.map (run [cpu popad, ret])) u log := by
  intro w hw
  obtain ⟨v, hv, rfl⟩ := Option.map_eq_some_iff.1 hw
  exact h v hv

theorem Records.callTo {f : Routine} {ra : U32}
    (h : Records (f (cpu (pushVal ra) u)) (cpu (pushVal ra) u) log) :
    Records (X86.callTo ra f u) u log := by
  intro w hw
  obtain ⟨v, hv, hret⟩ := Option.bind_eq_some_iff.1 hw
  split at hret
  · obtain rfl := Option.some.inj hret
    exact h v hv
  · cases hret

end

section
variable {img : VgaImage} {attr : U8} {k : U32} {u : Sys} {x y : Nat}

/-! ## The blocks -/

theorem updateHwCursor_records (img : VgaImage) (u : Sys) :
    Records (vgaUpdateHwCursor img u) u [] := by
  intro v hv
  have hbody : Plain (cpu pushad u) (run (updateHwCursorBody img) (cpu pushad u)) :=
    run_plain (by simp [updateHwCursorBody]) _
  rw [vgaUpdateHwCursor, List.cons_append, run_cons, run_append] at hv
  obtain rfl := Option.some.inj hv
  rw [List.append_nil]
  generalize run (updateHwCursorBody img) (cpu pushad u) = w at *
  exact hbody.stored

theorem scrollScreenBody_stored (img : VgaImage) (attr : U8) (u : Sys) :
    (run (scrollScreenBody img) u).stored =
      u.stored ++ actStores img attr (u.stride 2) .scroll := by
  rw [scrollScreenBody_eq, run_append]
  obtain ⟨-, hdf, -, hmove⟩ := moveUp_run (vgaMemoryAddress + vgaWidth * 2) vgaMemoryAddress
    (vgaWidth * (vgaHeight - 1)) u
  generalize run _ u = w at *
  obtain ⟨-, -, -, hblank⟩ := blank_run
    (vgaMemoryAddress + vgaWidth * (vgaHeight - 1) * 2) vgaWidth img.textAttribute w
  rw [stride_congr hdf, hmove, List.append_assoc] at hblank
  exact hblank

theorem scrollScreen_records (img : VgaImage) (attr : U8) (hk : u.stride 2 = k) :
    Records (vgaScrollScreen img u) u (actStores img attr k .scroll) := by
  intro v hv
  have hbody := scrollScreenBody_stored img attr (cpu pushad u)
  have hup : (cpu pushad u).stride 2 = k := hk
  rw [vgaScrollScreen, List.cons_append, run_cons, run_append] at hv
  obtain rfl := Option.some.inj hv
  rw [hup] at hbody
  generalize run (scrollScreenBody img) (cpu pushad u) = w at *
  exact hbody

/-! ## The ways through `vga_print_char` -/

theorem updateCursorAndExit_records (img : VgaImage) (u : Sys) :
    Records (updateCursorAndExit img u) u [] :=
  (updateHwCursor_records img _).callTo.popad

/-- `.check_scroll` -/
theorem checkScroll_records (attr : U8) (hrow : u.mem.read32 img.cursorY = BitVec.ofNat 32 y)
    (hy : y ≤ 25) (hk : u.stride 2 = k) :
    Records (checkScroll img u) u
      ((if y < 25 then [] else [Act.scroll, .row]).flatMap (actStores img attr k)) := by
  have hw : Plain u (run [load .edx img.cursorY, cmpImm .edx vgaHeight] u) :=
    run_plain (by simp) u
  have hless := less_load hrow (by omega) (show vgaHeight.toNat < 2 ^ 31 by decide)
  rw [checkScroll]
  generalize run _ u = w at *
  have hheight : vgaHeight.toNat = 25 := rfl
  have hkw : (cpu (pushVal (img.ra .printCharScroll)) w).stride 2 = k :=
    (stride_congr hw.df 2).trans hk
  rw [hheight] at hless
  simp only [hless, decide_eq_true_iff]
  split
  · exact (updateCursorAndExit_records img w).plain hw
  · have hscroll := (scrollScreen_records img attr hkw).callTo
    refine (hscroll.bind fun v _ => ?_).plain hw
    exact (updateCursorAndExit_records img _).after rfl

/-- `.handle_newline` -/
theorem handleNewline_records {sp : U32} {n : Nat} (hp : Placed img sp n)
    (hcur : AtCursor img u.mem x y) (hy : y < 25) (hk : u.stride 2 = k) :
    Records (handleNewline img u) u
      ((Cursor.newLineActs ⟨x, y⟩).flatMap (actStores img attr k)) := by
  have hdf : (incMem img.cursorY (poke32 img.cursorX 0 u)).df = u.df := df_incFlags ..
  have htail := checkScroll_records attr (newLine_atCursor hcur hp).y hy
    ((stride_congr hdf 2).trans hk)
  rw [Cursor.newLineActs, List.flatMap_append]
  exact htail.after (List.append_assoc ..)

/-- `.handle_backspace` -/
theorem handleBackspace_records {sp : U32} {n : Nat} (hp : Placed img sp n) {p : Cursor}
    (hon : p.OnScreen) (hcur : AtCursor img u.mem p.x p.y)
    (hattr : u.mem img.textAttribute = attr) :
    Records (handleBackspace img u) u
      ((p.putActs newlineImm 0x08).flatMap (actStores img attr k)) := by
  have hx := hon.x_lt
  have hy := hon.y_lt
  have hw : Plain u (run [load .edx img.cursorX, cmpImm .edx 0] u) := run_plain (by simp) u
  have hzf := zf_load hcur.x (by omega)
  rw [handleBackspace, Cursor.putActs, if_pos rfl]
  generalize run _ u = w at *
  simp only [hzf, decide_eq_true_iff]
  split
  · exact (updateCursorAndExit_records img w).plain hw
  · next hcol =>
      have hback : AtCursor img (decMem img.cursorX w).mem (p.x - 1) p.y :=
        back_atCursor (hw.mem ▸ hcur) hp hx hcol
      have htouch : Moves img (VgaRegion img sp n) [] True id w (decMem img.cursorX w) :=
        countMem_moves hp (df_decFlags ..) (Or.inl rfl)
      have hkept : (decMem img.cursorX w).mem img.textAttribute = attr := by
        rw [hp.attr_touches htouch.touches, hw.mem, hattr]
      obtain ⟨z, hz, hplain, heax⟩ := cellAddress_storeAx hback hkept (by omega)
        (plain_movAl 0x20) fun _ _ => rfl
      rw [List.cons_append, run_cons, hz]
      have hstore : (storeAx .eax z).stored =
          w.stored ++ (actStores img attr k .column ++ actStores img attr k (.cell 0x20)) := by
        show z.stored ++ [z.eax + 0#32, z.eax + 1] = _
        rw [hplain.stored, heax, BitVec.add_zero]
        exact List.append_assoc ..
      have hall := ((updateCursorAndExit_records img _).after hstore).plain hw
      rw [List.append_nil] at hall
      exact hall

/-- The end of `.print`. -/
theorem advance_records {sp : U32} {n : Nat} (hp : Placed img sp n) (hx : x < 80) (hy : y < 25)
    (hcur : AtCursor img u.mem (x + 1) y) (hk : u.stride 2 = k) :
    let s := run [load .edx img.cursorX, cmpImm .edx vgaWidth] u
    Records (if s.less then updateCursorAndExit img s else handleNewline img s) u
      ((if x + 1 < 80 then [] else Cursor.newLineActs ⟨x, y⟩).flatMap
        (actStores img attr k)) := by
  have hw : Plain u (run [load .edx img.cursorX, cmpImm .edx vgaWidth] u) :=
    run_plain (by simp) u
  have hless := less_load hcur.x (by omega) (show vgaWidth.toNat < 2 ^ 31 by decide)
  have hwidth : vgaWidth.toNat = 80 := rfl
  rw [hwidth] at hless
  generalize run _ u = w at *
  simp only [hless, decide_eq_true_iff]
  split
  · exact (updateCursorAndExit_records img w).plain hw
  · have hacts : Cursor.newLineActs ⟨x, y⟩ = Cursor.newLineActs ⟨x + 1, y⟩ := rfl
    rw [hacts]
    exact (handleNewline_records hp (hw.mem ▸ hcur) hy
      ((stride_congr hw.df 2).trans hk)).plain hw

/-- `.print` -/
theorem printCell_records {sp : U32} {n : Nat} (hp : Placed img sp n) {p : Cursor} {c : U8}
    (hon : p.OnScreen) (hcur : AtCursor img u.mem p.x p.y)
    (hattr : u.mem img.textAttribute = attr) (hk : u.stride 2 = k) (hc : lowByte u.ecx = c)
    (hback : c ≠ 0x08) (hline : c ≠ newlineImm) :
    Records (printCell img u) u ((p.putActs newlineImm c).flatMap (actStores img attr k)) := by
  have hx := hon.x_lt
  have hy := hon.y_lt
  obtain ⟨w, hw, hplain, heax⟩ :=
    cellAddress_storeAx hcur hattr (by omega) plain_movAlLow (movAlLow_eax hc)
  have hcell : AtCursor img (storeAx .eax w).mem p.x p.y := by
    have hstore := storeCell_moves img hplain heax (i := 0) (by decide)
    exact hcur.touches hp hstore.touches fun _ => cursor_adapter hp
  have hcode : printCell img u = (fun v =>
      let s := run [load .edx img.cursorX, cmpImm .edx vgaWidth] v
      if s.less then updateCursorAndExit img s else handleNewline img s)
      (incMem img.cursorX (storeAx .eax w)) := by
    rw [← hw]
    simp only [printCell, run_append, run_cons, run_nil]
  have hnext := advance_atCursor hcell hp
  have hdf : (incMem img.cursorX (storeAx .eax w)).df = u.df :=
    (df_incFlags ..).trans hplain.df
  have hstored : (incMem img.cursorX (storeAx .eax w)).stored =
      u.stored ++ [Act.cell c, .column].flatMap (actStores img attr k) := by
    show w.stored ++ [w.eax + 0#32, w.eax + 1] ++ actStores img attr k .column = _
    rw [hplain.stored, heax, BitVec.add_zero, List.append_assoc]
    rfl
  rw [hcode]
  generalize incMem img.cursorX (storeAx .eax w) = v at *
  rw [Cursor.putActs, if_neg hback, if_neg hline, List.flatMap_append]
  exact (advance_records hp hx hy hnext ((stride_congr hdf 2).trans hk)).after hstored

theorem vgaPrintChar_records {s : Sys} {p : Cursor} {c : U8} (hp : Placed img s.esp 68)
    (hon : p.OnScreen) (hcur : AtCursor img s.mem p.x p.y) (hc : lowByte s.eax = c) :
    Records (vgaPrintChar img s) s ((p.putActs newlineImm c).flatMap
      (actStores img (s.mem img.textAttribute) (s.stride 2))) := by
  obtain ⟨hbody, hentry⟩ := pushad_moves (n := 36) hp
  have hattr := hp.attr_touches (hentry.touches.mono fun _ h => Or.inr (Or.inr h))
  have hkept := hcur.below hp hentry.touches
  have hk := stride_congr hentry.df 2
  have hfirst : (cpu pushad s).stored = s.stored ++ [] := (List.append_nil _).symm
  refine Records.after ?_ hfirst
  have hlow : lowByte (movzxAl .ecx (cpu pushad s)).ecx = c := by
    show (BitVec.setWidth 32 (lowByte s.eax)).setWidth 8 = c
    rw [hc, BitVec.setWidth_setWidth_of_le _ (by decide), BitVec.setWidth_eq]
  have hv : Plain (cpu pushad s) (cmpLow .ecx 0x08 (movzxAl .ecx (cpu pushad s))) :=
    (plain_movzxAl (by decide) _).trans (plain_cmpLow 0x08 _)
  have hzf : (cmpLow .ecx 0x08 (movzxAl .ecx (cpu pushad s))).zf = decide (c = 0x08) :=
    hlow ▸ zf_cmpFlags ..
  have hlow' : lowByte (cmpLow .ecx 0x08 (movzxAl .ecx (cpu pushad s))).ecx = c := hlow
  rw [vgaPrintChar, run_cons, run_cons, run_cons, run_nil]
  generalize cpu pushad s = u at *
  generalize cmpLow .ecx 0x08 _ = v at *
  have hw : Plain v (cmpLow .ecx newlineImm v) := plain_cmpLow newlineImm v
  have hzf' : (cmpLow .ecx newlineImm v).zf = decide (c = newlineImm) := hlow' ▸ zf_cmpFlags ..
  have hcw : lowByte (cmpLow .ecx newlineImm v).ecx = c := hlow'
  generalize cmpLow .ecx newlineImm v = w at *
  have huw := hv.trans hw
  simp only [hzf, hzf', decide_eq_true_iff]
  split
  · next hback =>
      subst hback
      exact (handleBackspace_records hp hon (hv.mem ▸ hkept) (hv.mem ▸ hattr)).plain hv
  · next hback =>
      split
      · next hline =>
          have hacts : p.putActs newlineImm c = p.newLineActs := by
            rw [Cursor.putActs, if_neg hback, if_pos hline]
          rw [hacts]
          exact (handleNewline_records hp (huw.mem ▸ hkept) hon.y_lt
            ((stride_congr huw.df 2).trans hk)).plain huw
      · next hline =>
          exact (printCell_records hp hon (huw.mem ▸ hkept) (huw.mem ▸ hattr)
            ((stride_congr huw.df 2).trans hk) hcw hback hline).plain huw

/-! ## Strings -/

/-- The call of `vga_print_char`. -/
theorem printCharCall_records {p : Cursor} {c : U8} (hp : Placed img u.esp 72)
    (hattr : u.mem img.textAttribute = attr) (hon : p.OnScreen)
    (hcur : AtCursor img u.mem p.x p.y) (hc : lowByte u.eax = c) :
    Records (callTo (img.ra .printStringChar) (vgaPrintChar img) u) u
      ((p.putActs newlineImm c).flatMap (actStores img attr (u.stride 2))) := by
  obtain ⟨hentry, -⟩ := Placed.sub (n := 68) hp (Nat.le_refl 4)
  have hpush : Touches (Below u.esp 72) u.mem
      (cpu (pushVal (img.ra .printStringChar)) u).mem :=
    touches_push _ hp.toRoom (by decide)
  have hkept := hp.attr_touches (hpush.mono fun _ h => Or.inr (Or.inr h))
  have hall := vgaPrintChar_records (s := cpu (pushVal (img.ra .printStringChar)) u) hentry hon
    (hcur.below hp hpush) hc
  rw [hkept, hattr] at hall
  exact hall.callTo

theorem printLoop_records {str : List U8} {n : Nat} {p : Cursor} (hp : Placed img u.esp 72)
    (hattr : u.mem img.textAttribute = attr) (hon : p.OnScreen)
    (hcur : AtCursor img u.mem p.x p.y) (hstr : NulString u.mem (u.stride 1) u.esi str)
    (hout : Apart (VgaRegion img u.esp 72) (u.stride 1) u.esi (str.length + 1)) :
    Records (printLoop img n u) u
      ((p.printActs newlineImm str).flatMap (actStores img attr (u.stride 2))) := by
  induction str generalizing n u p with
  | nil =>
      obtain ⟨hplain, -, -, hzf⟩ := lodsb_test hstr
      intro v hv
      cases n with
      | zero => cases hv
      | succ n =>
          rw [printLoop, hzf] at hv
          generalize run [lodsb, testAl] u = w at *
          obtain rfl := Option.some.inj hv
          rw [Cursor.printActs, List.flatMap_nil, List.append_nil]
          exact hplain.stored
  | cons c str ih =>
      have ht : Terminal.OnScreen ⟨[], p.x, p.y⟩ := ⟨hon.x_lt, hon.y_lt⟩
      obtain ⟨w, v, hplain, hlow, hcall, hround, hesp, hcur', hkept, hout', hmoves⟩ :=
        printLoop_round (t := ⟨[], p.x, p.y⟩) hp hattr ht hcur hstr hout
      obtain ⟨hx, hy⟩ := Terminal.put_at newlineImm attr p c
      rw [hx, hy] at hcur'
      have hone := printCharCall_records (hplain.esp ▸ hp) (hplain.mem ▸ hattr) hon
        (hplain.mem ▸ hcur) hlow v hcall
      rw [stride_congr hplain.df, hplain.stored] at hone
      cases n with
      | zero =>
          intro v hv
          cases hv
      | succ n =>
          rw [hround, Cursor.printActs, List.flatMap_append]
          have hrest := ih (n := n) (hesp ▸ hp) ((hp.attr_touches hmoves.touches).trans hattr)
            (Cursor.put_onScreen hon c) hcur' hkept hout'
          rw [stride_congr hmoves.df] at hrest
          exact hrest.after hone

theorem vgaPrintString_records {str : List U8} {s : Sys} {p : Cursor}
    (hp : Placed img s.esp 104) (hon : p.OnScreen) (hcur : AtCursor img s.mem p.x p.y)
    (hstr : NulString s.mem (s.stride 1) s.esi str)
    (hout : Apart (VgaRegion img s.esp 104) (s.stride 1) s.esi (str.length + 1)) :
    Records (vgaPrintString img s) s ((p.printActs newlineImm str).flatMap
      (actStores img (s.mem img.textAttribute) (s.stride 2))) := by
  obtain ⟨hbody, hentry⟩ := pushad_moves (n := 72) hp
  have hwide := hentry.touches.mono (S := VgaRegion img s.esp 104) fun _ h => Or.inr (Or.inr h)
  have hfirst : (cpu pushad s).stored = s.stored ++ [] := (List.append_nil _).symm
  exact Records.after (printLoop_records (u := cpu pushad s) hbody (hp.attr_touches hwide) hon
    (hcur.below hp hentry.touches) (hstr.touches hwide hout)
    (hout.mono fun _ => region_pushad (n := 72) hp)) hfirst

end

end MicroKernel.Proofs
