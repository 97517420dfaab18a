import MicroKernel.Machine.Control
import MicroKernel.Machine.Crtc
import MicroKernel.Proofs.VgaCalls

/-!
# The cursor of the display

Each time the variables of the cursor have changed, `vga_update_hw_cursor` sends
its place to the adapter, and the VGA routines send nothing else. The number of
the register goes into AL, where the low byte of the place was, so what is sent
for that byte is the number 0x0F itself, and the display has its cursor wherever
that leaves it. No system register is touched.
-/

namespace MicroKernel.Proofs

open ByteMem X86 MicroKernel.Core Spec

/-- What is sent for a cursor. -/
def placeBytes (p : Cursor) : List (U16 × U8) :=
  cursorBytes 0x0F (highByte (BitVec.ofNat 32 (80 * p.y + p.x)))

/-! ## The registers of the adapter -/

theorem highByte_setAl (r : U32) (b : U8) : highByte (setAl r b) = highByte r := by
  refine BitVec.eq_of_getLsbD_eq fun i hi => ?_
  simp only [setAl, highByte, BitVec.getLsbD_append, BitVec.getLsbD_extractLsb']
  grind

theorem lowByte_shr (r : U32) : lowByte (r >>> 8) = highByte r := by
  refine BitVec.eq_of_getLsbD_eq fun i hi => ?_
  simp [lowByte, highByte, hi]

section
variable (port : U16) (s : Sys)

/-- A byte sent by way of DX and AL. -/
theorem sendAl (b : U8) :
    (run [cpu (mov16 .edx port), movAl b, outDx] s).ports = s.ports ++ [(port, b)] ∧
      (run [cpu (mov16 .edx port), movAl b, outDx] s).eax = setAl s.eax b := by
  refine ⟨?_, rfl⟩
  show s.ports ++ [((setLow s.edx port).setWidth 16, lowByte (setAl s.eax b))] = _
  rw [setLow_low, lowByte, setWidth_setAl]

/-- The low byte of EAX. -/
theorem sendLow :
    (run [cpu (mov16 .edx port), movAlLow .eax, outDx] s).ports =
        s.ports ++ [(port, lowByte s.eax)] ∧
      (run [cpu (mov16 .edx port), movAlLow .eax, outDx] s).eax =
        setAl s.eax (lowByte s.eax) := by
  refine ⟨?_, rfl⟩
  show s.ports ++ [((setLow s.edx port).setWidth 16, lowByte (setAl s.eax (lowByte s.eax)))] = _
  rw [setLow_low]
  exact congrArg (fun b => s.ports ++ [(port, b)]) (setWidth_setAl ..)

/-- The byte above it. -/
theorem sendHigh :
    (run [cpu (mov16 .edx port), cpu (shr .eax 8), movAlLow .eax, outDx] s).ports =
      s.ports ++ [(port, highByte s.eax)] := by
  show s.ports ++ [((setLow s.edx port).setWidth 16,
    lowByte (setAl (s.eax >>> 8) (lowByte (s.eax >>> 8))))] = _
  rw [setLow_low, ← lowByte_shr]
  exact congrArg (fun b => s.ports ++ [(port, b)]) (setWidth_setAl ..)

end

section
variable {img : VgaImage} {attr : U8} {u v : Sys} {p : Cursor}

theorem place_regs (h : AtCursor img u.mem p.x p.y) :
    let q := run [load .edi img.cursorY, cpu (movImm .eax vgaWidth), mul .edi,
      addMem .eax img.cursorX] u
    q.eax = BitVec.ofNat 32 (80 * p.y + p.x) ∧ q.ports = u.ports := by
  have heax : (run [load .edi img.cursorY, cpu (movImm .eax vgaWidth), mul .edi,
      addMem .eax img.cursorX] u).eax =
      (vgaWidth.setWidth 64 * (u.mem.read32 img.cursorY).setWidth 64 : U64).setWidth 32 +
        u.mem.read32 img.cursorX := rfl
  refine ⟨heax.trans ?_, rfl⟩
  rw [h.x, h.y, BitVec.setWidth_mul _ _ (by decide), BitVec.setWidth_setWidth_of_le _ (by decide),
    BitVec.setWidth_setWidth_of_le _ (by decide), BitVec.setWidth_eq, BitVec.setWidth_eq,
    BitVec.ofNat_add, BitVec.ofNat_mul]
  rfl

theorem updateHwCursorBody_sends (h : AtCursor img u.mem p.x p.y) :
    Sends (placeBytes p) u (run (updateHwCursorBody img) u) := by
  refine ⟨?_, rfl⟩
  have hcode : updateHwCursorBody img =
      [load .edi img.cursorY, cpu (movImm .eax vgaWidth), mul .edi, addMem .eax img.cursorX] ++
        ([cpu (mov16 .edx 0x3D4), movAl 0x0F, outDx] ++
        ([cpu (mov16 .edx 0x3D5), movAlLow .eax, outDx] ++
        ([cpu (mov16 .edx 0x3D4), movAl 0x0E, outDx] ++
        [cpu (mov16 .edx 0x3D5), cpu (shr .eax 8), movAlLow .eax, outDx]))) := rfl
  obtain ⟨heax, hports⟩ := place_regs h
  rw [hcode, run_append, run_append, run_append, run_append, sendHigh]
  generalize run _ u = q at *
  obtain ⟨hports₁, heax₁⟩ := sendAl 0x3D4 q 0x0F
  generalize run _ q = q₁ at *
  obtain ⟨hports₂, heax₂⟩ := sendLow 0x3D5 q₁
  generalize run _ q₁ = q₂ at *
  obtain ⟨hports₃, heax₃⟩ := sendAl 0x3D4 q₂ 0x0E
  have hlow : lowByte q₁.eax = 0x0F := heax₁ ▸ setWidth_setAl ..
  rw [hports₃, hports₂, hports₁, hports, heax₃, heax₂, hlow, heax₁, highByte_setAl,
    highByte_setAl, highByte_setAl, heax]
  simp only [List.append_assoc]
  rfl

theorem updateHwCursor_sends (hp : Placed img u.esp 32) (hcur : AtCursor img u.mem p.x p.y) :
    Sending (vgaUpdateHwCursor img u) u (placeBytes p) := by
  have hbody := updateHwCursorBody_sends (hcur.below hp (touches_pushad hp.toRoom))
  have hentry : Sends [] u (cpu pushad u) := .of_eq rfl rfl
  have hexit (w : Sys) : Sends [] w (run [cpu popad, ret] w) := .of_eq rfl rfl
  refine .of_some ?_
  rw [List.cons_append, run_cons, run_append, ← List.append_nil (placeBytes p)]
  exact (hentry.quiet hbody).trans (hexit _)

theorem scrollScreen_sends (img : VgaImage) (u : Sys) : Sending (vgaScrollScreen img u) u [] :=
  .of_some (run_quiet (by simp [scrollScreenBody]) u)

/-! ## The ways through `vga_print_char` -/

/-- A call at the end of a routine that saves its registers. -/
theorem updateCall_sends (ra : U32) (hp : Placed img u.esp 36)
    (hcur : AtCursor img u.mem p.x p.y) :
    Sending ((callTo ra (vgaUpdateHwCursor img) u).map (run [cpu popad, ret])) u
      (placeBytes p) := by
  obtain ⟨hentry, -⟩ := Placed.sub (n := 32) hp (Nat.le_refl 4)
  have hpush := touches_push ra hp.toRoom (by decide)
  exact (updateHwCursor_sends (u := cpu (pushVal ra) u) hentry
    (hcur.below hp hpush)).callTo.popad

/-- `.check_scroll` -/
theorem checkScroll_sends (hp : Placed img u.esp 36) (hcur : AtCursor img u.mem p.x (p.y + 1))
    (hy : p.y < 25) :
    Sending (checkScroll img u) u (placeBytes ⟨p.x, min (p.y + 1) 24⟩) := by
  have hcode : ∀ i ∈ [load .edx img.cursorY, cmpImm .edx vgaHeight], PlainInsn i ∧ QuietInsn i := by
    simp
  have hw : Plain u (run [load .edx img.cursorY, cmpImm .edx vgaHeight] u) :=
    run_plain (fun i hi => (hcode i hi).1) u
  have hquiet := run_quiet (fun i hi => (hcode i hi).2) u
  have hless := less_load hcur.y (by omega) (show vgaHeight.toNat < 2 ^ 31 by decide)
  have hheight : vgaHeight.toNat = 25 := rfl
  rw [hheight] at hless
  rw [checkScroll]
  generalize run _ u = w at *
  have hpw : Placed img w.esp 36 := hw.esp ▸ hp
  have hkept : AtCursor img w.mem p.x (p.y + 1) := hw.mem ▸ hcur
  simp only [hless, decide_eq_true_iff]
  split
  · next hrow =>
      have hmin : min (p.y + 1) 24 = p.y + 1 := by omega
      rw [hmin]
      exact (updateCall_sends (p := ⟨p.x, p.y + 1⟩) _ hpw hkept).quiet hquiet
  · next hrow =>
      have hmin : min (p.y + 1) 24 = 24 := by omega
      rw [hmin]
      obtain ⟨z, hz, hesp, hkept', -⟩ := scrollCall_moves hpw hkept
      have hlast : AtCursor img
          (ByteMem.write z.mem img.cursorY (bytes32 (BitVec.ofNat 32 24))) p.x 24 :=
        atCursor_writeY hkept' hpw
      rw [hz, Option.bind_some]
      have hscroll := (scrollScreen_sends img _).callTo z hz
      have hpoke : Sends [] z (poke32 img.cursorY (vgaHeight - 1) z) := .of_eq rfl rfl
      have hesp' : (poke32 img.cursorY (vgaHeight - 1) z).esp = w.esp := hesp
      exact (updateCall_sends (u := poke32 img.cursorY (vgaHeight - 1) z) (p := ⟨p.x, 24⟩) _
        (hesp' ▸ hpw) hlast).quiet ((hquiet.quiet hscroll).quiet hpoke)

/-- `.handle_newline` -/
theorem handleNewline_sends (hp : Placed img u.esp 36) (hcur : AtCursor img u.mem p.x p.y)
    (hy : p.y < 25) : Sending (handleNewline img u) u (placeBytes p.newLine) := by
  have hcount : Sends [] u (run [poke32 img.cursorX 0, incMem img.cursorY] u) :=
    run_quiet (by simp) u
  have hrow := newLine_atCursor hcur hp
  have hpv : Placed img (incMem img.cursorY (poke32 img.cursorX 0 u)).esp 36 := hp
  rw [handleNewline]
  rw [run_cons, run_cons, run_nil] at hcount ⊢
  generalize incMem img.cursorY (poke32 img.cursorX 0 u) = v at *
  exact (checkScroll_sends (p := ⟨0, p.y⟩) hpv hrow hy).quiet hcount

/-- `.handle_backspace` -/
theorem handleBackspace_sends (hp : Placed img u.esp 36) (hon : p.OnScreen)
    (hcur : AtCursor img u.mem p.x p.y) :
    Sending (handleBackspace img u) u (placeBytes (p.put newlineImm 0x08)) := by
  have hx := hon.x_lt
  have hy := hon.y_lt
  have hw : Plain u (run [load .edx img.cursorX, cmpImm .edx 0] u) := run_plain (by simp) u
  have hquiet : Sends [] u (run [load .edx img.cursorX, cmpImm .edx 0] u) :=
    run_quiet (by simp) u
  have hzf := zf_load hcur.x (by omega)
  rw [handleBackspace, Cursor.put, if_pos rfl]
  generalize run _ u = w at *
  have hpw : Placed img w.esp 36 := hw.esp ▸ hp
  have hkept : AtCursor img w.mem p.x p.y := hw.mem ▸ hcur
  simp only [hzf, decide_eq_true_iff]
  split
  · next hcol =>
      have hsame : p.x - 1 = p.x := by omega
      rw [hsame]
      exact (updateCall_sends _ hpw hkept).quiet hquiet
  · next hcol =>
      have hback := back_atCursor hkept hpw hx hcol
      have hcell : Sends [] w (run (decMem img.cursorX :: cellAddress img ++
          [loadAh img.textAttribute, movAl 0x20, storeAx .eax]) w) :=
        run_quiet (by simp [cellAddress]) w
      have hpd : Placed img (decMem img.cursorX w).esp 36 := hpw
      obtain ⟨hesp, hstore⟩ := cellAddress_store hback rfl (by omega) (plain_movAl 0x20)
        fun _ _ => rfl
      have hkept' := hback.touches hpd hstore.touches fun _ => cursor_adapter hpd
      rw [List.cons_append, run_cons] at hcell ⊢
      generalize run _ (decMem img.cursorX w) = z at *
      exact (updateCall_sends (p := { p with x := p.x - 1 }) _ (hesp ▸ hpd) hkept').quiet
        (hquiet.quiet hcell)

/-- The end of `.print`. -/
theorem advance_sends (hp : Placed img u.esp 36) (hon : p.OnScreen)
    (hcur : AtCursor img u.mem (p.x + 1) p.y) :
    let s := run [load .edx img.cursorX, cmpImm .edx vgaWidth] u
    Sending (if s.less then updateCursorAndExit img s else handleNewline img s) u
      (placeBytes (if p.x + 1 < 80 then { p with x := p.x + 1 } else p.newLine)) := by
  have hx := hon.x_lt
  have hw : Plain u (run [load .edx img.cursorX, cmpImm .edx vgaWidth] u) :=
    run_plain (by simp) u
  have hquiet : Sends [] u (run [load .edx img.cursorX, cmpImm .edx vgaWidth] u) :=
    run_quiet (by simp) u
  have hless := less_load hcur.x (by omega) (show vgaWidth.toNat < 2 ^ 31 by decide)
  have hwidth : vgaWidth.toNat = 80 := rfl
  rw [hwidth] at hless
  generalize run _ u = w at *
  have hpw : Placed img w.esp 36 := hw.esp ▸ hp
  have hkept : AtCursor img w.mem (p.x + 1) p.y := hw.mem ▸ hcur
  simp only [hless, decide_eq_true_iff]
  split
  · exact (updateCall_sends (p := { p with x := p.x + 1 }) _ hpw hkept).quiet hquiet
  · exact (handleNewline_sends (p := { p with x := p.x + 1 }) hpw hkept hon.y_lt).quiet hquiet

/-- The cursor is moved before its place is looked at. -/
theorem counted_sends (hp : Placed img u.esp 36) (hon : p.OnScreen)
    (hcur : AtCursor img u.mem p.x p.y) :
    let s := run [load .edx img.cursorX, cmpImm .edx vgaWidth] (incMem img.cursorX u)
    Sending (if s.less then updateCursorAndExit img s else handleNewline img s) u
      (placeBytes (if p.x + 1 < 80 then { p with x := p.x + 1 } else p.newLine)) := by
  have hcount : Sends [] u (incMem img.cursorX u) := quiet_incMem _ u
  exact (advance_sends (u := incMem img.cursorX u) hp hon (advance_atCursor hcur hp)).quiet hcount

/-- `.print` -/
theorem printCell_sends {c : U8} (hp : Placed img u.esp 36) (hon : p.OnScreen)
    (hcur : AtCursor img u.mem p.x p.y) (hback : c ≠ 0x08) (hline : c ≠ newlineImm)
    (hc : lowByte u.ecx = c) : Sending (printCell img u) u (placeBytes (p.put newlineImm c)) := by
  have hx := hon.x_lt
  have hy := hon.y_lt
  obtain ⟨hesp, hstore⟩ :=
    cellAddress_store hcur rfl (by omega) plain_movAlLow (movAlLow_eax hc)
  have hkept := hcur.touches hp hstore.touches fun _ => cursor_adapter hp
  have hquiet : Sends [] u
      (run (cellAddress img ++ [loadAh img.textAttribute, movAlLow .ecx, storeAx .eax]) u) :=
    run_quiet (by simp [cellAddress]) u
  have hsplit : run (cellAddress img ++ [loadAh img.textAttribute, movAlLow .ecx, storeAx .eax,
        incMem img.cursorX, load .edx img.cursorX, cmpImm .edx vgaWidth]) u =
      run [load .edx img.cursorX, cmpImm .edx vgaWidth] (incMem img.cursorX
        (run (cellAddress img ++ [loadAh img.textAttribute, movAlLow .ecx, storeAx .eax]) u)) := by
    simp only [run_append, run_cons, run_nil]
  rw [printCell, hsplit, Cursor.put, if_neg hback, if_neg hline]
  rw [← hesp] at hp
  exact (counted_sends hp hon hkept).quiet hquiet

theorem vgaPrintChar_sends {s : Sys} {c : U8} (hp : Placed img s.esp 68) (hon : p.OnScreen)
    (hcur : AtCursor img s.mem p.x p.y) (hc : lowByte s.eax = c) :
    Sending (vgaPrintChar img s) s (placeBytes (p.put newlineImm c)) := by
  obtain ⟨hbody, hentry⟩ := pushad_moves (n := 36) hp
  have hkept := hcur.below hp hentry.touches
  have hfirst : Sends [] s (cpu pushad s) := quiet_pushad s
  have hlow : lowByte (movzxAl .ecx (cpu pushad s)).ecx = c := by
    show (BitVec.setWidth 32 (lowByte s.eax)).setWidth 8 = c
    rw [hc, BitVec.setWidth_setWidth_of_le _ (by decide), BitVec.setWidth_eq]
  have hv : Plain (cpu pushad s) (cmpLow .ecx 0x08 (movzxAl .ecx (cpu pushad s))) :=
    (plain_movzxAl (by decide) _).trans (plain_cmpLow 0x08 _)
  have hqv : Sends [] (cpu pushad s) (cmpLow .ecx 0x08 (movzxAl .ecx (cpu pushad s))) :=
    (quiet_movzxAl _).quiet (quiet_cmpLow 0x08 _)
  have hzf : (cmpLow .ecx 0x08 (movzxAl .ecx (cpu pushad s))).zf = decide (c = 0x08) :=
    hlow ▸ zf_cmpFlags ..
  have hlow' : lowByte (cmpLow .ecx 0x08 (movzxAl .ecx (cpu pushad s))).ecx = c := hlow
  rw [vgaPrintChar, run_cons, run_cons, run_cons, run_nil]
  generalize cpu pushad s = u at *
  generalize cmpLow .ecx 0x08 _ = v at *
  have hw : Plain v (cmpLow .ecx newlineImm v) := plain_cmpLow newlineImm v
  have hqw : Sends [] v (cmpLow .ecx newlineImm v) := quiet_cmpLow newlineImm v
  have hzf' : (cmpLow .ecx newlineImm v).zf = decide (c = newlineImm) := hlow' ▸ zf_cmpFlags ..
  have hcw : lowByte (cmpLow .ecx newlineImm v).ecx = c := hlow'
  generalize cmpLow .ecx newlineImm v = w at *
  have huw := hv.trans hw
  have hpw : Placed img w.esp 36 := huw.esp ▸ hbody
  have hkw : AtCursor img w.mem p.x p.y := huw.mem ▸ hkept
  have hall := (hfirst.quiet hqv).quiet hqw
  simp only [hzf, hzf', decide_eq_true_iff]
  split
  · next hback =>
      subst hback
      exact (handleBackspace_sends (hv.esp ▸ hbody) hon (hv.mem ▸ hkept)).quiet
        (hfirst.quiet hqv)
  · next hback =>
      split
      · next hline =>
          have hput : p.put newlineImm c = p.newLine := by
            rw [Cursor.put, if_neg hback, if_pos hline]
          rw [hput]
          exact (handleNewline_sends hpw hkw hon.y_lt).quiet hall
      · next hline => exact (printCell_sends hpw hon hkw hback hline hcw).quiet hall

/-! ## Strings -/

/-- The call of `vga_print_char`. -/
theorem printCharCall_sends {c : U8} (hp : Placed img u.esp 72) (hon : p.OnScreen)
    (hcur : AtCursor img u.mem p.x p.y) (hc : lowByte u.eax = c) :
    Sending (callTo (img.ra .printStringChar) (vgaPrintChar img) u) u
      (placeBytes (p.put newlineImm c)) := by
  obtain ⟨hentry, -⟩ := Placed.sub (n := 68) hp (Nat.le_refl 4)
  have hpush : Touches (Below u.esp 72) u.mem
      (cpu (pushVal (img.ra .printStringChar)) u).mem :=
    touches_push _ hp.toRoom (by decide)
  exact (vgaPrintChar_sends (s := cpu (pushVal (img.ra .printStringChar)) u) hentry hon
    (hcur.below hp hpush) hc).callTo

theorem printLoop_sends {str : List U8} {n : Nat} (hp : Placed img u.esp 72) (hon : p.OnScreen)
    (hcur : AtCursor img u.mem p.x p.y) (hstr : NulString u.mem (u.stride 1) u.esi str)
    (hout : Apart (VgaRegion img u.esp 72) (u.stride 1) u.esi (str.length + 1)) :
    Sending (printLoop img n u) u ((p.path newlineImm str).flatMap placeBytes) := by
  induction str generalizing n u p with
  | nil =>
      obtain ⟨-, -, -, hzf⟩ := lodsb_test hstr
      have hquiet : Sends [] u (run [lodsb, testAl] u) := run_quiet (by simp) u
      cases n with
      | zero => exact fun _ h => by cases h
      | succ n =>
          rw [printLoop, hzf]
          generalize run [lodsb, testAl] u = w at *
          exact .of_some (hquiet.quiet (run_quiet (by simp) w))
  | cons c str ih =>
      have ht : Terminal.OnScreen ⟨[], p.x, p.y⟩ := ⟨hon.x_lt, hon.y_lt⟩
      obtain ⟨hc, hnz⟩ := hstr.1
      obtain ⟨hplain, hesi, hlow, hzf⟩ := lodsb_test hc
      have hquiet : Sends [] u (run [lodsb, testAl] u) := run_quiet (by simp) u
      cases n with
      | zero => exact fun _ h => by cases h
      | succ n =>
          rw [printLoop, hzf, decide_eq_false hnz, Cursor.path, List.flatMap_cons]
          generalize run [lodsb, testAl] u = w at *
          have hpw : Placed img w.esp 72 := hplain.esp ▸ hp
          have hkept : AtCursor img w.mem p.x p.y := hplain.mem ▸ hcur
          refine Emits.quiet ((printCharCall_sends hpw hon hkept hlow).bind fun z hz => ?_) hquiet
          obtain ⟨v, hcall, hregs, hcur', hput⟩ := printCharCall_moves hpw ht hkept rfl hlow
          obtain rfl := Option.some.inj (hcall.symm.trans hz)
          obtain ⟨hx, hy⟩ := Terminal.put_at newlineImm (w.mem img.textAttribute) p c
          rw [hx, hy] at hcur'
          have hesp := (Sys.esp_of_withRegs hregs).trans hplain.esp
          have hesi' := (Sys.esi_of_withRegs hregs).trans hesi
          have hstride : v.stride 1 = u.stride 1 :=
            stride_congr (hput.df.trans hplain.df) 1
          rw [hplain.esp] at hput
          have hmoves := (moves_plain hplain).trans hput
          refine ih (hesp ▸ hp) (Cursor.put_onScreen hon c) hcur' ?_ ?_
          · rw [hesi', hstride]
            exact (hstr.touches hmoves.touches hout).2
          · rw [hesi', hesp, hstride]
            exact hout.2

theorem vgaPrintString_sends {str : List U8} {s : Sys} (hp : Placed img s.esp 104)
    (hon : p.OnScreen) (hcur : AtCursor img s.mem p.x p.y)
    (hstr : NulString s.mem (s.stride 1) s.esi str)
    (hout : Apart (VgaRegion img s.esp 104) (s.stride 1) s.esi (str.length + 1)) :
    Sending (vgaPrintString img s) s ((p.path newlineImm str).flatMap placeBytes) := by
  obtain ⟨hbody, hentry⟩ := pushad_moves (n := 72) hp
  have hwide := hentry.touches.mono (S := VgaRegion img s.esp 104) fun _ h => Or.inr (Or.inr h)
  have hfirst : Sends [] s (cpu pushad s) := quiet_pushad s
  exact Emits.quiet (printLoop_sends (u := cpu pushad s) hbody hon (hcur.below hp hentry.touches)
    (hstr.touches hwide hout) (hout.mono fun _ => region_pushad (n := 72) hp)) hfirst

theorem vgaClearScreen_sends {s : Sys} (hp : Placed img s.esp 68) :
    Sending (vgaClearScreen img s) s (placeBytes .origin) := by
  obtain ⟨hbody, -⟩ := pushad_moves (n := 36) hp
  obtain ⟨hesp, hcur, -⟩ := clearScreenBody_run hbody (cpu pushad s)
  have hquiet : Sends [] s (run (cpu pushad :: clearScreenBody img) s) :=
    run_quiet (by simp [clearScreenBody]) s
  rw [vgaClearScreen]
  rw [run_cons] at hquiet ⊢
  generalize run (clearScreenBody img) (cpu pushad s) = u at *
  exact (updateCall_sends (p := .origin) _ (hesp ▸ hbody) hcur).quiet hquiet

/-! ## Sequences of calls -/

theorem call_sends {r : Request} {s : Sys} (hon : p.OnScreen) (hcur : AtCursor img s.mem p.x p.y)
    (h : Entered img s u r) :
    Sending (routineOf img r u) u ((p.trail newlineImm r).flatMap placeBytes) := by
  have hcur' : AtCursor img u.mem p.x p.y := ⟨h.x.trans hcur.x, h.y.trans hcur.y⟩
  obtain ⟨-, -, hp, hgiven⟩ := h
  cases r with
  | clear =>
      rw [Cursor.trail, List.flatMap_singleton]
      exact vgaClearScreen_sends hp
  | char c =>
      rw [Cursor.trail, List.flatMap_singleton]
      exact vgaPrintChar_sends hp hon hcur' hgiven
  | string str => exact vgaPrintString_sends hp hon hcur' hgiven.1 hgiven.2

/-- The trail of a request ends where it leaves the cursor. -/
theorem trail_split {r : Request} (p : Cursor) (hr : r.text ≠ [] ∨ r = .clear) :
    ∃ init, p.trail newlineImm r = init ++ [p.serve newlineImm r] := by
  have hpath : ∀ (str : List U8) (p : Cursor), str ≠ [] →
      ∃ init, p.path newlineImm str = init ++ [str.foldl (Cursor.put newlineImm) p] := by
    intro str
    induction str with
    | nil => exact fun _ h => absurd rfl h
    | cons c str ih =>
        intro p _
        rw [Cursor.path, List.foldl_cons]
        by_cases hnil : str = []
        · subst hnil
          exact ⟨[], rfl⟩
        · obtain ⟨init, hinit⟩ := ih (p.put newlineImm c) hnil
          exact ⟨p.put newlineImm c :: init, by rw [hinit, List.cons_append]⟩
  cases r with
  | clear => exact ⟨[], rfl⟩
  | char c => exact ⟨[], rfl⟩
  | string str => exact hpath str p (hr.resolve_right fun h => by cases h)

theorem location_placeBytes (hon : p.OnScreen) (c : Crtc) :
    (c.outs (placeBytes p)).location = (80 * p.y + p.x) / 256 * 256 + 15 := by
  have hx := hon.x_lt
  have hy := hon.y_lt
  have hhigh : (highByte (BitVec.ofNat 32 (80 * p.y + p.x))).toNat = (80 * p.y + p.x) / 256 := by
    rw [highByte, BitVec.extractLsb'_toNat, BitVec.toNat_ofNat, Nat.shiftRight_eq_div_pow]
    omega
  rw [placeBytes, Crtc.outs_cursorBytes, hhigh, Nat.mul_comm]
  rfl

/-- After any calls, one that clears the screen or prints something leaves the
display's cursor at the 16th cell of the 256 that the next character goes to. Until
then it has sent the place of the cursor after each character, spoilt in the same way,
and nothing else, and it has changed no system register. -/
theorem displayCursor_location {rs : List Request} {r : Request} {s s' : Sys}
    (h : Session img rs s) (hu : Entered img s u r) (hrun : routineOf img r u = some s')
    (hr : r.text ≠ [] ∨ r = .clear) (c : Crtc) :
    (c.outs s'.ports).location =
        (80 * (s'.mem.read32 img.cursorY).toNat + (s'.mem.read32 img.cursorX).toNat) / 256 * 256 +
          15 ∧
      s'.ports = u.ports ++ ((Cursor.after newlineImm rs).trail newlineImm r).flatMap placeBytes ∧
      s'.control = u.control := by
  obtain ⟨hon, hcur⟩ := h.at
  obtain ⟨hports, hcontrol⟩ := call_sends hon hcur hu s' hrun
  obtain ⟨v, hv, hend, -⟩ := call_spec hon hcur hu
  obtain rfl := Option.some.inj (hrun.symm.trans hv)
  have hon' : ((Cursor.after newlineImm rs).serve newlineImm r).OnScreen :=
    Cursor.serve_onScreen hon r
  have hx := hon'.x_lt
  have hy := hon'.y_lt
  obtain ⟨init, hinit⟩ := trail_split (Cursor.after newlineImm rs) hr
  refine ⟨?_, hports, hcontrol⟩
  rw [hports, hinit, List.flatMap_append, List.flatMap_singleton, Crtc.outs_append,
    Crtc.outs_append, location_placeBytes hon', hend.x, hend.y, toNat_ofNat_of_lt (by omega),
    toNat_ofNat_of_lt (by omega)]

/-- After the first letter the display's cursor is at cell 15, not at cell 1. -/
theorem displayCursor_location_letter :
    ∃ s, routineOf letterImage (.string [0x41]) letterEntry = some s ∧
      (s.mem.read32 letterImage.cursorX).toNat = 1 ∧
      ((⟨0, 0, 0⟩ : Crtc).outs s.ports).location = 15 := by
  have hstart : Session letterImage [] letterEntry := .start letterEntry_call.cursor
  have hfirst := call_spec Cursor.origin_onScreen letterEntry_call.cursor letterEntry_entered
  obtain ⟨s, hs, hend, -⟩ := hfirst
  have hx : (s.mem.read32 letterImage.cursorX).toNat = 1 := by
    rw [hend.x]
    rfl
  have hy : (s.mem.read32 letterImage.cursorY).toNat = 0 := by
    rw [hend.y]
    rfl
  obtain ⟨hlocation, -⟩ := displayCursor_location hstart letterEntry_entered hs
    (.inl (List.cons_ne_nil _ _)) ⟨0, 0, 0⟩
  rw [hx, hy] at hlocation
  exact ⟨s, hs, hx, hlocation⟩

end

end MicroKernel.Proofs
