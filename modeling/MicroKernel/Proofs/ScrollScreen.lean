import MicroKernel.Proofs.VgaRoutines

/-!
# What scrolling does to all of memory

With DF clear the two blocks lie on the screen: the rows move down in memory, so
each cell is read before the move reaches it, and nothing else of memory changes
but the stack.
-/

namespace MicroKernel.Proofs

open ByteMem X86 MicroKernel.Core Spec

/-- Row `r` of the screen. -/
def textRow (m : PhysMem) (r : Nat) : List U16 := ((screenOf m).drop (80 * r)).take 80

section
variable {img : VgaImage} {u : Sys}

/-- The body, DF clear. -/
theorem scrollScreenBody_clear (img : VgaImage) (hdf : u.df = false)
    (hattr : ¬ InScreen img.textAttribute) :
    (run (scrollScreenBody img) u).esp = u.esp ∧
      Touches InScreen u.mem (run (scrollScreenBody img) u).mem ∧
      screenOf (run (scrollScreenBody img) u).mem =
        Terminal.scrolled (u.mem img.textAttribute) (screenOf u.mem) := by
  rw [scrollScreenBody_eq, run_append]
  obtain ⟨hesp, hdf', hmem, -⟩ := moveUp_run (vgaMemoryAddress + vgaWidth * 2)
    vgaMemoryAddress (vgaWidth * (vgaHeight - 1)) u
  generalize run _ u = v at hesp hdf' hmem ⊢
  obtain ⟨hesp', -, hmem', -⟩ := blank_run
    (vgaMemoryAddress + vgaWidth * (vgaHeight - 1) * 2) vgaWidth img.textAttribute v
  generalize run _ v = x at hesp' hmem' ⊢
  rw [stride_clear hdf] at hmem
  rw [stride_clear (hdf'.trans hdf)] at hmem'
  have hmove : Touches InScreen u.mem v.mem := by
    have hrows : vgaMemoryAddress.toNat + (vgaWidth * (vgaHeight - 1)).toNat * 2 ≤ 2 ^ 32 := by
      decide
    rw [hmem]
    refine (touches_copy_up (by decide) hrows).mono fun y hy =>
      ⟨hy.1, Nat.lt_of_lt_of_le hy.2 (by decide)⟩
  have hblank : Touches InScreen v.mem x.mem := by
    rw [hmem']
    refine (touches_fill_up (k := 2) (bytes16_length _) (by decide) ?_).mono
      fun y hy => ⟨Nat.le_trans (by decide) hy.1, hy.2⟩
    decide
  refine ⟨hesp'.trans hesp, hmove.trans hblank, ?_⟩
  have hscreen : screenOf v.mem = _ := (congrArg screenOf hmem).trans
    (screenOf_copy 1920 (i := 0) (by decide))
  rw [hmove _ hattr] at hmem'
  rw [hmem']
  refine (screenOf_fill 80 (i := 1920) _ (by decide)).trans ?_
  rw [hscreen]
  exact blank_moveUp _ (screenOf_length _)

/-- The routine, entered with its return address on the stack. -/
theorem scrollScreen_clear (hdf : u.df = false) (hroom : Room u.esp 32)
    (hstack : ∀ a, InScreen a → ¬ Within (u.esp.toNat - 32) (u.esp.toNat + 4) a)
    (hattr : ¬ InScreen img.textAttribute) (hattr' : ¬ Below u.esp 32 img.textAttribute) :
    ∃ w, vgaScrollScreen img u = some (u.returned w) ∧
      Touches (fun a => InScreen a ∨ Below u.esp 32 a) u.mem w.mem ∧
      screenOf w.mem = Terminal.scrolled (u.mem img.textAttribute) (screenOf u.mem) := by
  have hsaved := touches_pushad hroom
  have hquiet : ∀ a, InScreen a → ¬ Below u.esp 32 a := fun a ha hb =>
    hstack a ha ⟨hb.1, Nat.lt_of_lt_of_le hb.2 (Nat.le_add_right _ _)⟩
  obtain ⟨hesp, htouch, hscreen⟩ := scrollScreenBody_clear (u := cpu pushad u) img hdf hattr
  rw [hsaved _ hattr', screenOf_touches hsaved hquiet] at hscreen
  refine ⟨_, congrArg some ?_, ?_, hscreen⟩
  · rw [List.cons_append, run_cons, run_append]
    exact popad_ret hroom hesp htouch fun x hx hin => hstack x hin hx
  · exact (hsaved.mono fun _ => Or.inr).trans (htouch.mono fun _ => Or.inl)

theorem textRow_scrolled {m m' : PhysMem} {attr : U8}
    (h : screenOf m' = Terminal.scrolled attr (screenOf m)) :
    (∀ r < 24, textRow m' r = textRow m (r + 1)) ∧
      textRow m' 24 = List.replicate 80 (Terminal.cell attr 0x20) := by
  have hlen : ((screenOf m).drop 80).length = 80 * 24 := by rw [List.length_drop, screenOf_length]
  rw [Terminal.scrolled] at h
  refine ⟨fun r hr => ?_, ?_⟩
  · have hrow : 80 * r + 80 = 80 * (r + 1) := by omega
    rw [textRow, h, List.drop_append_of_le_length (by omega), List.drop_drop, Nat.add_comm 80,
      hrow, List.take_append_of_le_length, textRow]
    rw [List.length_drop, screenOf_length]
    omega
  · rw [textRow, h, List.drop_left' hlen]
    exact List.take_of_length_le (Nat.le_of_eq List.length_replicate)

/-- A call of `vga_scroll_screen` with DF clear: each row is the one that was
below it, the last one is blank, and of the rest of memory only the call's own
stack has changed. -/
theorem scrollScreen_rows {s : Sys} (ra : U32) (hdf : s.df = false) (hroom : 36 ≤ s.esp.toNat)
    (hstack : ∀ a, InScreen a → ¬ Below s.esp 36 a) (hattr : ¬ InScreen img.textAttribute)
    (hattr' : ¬ Below s.esp 36 img.textAttribute) :
    ∃ t, callTo ra (vgaScrollScreen img) s = some t ∧ t.withRegs s = t ∧
      (∀ r < 24, textRow t.mem r = textRow s.mem (r + 1)) ∧
      textRow t.mem 24 = List.replicate 80 (Terminal.cell (s.mem img.textAttribute) 0x20) ∧
      Touches (fun a => InScreen a ∨ Below s.esp 36 a) s.mem t.mem := by
  have hsub : (s.esp - 4).toNat = s.esp.toNat - 4 := below_toNat (k := 4) (by omega)
  have htop := s.esp.isLt
  have hpush : Touches (Below s.esp 36) s.mem (cpu (pushVal ra) s).mem :=
    (touches_pushDwords (n := 4) rfl (by omega)).mono fun _ => below_mono (by decide)
  have hesp : (cpu (pushVal ra) s).esp = s.esp - 4 := rfl
  have hframe : ∀ a, Below (cpu (pushVal ra) s).esp 32 a → Below s.esp 36 a := by
    intro a ha
    rw [Below, Within, hesp] at ha
    rw [Below, Within]
    omega
  obtain ⟨w, hends, htouch, hscreen⟩ := scrollScreen_clear (u := cpu (pushVal ra) s) hdf
    ⟨by rw [hesp]; omega, by rw [hesp]; omega⟩
    (fun a ha hin => hstack a ha (by
      rw [Within, hesp] at hin
      rw [Below, Within]
      omega)) hattr (mt (hframe _) hattr')
  rw [hpush _ hattr', screenOf_touches hpush hstack] at hscreen
  obtain ⟨hrows, hlast⟩ := textRow_scrolled hscreen
  refine ⟨_, callTo_returned hends, rfl, hrows, hlast, ?_⟩
  exact (hpush.mono fun _ => Or.inr).trans
    (htouch.mono fun a ha => ha.imp_right (hframe a))

/-- A screen with another letter in each row, and an attribute to blank the last one in. -/
def letteredSys : Sys :=
  { idleSys with
    mem := fun a =>
      if a = 0x200008 then 0x1E
      else if a.getLsbD 0 then 0x07
      else BitVec.ofNat 8 (0x41 + (a.toNat - 0xB8000) / 160) }

theorem scrollScreen_rows_lettered :
    ∃ t, callTo 0x101000 (vgaScrollScreen ⟨0x200000, fun _ => 0⟩) letteredSys = some t ∧
      t.withRegs letteredSys = t ∧
      (∀ r < 24, textRow t.mem r = textRow letteredSys.mem (r + 1)) ∧
      textRow t.mem 0 ≠ textRow letteredSys.mem 0 ∧
      textRow t.mem 24 = List.replicate 80 0x1E20 ∧
      Touches (fun a => InScreen a ∨ Below letteredSys.esp 36 a) letteredSys.mem t.mem := by
  have hesp : letteredSys.esp.toNat = 0x9000 := rfl
  have hstack : ∀ a, InScreen a → ¬ Below letteredSys.esp 36 a := by
    intro a ha hb
    rw [InScreen, Within] at ha
    rw [Below, Within, hesp] at hb
    omega
  obtain ⟨t, ht, hregs, hrows, hlast, htouch⟩ :=
    @scrollScreen_rows ⟨0x200000, fun _ => 0⟩ letteredSys 0x101000 rfl (by decide) hstack
      (fun h => absurd h.2 (by decide)) (fun h => absurd h.2 (by decide))
  have hmoved : textRow letteredSys.mem 1 ≠ textRow letteredSys.mem 0 := by decide +kernel
  exact ⟨t, ht, hregs, hrows, hrows 0 (by decide) ▸ hmoved, hlast, htouch⟩

end

end MicroKernel.Proofs
