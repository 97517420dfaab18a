import MicroKernel.Proofs.VgaMemory

/-!
# The VGA routines that print nothing

What a stretch of code does is told by things that compose: DF, which none of
it changes, the memory it touches, and, where DF is clear, what it stores and
what becomes of the screen. The general registers come back from `popa`.

Some of the addresses stored to are computed (`hits`); all others are cells of
the screen or the cursor's variables. What becomes of the screen is told where
the computed addresses are right (`ok`).
-/

namespace MicroKernel.Proofs

open ByteMem X86 MicroKernel.Core Spec

/-- Where the routines are to store. -/
def Inner (img : VgaImage) (a : U32) : Prop := InScreen a ∨ InCursor img a

def Logs (img : VgaImage) (hits : List U32) (u v : Sys) : Prop :=
  ∃ log, v.stored = u.stored ++ log ∧ (∀ a ∈ log, Inner img a ∨ a ∈ hits) ∧
    ∀ a ∈ hits, a ∈ log

structure Moves (img : VgaImage) (R : U32 → Prop) (hits : List U32) (ok : Prop)
    (f : List U16 → List U16) (u v : Sys) : Prop where
  df : v.df = u.df
  touches : Touches R u.mem v.mem
  logs : u.df = false → Logs img hits u v
  screen : u.df = false → ok → screenOf v.mem = f (screenOf u.mem)

section
variable {img : VgaImage} {R S : U32 → Prop} {hits hits' : List U32} {ok ok' : Prop}
  {f g : List U16 → List U16} {u v w : Sys}

theorem Logs.trans (h : Logs img hits u v) (h' : Logs img hits' v w) :
    Logs img (hits ++ hits') u w := by
  obtain ⟨log, hv, hin, hhits⟩ := h
  obtain ⟨log', hw, hin', hhits'⟩ := h'
  refine ⟨log ++ log', by rw [hw, hv, List.append_assoc], fun a ha => ?_, fun a ha => ?_⟩
  · obtain ha | ha := List.mem_append.1 ha
    · exact (hin a ha).imp_right (List.mem_append_left _)
    · exact (hin' a ha).imp_right (List.mem_append_right _)
  · obtain ha | ha := List.mem_append.1 ha
    · exact List.mem_append_left _ (hhits a ha)
    · exact List.mem_append_right _ (hhits' a ha)

/-- Stores to addresses that are right. -/
theorem Logs.inner (log : List U32) (hv : v.stored = u.stored ++ log)
    (hlog : ∀ a ∈ log, Inner img a) : Logs img [] u v :=
  ⟨log, hv, fun a ha => Or.inl (hlog a ha), fun _ ha => absurd ha List.not_mem_nil⟩

theorem Logs.none (hv : v.stored = u.stored) : Logs img [] u v :=
  Logs.inner [] (by rw [hv, List.append_nil]) fun _ ha => absurd ha List.not_mem_nil

theorem Moves.trans (h : Moves img R hits ok f u v) (h' : Moves img R hits' ok' g v w) :
    Moves img R (hits ++ hits') (ok ∧ ok') (g ∘ f) u w where
  df := h'.df.trans h.df
  touches := h.touches.trans h'.touches
  logs := fun hdf => (h.logs hdf).trans (h'.logs (h.df.trans hdf))
  screen := by
    intro hdf hok
    rw [h'.screen (h.df.trans hdf) hok.2, h.screen hdf hok.1]
    rfl

theorem Moves.mono (h : Moves img R hits ok f u v) (hR : ∀ a, R a → S a) :
    Moves img S hits ok f u v :=
  ⟨h.df, h.touches.mono hR, h.logs, h.screen⟩

theorem Moves.congr (h : Moves img R hits ok f u v)
    (hfg : ok' → ok ∧ ∀ cells, cells.length = 2000 → f cells = g cells) :
    Moves img R hits ok' g u v where
  df := h.df
  touches := h.touches
  logs := h.logs
  screen := by
    intro hdf hok
    exact (h.screen hdf (hfg hok).1).trans ((hfg hok).2 _ (screenOf_length _))

/-- Code that stores only to what is not on the screen. -/
theorem Moves.quiet (hdf : v.df = u.df) (hlogs : Logs img [] u v)
    (ht : Touches R u.mem v.mem) (hout : ∀ a, InScreen a → ¬ R a) :
    Moves img R [] True id u v where
  df := hdf
  touches := ht
  logs := fun _ => hlogs
  screen := fun _ _ => screenOf_touches ht hout

theorem moves_plain (h : Plain u v) : Moves img R [] True id u v where
  df := h.df
  touches := fun a _ => by rw [h.mem]
  logs := fun _ => Logs.none h.stored
  screen := fun _ _ => by rw [h.mem]; rfl

end

section
variable {img : VgaImage} {s : Sys}

theorem below_screen {sp : U32} {n : Nat} (hp : Placed img sp n) {a : U32}
    (ha : InScreen a) : ¬ Below sp n a := by
  intro hb
  have := hp.adapter
  have := hp.below
  rw [InScreen, Within] at ha
  rw [Below, Within] at hb
  omega

theorem touches_pushad {u : Sys} (hroom : Room u.esp 32) :
    Touches (Below u.esp 32) u.mem (cpu pushad u).mem :=
  touches_pushDwords rfl hroom.below

/-- Code that stores only on the stack. -/
theorem moves_below {sp : U32} {n : Nat} {u v : Sys} (hp : Placed img sp n) (hdf : v.df = u.df)
    (hst : v.stored = u.stored) (ht : Touches (Below sp n) u.mem v.mem) :
    Moves img (Below sp n) [] True id u v :=
  Moves.quiet hdf (Logs.none hst) ht fun _ => below_screen hp

theorem updateHwCursor_spec (img : VgaImage) (hroom : Room s.esp 32) :
    ∃ t, vgaUpdateHwCursor img s = some (s.returned t) ∧ t.df = s.df ∧
      t.stored = s.stored ∧ Touches (Below s.esp 32) s.mem t.mem := by
  have hsaved := touches_pushad (u := s) hroom
  have hplain : Plain (cpu pushad s) (run (updateHwCursorBody img) (cpu pushad s)) :=
    run_plain (by simp [updateHwCursorBody]) _
  refine ⟨_, congrArg some ?_, hplain.df, hplain.stored, hplain.mem ▸ hsaved⟩
  rw [List.cons_append, run_cons, run_append]
  exact popad_ret (R := fun _ => False) hroom hplain.esp
    (fun a _ => congrFun hplain.mem a) fun _ _ h => h

/-- A call of a routine that saves its registers. -/
theorem callTo_moves {R : U32 → Prop} {n : Nat} {hits : List U32} {ok : Prop}
    {g : List U16 → List U16} {f : Routine} {ra : U32} {u t : Sys}
    (hp : Placed img u.esp n) (hn : 4 ≤ n) (hpush : ∀ x, Below u.esp 4 x → R x)
    (hf : f (cpu (pushVal ra) u) = some ((cpu (pushVal ra) u).returned t))
    (hmoves : Moves img R hits ok g (cpu (pushVal ra) u) t) :
    ∃ v, callTo ra f u = some v ∧ v.withRegs u = v ∧ v.mem = t.mem ∧
      Moves img R hits ok g u v := by
  have hquiet := moves_below (u := u) (v := cpu (pushVal ra) u) (hp.mono hn) rfl rfl
    (touches_push _ (hp.toRoom.mono hn) (Nat.le_refl 4))
  have hall : Moves img R hits ok g u t :=
    ((hquiet.mono hpush).trans hmoves).congr fun hok => ⟨⟨trivial, hok⟩, fun _ _ => rfl⟩
  exact ⟨_, callTo_returned hf, rfl, rfl, hall.df, hall.touches, hall.logs, hall.screen⟩

/-- What scrolling touches, with the saved registers. -/
def ScrollRegion (sp : U32) (a : U32) : Prop := InAdapter a ∨ Below sp 32 a

/-- With DF clear a block of cells is on the screen. -/
theorem logs_cells {i n : Nat} {u v x : Sys}
    (hv : v.stored = u.stored ++ strides 2 (x.stride 2) n (cellAddr i)) (hdf : x.df = false)
    (hn : i + n ≤ 2000) (hi : i < 2000) : Logs img [] u v := by
  rw [stride_clear hdf 2] at hv
  refine Logs.inner _ hv fun y hy => Or.inl ?_
  have haddr := cellAddr_toNat hi
  have hin := strides_up (w := 32) (k := 2) (n := n) (a := cellAddr i) (by omega) y hy
  rw [Within] at hin
  exact ⟨by omega, by omega⟩

/-- `c` blanks from `a` on, in the current attribute. -/
theorem blank_run (a c attr : U32) (u : Sys) :
    let v := run [cpu (movImm .edi a), cpu (movImm .ecx c), movAl 0x20, loadAh attr,
      rep stosw] u
    v.esp = u.esp ∧ v.df = u.df ∧
      v.mem = fill (bytes16 (Terminal.cell (u.mem attr) 0x20)) (u.stride 2) c.toNat u.mem a ∧
      v.stored = u.stored ++ strides 2 (u.stride 2) c.toNat a := by
  let x := run [cpu (movImm .edi a), cpu (movImm .ecx c), movAl 0x20, loadAh attr] u
  have hx : Plain u x := run_plain (by simp) u
  have hedi : x.edi = a := rfl
  have hecx : x.ecx = c := rfl
  have hax : x.eax.setWidth 16 = Terminal.cell (u.mem attr) 0x20 := by
    show (setAh (setAl u.eax 0x20) (u.mem attr)).setWidth 16 = _
    rw [ax_setAh, setWidth_setAl]
    rfl
  show (rep stosw x).esp = _ ∧ (rep stosw x).df = _ ∧ (rep stosw x).mem = _ ∧
    (rep stosw x).stored = _
  rw [rep, hecx]
  obtain ⟨hesp, hdf, hmem, hstored⟩ := repeated_stosw c.toNat x
  rw [hax, hedi, hx.mem, stride_congr hx.df] at hmem
  rw [hedi, hx.stored, stride_congr hx.df] at hstored
  exact ⟨hesp.trans hx.esp, hdf.trans hx.df, hmem, hstored⟩

theorem blank_moves (img : VgaImage) {i n : Nat} (a c attr : U32) (ha : a = cellAddr i)
    (hc : c.toNat = n) (hn : i + n ≤ 2000) (hi : i < 2000) (u : Sys) :
    let v := run [cpu (movImm .edi a), cpu (movImm .ecx c), movAl 0x20, loadAh attr,
      rep stosw] u
    v.esp = u.esp ∧ Moves img InAdapter [] True
      (fun cells => cells.take i ++
        List.replicate n (Terminal.cell (u.mem attr) 0x20) ++ cells.drop (i + n)) u v := by
  subst ha hc
  obtain ⟨hesp, hdf, hmem, hstored⟩ := blank_run (cellAddr i) c attr u
  have haddr := cellAddr_toNat hi
  have hlen : (bytes16 (Terminal.cell (u.mem attr) 0x20)).length ≤ 2 :=
    Nat.le_of_eq (bytes16_length _)
  refine ⟨hesp, hdf, ?_, fun hclear => logs_cells hstored hclear hn hi, fun hclear _ => ?_⟩
  · rw [hmem]
    refine (touches_fill (stride_cases u.toCpu 2) hlen (by omega) (by omega)).mono
      fun y hy => ?_
    rw [Within] at hy
    exact ⟨by omega, by omega⟩
  · rw [hmem, stride_clear hclear 2, screenOf_fill _ _ hn]

/-- `c` cells moved from `src` on to `dst` and the ones after it. -/
theorem moveUp_run (src dst c : U32) (u : Sys) :
    let v := run [cpu (movImm .esi src), cpu (movImm .edi dst), cpu (movImm .ecx c),
      rep movsw] u
    v.esp = u.esp ∧ v.df = u.df ∧ v.mem = copy 2 (u.stride 2) c.toNat u.mem src dst ∧
      v.stored = u.stored ++ strides 2 (u.stride 2) c.toNat dst := by
  let x := run [cpu (movImm .esi src), cpu (movImm .edi dst), cpu (movImm .ecx c)] u
  have hx : Plain u x := run_plain (by simp) u
  have hesi : x.esi = src := rfl
  have hedi : x.edi = dst := rfl
  have hecx : x.ecx = c := rfl
  show (rep movsw x).esp = _ ∧ (rep movsw x).df = _ ∧ (rep movsw x).mem = _ ∧
    (rep movsw x).stored = _
  rw [rep, hecx]
  obtain ⟨hesp, hdf, hmem, hstored⟩ := repeated_movsw c.toNat x
  rw [hesi, hedi, hx.mem, stride_congr hx.df] at hmem
  rw [hedi, hx.stored, stride_congr hx.df] at hstored
  exact ⟨hesp.trans hx.esp, hdf.trans hx.df, hmem, hstored⟩

theorem moveUp_moves {i n : Nat} (src dst c : U32) (hsrc : src = cellAddr (i + 80))
    (hdst : dst = cellAddr i) (hc : c.toNat = n) (hn : i + 80 + n ≤ 2000) (u : Sys) :
    let v := run [cpu (movImm .esi src), cpu (movImm .edi dst), cpu (movImm .ecx c),
      rep movsw] u
    v.esp = u.esp ∧ Moves img InAdapter [] True
      (fun cells => cells.take i ++ (cells.drop (i + 80)).take n ++ cells.drop (i + n))
      u v := by
  subst hsrc hdst hc
  obtain ⟨hesp, hdf, hmem, hstored⟩ := moveUp_run (cellAddr (i + 80)) (cellAddr i) c u
  have haddr := cellAddr_toNat (i := i) (by omega)
  refine ⟨hesp, hdf, ?_, fun hclear => logs_cells hstored hclear (by omega) (by omega),
    fun hclear _ => ?_⟩
  · rw [hmem]
    refine (touches_copy (stride_cases u.toCpu 2) (by omega) (by omega)).mono fun y hy => ?_
    rw [Within] at hy
    exact ⟨by omega, by omega⟩
  · rw [hmem, stride_clear hclear 2, screenOf_copy _ hn]

theorem blank_moveUp {cells : List U16} (blank : U16) (h : cells.length = 2000) :
    ((cells.take 0 ++ (cells.drop (0 + 80)).take 1920 ++ cells.drop (0 + 1920)).take 1920 ++
        List.replicate 80 blank ++
      (cells.take 0 ++ (cells.drop (0 + 80)).take 1920 ++ cells.drop (0 + 1920)).drop
        (1920 + 80)) = cells.drop 80 ++ List.replicate 80 blank := by
  have hlen : (cells.drop 80).length = 1920 := by rw [List.length_drop, h]
  have hend : (cells.drop 80 ++ cells.drop 1920).drop (1920 + 80) = [] :=
    List.drop_of_length_le (by simp only [List.length_append, List.length_drop, h]; decide)
  have hmoved : (cells.drop 80).take 1920 = cells.drop 80 :=
    List.take_of_length_le (Nat.le_of_eq hlen)
  rw [List.take_zero, List.nil_append, Nat.zero_add, Nat.zero_add, hmoved,
    List.take_left' hlen, hend, List.append_nil]

/-- The rows are moved, and then the last one is blanked. -/
theorem scrollScreenBody_eq (img : VgaImage) :
    scrollScreenBody img =
      [cpu (movImm .esi (vgaMemoryAddress + vgaWidth * 2)),
        cpu (movImm .edi vgaMemoryAddress), cpu (movImm .ecx (vgaWidth * (vgaHeight - 1))),
        rep movsw] ++
      [cpu (movImm .edi (vgaMemoryAddress + vgaWidth * (vgaHeight - 1) * 2)),
        cpu (movImm .ecx vgaWidth), movAl 0x20, loadAh img.textAttribute, rep stosw] := rfl

theorem scrollScreenBody_moves (img : VgaImage) (u : Sys) (hattr : ¬ InAdapter img.textAttribute) :
    (run (scrollScreenBody img) u).esp = u.esp ∧
      Moves img InAdapter [] True (Terminal.scrolled (u.mem img.textAttribute)) u
        (run (scrollScreenBody img) u) := by
  rw [scrollScreenBody_eq, run_append]
  obtain ⟨hesp, hmove⟩ := moveUp_moves (i := 0) (n := 1920) (vgaMemoryAddress + vgaWidth * 2)
    vgaMemoryAddress (vgaWidth * (vgaHeight - 1)) (by decide) (by decide) (by decide)
    (by decide) u
  generalize run _ u = v at hesp hmove ⊢
  obtain ⟨hesp', hblank⟩ := blank_moves img (i := 1920) (n := 80)
    (vgaMemoryAddress + vgaWidth * (vgaHeight - 1) * 2) vgaWidth img.textAttribute
    (by decide) (by decide) (by decide) (by decide) v
  rw [hmove.touches _ hattr] at hblank
  generalize run _ v = w at hesp' hblank ⊢
  exact ⟨hesp'.trans hesp, (hmove.trans hblank).congr fun _ =>
    ⟨⟨trivial, trivial⟩, fun _ h => blank_moveUp _ h⟩⟩

theorem scrollScreen_spec (hp : Placed img s.esp 32) :
    ∃ t, vgaScrollScreen img s = some (s.returned t) ∧
      Moves img (ScrollRegion s.esp) [] True
        (Terminal.scrolled (s.mem img.textAttribute)) s t := by
  have hsaved := touches_pushad (u := s) hp.toRoom
  have hattr := hp.attr_toNat
  have hvars := hp.vars
  have hadapter : ¬ InAdapter img.textAttribute := by
    rw [InAdapter, Within]
    omega
  have hkept : (cpu pushad s).mem img.textAttribute = s.mem img.textAttribute := by
    refine hsaved _ fun h => ?_
    have := hp.apart
    rw [Below, Within] at h
    omega
  have hquiet := moves_below (u := s) (v := cpu pushad s) hp rfl rfl hsaved
  obtain ⟨hesp, hbody⟩ := scrollScreenBody_moves img (cpu pushad s) hadapter
  rw [hkept] at hbody
  have hall : Moves img (ScrollRegion s.esp) _ _ _ s _ :=
    (hquiet.mono fun _ => Or.inr).trans (hbody.mono fun _ => Or.inl)
  refine ⟨_, congrArg some ?_, hall.congr fun _ => ⟨⟨trivial, trivial⟩, fun _ _ => rfl⟩⟩
  rw [List.cons_append, run_cons, run_append]
  refine popad_ret (R := InAdapter) hp.toRoom hesp hbody.touches fun x hx hin => ?_
  have := hp.adapter
  rw [InAdapter, Within] at hin
  rw [Within] at hx
  omega

end

end MicroKernel.Proofs
