import MicroKernel.Proofs.VgaTrace

/-!
# The VGA routines, called in any order

`vga_clear_screen`, `vga_print_char` and `vga_print_string` are called by code
that may do anything in between but change the variables of the cursor. The
calls are requests to a terminal whose newline is the backslash: each returns,
leaves the cursor where that terminal's is, and stores what its acts do. The
terminal that was meant is another one, and the cursors part where the two of
them do.
-/

namespace MicroKernel.Proofs

open ByteMem X86 MicroKernel.Core Spec

section
variable {img : VgaImage}

/-! ## Clearing the screen -/

theorem atCursor_read (img : VgaImage) (m : PhysMem) :
    AtCursor img m (m.read32 img.cursorX).toNat (m.read32 img.cursorY).toNat :=
  ⟨by rw [BitVec.ofNat_toNat, BitVec.setWidth_eq], by rw [BitVec.ofNat_toNat, BitVec.setWidth_eq]⟩

/-- The body, up to the stores to the variables. -/
def blankCode (img : VgaImage) : List Insn :=
  [cpu (movImm .edi vgaMemoryAddress), cpu (movImm .ecx (vgaWidth * vgaHeight)),
    movAl 0x20, loadAh img.textAttribute, rep stosw]

theorem clearScreenBody_eq (u : Sys) :
    run (clearScreenBody img) u =
      poke32 img.cursorY 0 (poke32 img.cursorX 0 (run (blankCode img) u)) := by
  have hcode : clearScreenBody img =
      blankCode img ++ [poke32 img.cursorX 0, poke32 img.cursorY 0] := rfl
  rw [hcode, run_append]
  generalize run (blankCode img) u = w
  exact run_cons ..

theorem blankCode_moves (img : VgaImage) (u : Sys) :
    (run (blankCode img) u).esp = u.esp ∧ Moves img InAdapter [] True
      (fun _ => List.replicate 2000 (Terminal.cell (u.mem img.textAttribute) 0x20)) u
      (run (blankCode img) u) := by
  obtain ⟨hesp, hblank⟩ := blank_moves img (i := 0) (n := 2000) vgaMemoryAddress
    (vgaWidth * vgaHeight) img.textAttribute (by decide) (by decide) (by decide) (by decide) u
  rw [blankCode]
  generalize run _ u = w at *
  refine ⟨hesp, hblank.congr fun _ => ⟨trivial, fun cells hcells => ?_⟩⟩
  rw [List.take_zero, List.drop_of_length_le (Nat.le_of_eq hcells), List.append_nil,
    List.nil_append]

theorem blankCode_stored (img : VgaImage) (attr : U8) (u : Sys) :
    (run (blankCode img) u).stored = u.stored ++ actStores img attr (u.stride 2) .blank := by
  have hcells : (vgaWidth * vgaHeight).toNat = 2000 := rfl
  obtain ⟨-, -, -, hstored⟩ := blank_run vgaMemoryAddress (vgaWidth * vgaHeight)
    img.textAttribute u
  rw [hcells] at hstored
  rw [blankCode]
  generalize run _ u = w at *
  exact hstored

/-- The stores to the variables. -/
theorem home_moves {sp : U32} {n : Nat} (hp : Placed img sp n) (w : Sys) :
    Moves img (VgaRegion img sp n) [] True id w
      (poke32 img.cursorY 0 (poke32 img.cursorX 0 w)) :=
  ((store_moves hp 0 (Or.inl rfl)).trans (store_moves hp 0 (Or.inr rfl))).congr fun _ =>
    ⟨⟨trivial, trivial⟩, fun _ _ => rfl⟩

theorem clearScreenBody_run {sp : U32} {n : Nat} (hp : Placed img sp n) (u : Sys) :
    (run (clearScreenBody img) u).esp = u.esp ∧
      AtCursor img (run (clearScreenBody img) u).mem 0 0 ∧
      Moves img (VgaRegion img sp n) [] True
        (fun _ => List.replicate 2000 (Terminal.cell (u.mem img.textAttribute) 0x20)) u
        (run (clearScreenBody img) u) := by
  obtain ⟨hesp, hblank⟩ := blankCode_moves img u
  rw [clearScreenBody_eq]
  generalize run (blankCode img) u = w at *
  have hwide := hblank.mono (S := VgaRegion img sp n) fun _ => Or.inl
  have hkeep (a v : U32) (s : Sys) : (poke32 a v s).esp = s.esp := rfl
  refine ⟨by rw [hkeep, hkeep, hesp],
    atCursor_writeY (atCursor_writeX (atCursor_read img w.mem) hp) hp,
    (hwide.trans (home_moves hp w)).congr fun _ => ⟨⟨trivial, trivial⟩, fun _ _ => ?_⟩⟩
  rw [Function.comp_apply, id]

theorem clearScreenBody_stored (img : VgaImage) (attr : U8) (u : Sys) :
    (run (clearScreenBody img) u).stored = u.stored ++
      [Act.blank, .column, .row].flatMap (actStores img attr (u.stride 2)) := by
  have hblank := blankCode_stored img attr u
  rw [clearScreenBody_eq]
  generalize run (blankCode img) u = w at *
  have hpoke : (poke32 img.cursorY 0 (poke32 img.cursorX 0 w)).stored =
      w.stored ++ actStores img attr (u.stride 2) .column ++
        actStores img attr (u.stride 2) .row := rfl
  rw [hpoke, hblank]
  simp only [List.flatMap_cons, List.flatMap_nil, List.append_assoc, List.append_nil]

theorem vgaClearScreen_spec {s : Sys} (hp : Placed img s.esp 68) :
    ∃ v, vgaClearScreen img s = some (s.returned v) ∧ AtCursor img v.mem 0 0 ∧
      Moves img (VgaRegion img s.esp 68) [] True
        (fun _ => List.replicate 2000 (Terminal.cell (s.mem img.textAttribute) 0x20)) s v := by
  obtain ⟨hbody, hentry⟩ := pushad_moves (n := 36) hp
  have hattr := hp.attr_touches (hentry.touches.mono fun _ h => Or.inr (Or.inr h))
  obtain ⟨hesp, hcur, hclear⟩ := clearScreenBody_run hbody (cpu pushad s)
  rw [hattr] at hclear
  rw [vgaClearScreen, run_cons]
  generalize run (clearScreenBody img) (cpu pushad s) = u at *
  obtain ⟨v, hr, hesp', hcur', hmoves⟩ :=
    updateCall_ends (t := ⟨[], 0, 0⟩) (img.ra .clearScreenUpdate) (hesp ▸ hbody) hcur
  rw [hesp] at hmoves
  obtain ⟨hback, hall⟩ := popad_moves (n := 36) hp (hesp'.trans hesp) (hclear.trans hmoves)
  exact ⟨v, hr.trans (congrArg some hback), hcur',
    hall.congr fun _ => ⟨⟨trivial, trivial⟩, fun _ _ => rfl⟩⟩

theorem vgaClearScreen_records {s : Sys} (hp : Placed img s.esp 68) :
    Records (vgaClearScreen img s) s ([Act.blank, .column, .row].flatMap
      (actStores img (s.mem img.textAttribute) (s.stride 2))) := by
  obtain ⟨-, hentry⟩ := pushad_moves (n := 36) hp
  have hstored := clearScreenBody_stored img (s.mem img.textAttribute) (cpu pushad s)
  rw [stride_congr hentry.df] at hstored
  rw [vgaClearScreen, run_cons]
  generalize run (clearScreenBody img) (cpu pushad s) = u at *
  have htail := (updateHwCursor_records img
    (cpu (pushVal (img.ra .clearScreenUpdate)) u)).callTo.popad.after hstored
  rw [List.append_nil] at htail
  have hsaved : (cpu pushad s).stored = s.stored ++ [] := (List.append_nil _).symm
  exact htail.after hsaved

/-! ## Sequences of calls -/

def routineOf (img : VgaImage) : Request → Routine
  | .clear => vgaClearScreen img
  | .char _ => vgaPrintChar img
  | .string _ => vgaPrintString img

/-- The stack that the routine needs. -/
def depthOf : Request → Nat
  | .clear => 68
  | .char _ => 68
  | .string _ => 104

/-- What the routine is given, where it looks for it. -/
def Given (img : VgaImage) (u : Sys) : Request → Prop
  | .clear => True
  | .char c => lowByte u.eax = c
  | .string str => NulString u.mem (u.stride 1) u.esi str ∧
      Apart (VgaRegion img u.esp 104) (u.stride 1) u.esi (str.length + 1)

/-- A call for `r` in `u`, the variables of the cursor being as in `s`. -/
structure Entered (img : VgaImage) (s u : Sys) (r : Request) : Prop where
  x : u.mem.read32 img.cursorX = s.mem.read32 img.cursorX
  y : u.mem.read32 img.cursorY = s.mem.read32 img.cursorY
  placed : Placed img u.esp (depthOf r)
  given : Given img u r

/-- The states right after calls for so many requests. -/
inductive Session (img : VgaImage) : List Request → Sys → Prop
  | start {s : Sys} (h : AtCursor img s.mem 0 0) : Session img [] s
  | call {rs : List Request} {r : Request} {s u s' : Sys} (h : Session img rs s)
      (hu : Entered img s u r) (hrun : routineOf img r u = some s') : Session img (rs ++ [r]) s'

/-- One call. -/
theorem call_spec {r : Request} {s u : Sys} {p : Cursor} (hon : p.OnScreen)
    (hcur : AtCursor img s.mem p.x p.y) (h : Entered img s u r) :
    ∃ s', routineOf img r u = some s' ∧
      AtCursor img s'.mem (p.serve newlineImm r).x (p.serve newlineImm r).y ∧
      s'.stored = u.stored ++ (p.acts newlineImm r).flatMap
        (actStores img (u.mem img.textAttribute) (u.stride 2)) := by
  have hcur' : AtCursor img u.mem p.x p.y := ⟨h.x.trans hcur.x, h.y.trans hcur.y⟩
  have ht : Terminal.OnScreen ⟨[], p.x, p.y⟩ := ⟨hon.x_lt, hon.y_lt⟩
  obtain ⟨-, -, hp, hgiven⟩ := h
  cases r with
  | clear =>
      obtain ⟨v, hv, hend, -⟩ := vgaClearScreen_spec hp
      exact ⟨_, hv, hend, vgaClearScreen_records hp _ hv⟩
  | char c =>
      obtain ⟨v, hv, hend, -⟩ := vgaPrintChar_spec (t := ⟨[], p.x, p.y⟩) hp ht hcur' hgiven
      obtain ⟨hx, hy⟩ := Terminal.put_at newlineImm (u.mem img.textAttribute) p c
      rw [hx, hy] at hend
      exact ⟨_, hv, hend, vgaPrintChar_records hp hon hcur' hgiven _ hv⟩
  | string str =>
      obtain ⟨hstr, hout⟩ := hgiven
      obtain ⟨v, hv, hend, -⟩ := vgaPrintString_spec (t := ⟨[], p.x, p.y⟩) hp rfl ht hcur'
        hstr.length_lt hstr hout
      obtain ⟨hx, hy⟩ := Terminal.print_at newlineImm (u.mem img.textAttribute) p str
      rw [hx, hy] at hend
      exact ⟨_, hv, hend, vgaPrintString_records hp hon hcur' hstr hout _ hv⟩

/-- The invariant of a session. -/
theorem Session.at {rs : List Request} {s : Sys} (h : Session img rs s) :
    (Cursor.after newlineImm rs).OnScreen ∧
      AtCursor img s.mem (Cursor.after newlineImm rs).x (Cursor.after newlineImm rs).y := by
  induction h with
  | start h => exact ⟨Cursor.origin_onScreen, h⟩
  | @call rs r s u s' _ hu hrun ih =>
      obtain ⟨hon, hcur⟩ := ih
      obtain ⟨v, hv, hend, -⟩ := call_spec hon hcur hu
      obtain rfl := Option.some.inj (hrun.symm.trans hv)
      rw [Cursor.after_concat]
      exact ⟨Cursor.serve_onScreen hon r, hend⟩

theorem Session.cursor {rs : List Request} {s : Sys} (h : Session img rs s) :
    (s.mem.read32 img.cursorX).toNat = (Cursor.after newlineImm rs).x ∧
      (s.mem.read32 img.cursorY).toNat = (Cursor.after newlineImm rs).y := by
  obtain ⟨hon, hcur⟩ := h.at
  have hx := hon.x_lt
  have hy := hon.y_lt
  rw [hcur.x, hcur.y, toNat_ofNat_of_lt (by omega), toNat_ofNat_of_lt (by omega)]
  exact ⟨rfl, rfl⟩

/-- Neither a newline nor what the code takes for one is printed but in the last
column. -/
def Settled (p : Cursor) (r : Request) : Prop :=
  Undisputed Terminal.lineFeed newlineImm p r.text

/-- After any calls the cursor is on the screen. Where all of them were settled it is
where a terminal's is after the same requests, and the next call returns as well, and
does what it does in the order of a terminal that scrolls once each time the row would
become 25. One more character takes it where the terminal's goes if that is settled
too, and only then. -/
theorem session_cursor {rs : List Request} {s : Sys} (h : Session img rs s) :
    (s.mem.read32 img.cursorX).toNat < 80 ∧ (s.mem.read32 img.cursorY).toNat < 25 ∧
    (EachStep (fun pre r => Settled (Cursor.after Terminal.lineFeed pre) r) rs →
      (s.mem.read32 img.cursorX).toNat = (Cursor.after Terminal.lineFeed rs).x ∧
      (s.mem.read32 img.cursorY).toNat = (Cursor.after Terminal.lineFeed rs).y ∧
      (∀ r u, Entered img s u r → Settled (Cursor.after Terminal.lineFeed rs) r →
        ∃ s', routineOf img r u = some s' ∧
          s'.stored = u.stored ++ ((Cursor.after Terminal.lineFeed rs).acts newlineImm r).flatMap
            (actStores img (u.mem img.textAttribute) (u.stride 2)) ∧
          ((Cursor.after Terminal.lineFeed rs).acts newlineImm r).count .scroll =
            Cursor.overflows Terminal.lineFeed (Cursor.after Terminal.lineFeed rs) r.text) ∧
      ∀ c u s', Entered img s u (.char c) → vgaPrintChar img u = some s' →
        ((s'.mem.read32 img.cursorX).toNat =
            (Cursor.after Terminal.lineFeed (rs ++ [.char c])).x ∧
          (s'.mem.read32 img.cursorY).toNat =
            (Cursor.after Terminal.lineFeed (rs ++ [.char c])).y ↔
          Settled (Cursor.after Terminal.lineFeed rs) (.char c))) := by
  obtain ⟨hon, hcur⟩ := h.at
  obtain ⟨hx, hy⟩ := h.cursor
  refine ⟨hx ▸ hon.x_lt, hy ▸ hon.y_lt, fun hrs => ?_⟩
  have hback : Terminal.lineFeed ≠ 0x08 := by decide
  have hback' : newlineImm ≠ 0x08 := by decide
  have hne : Terminal.lineFeed ≠ newlineImm := by decide
  obtain ⟨-, hsame⟩ := after_undisputed hback hback' hne hrs
  rw [← hsame] at hon hcur hx hy
  refine ⟨hx, hy, fun r u hu hr => ?_, fun c u s' hu hrun => ?_⟩
  · obtain ⟨s', hs', -, hstored⟩ := call_spec hon hcur hu
    refine ⟨s', hs', hstored, ?_⟩
    rw [Cursor.acts_scroll hon, (hr.serve hback hback' hne hon).2]
  · obtain ⟨hx', hy'⟩ := (h.call hu hrun).cursor
    rw [hx', hy', Cursor.after_concat, Cursor.after_concat, ← hsame]
    have hone : (Cursor.after Terminal.lineFeed rs).put Terminal.lineFeed c =
        (Cursor.after Terminal.lineFeed rs).put newlineImm c ↔ _ :=
      cursor_put_iff hback hback' hne hon
    rw [Settled, Undisputed, Request.text, eachStep_cons]
    refine Iff.trans ?_ (hone.trans ⟨fun hc => ⟨hc, eachStep_nil⟩, fun hc => hc.1⟩)
    exact ⟨fun heq => (Cursor.ext heq.1 heq.2).symm, fun heq =>
      ⟨(congrArg Cursor.x heq).symm, (congrArg Cursor.y heq).symm⟩⟩

/-- The call that prints `A` is the first one. -/
theorem letterEntry_entered : Entered letterImage letterEntry letterEntry (.string [0x41]) where
  x := rfl
  y := rfl
  placed := letterEntry_call.placed
  given := ⟨letterEntry_call.string, letterEntry_call.apart⟩

theorem settled_letter (p : Cursor) : Settled p (.string [0x41]) :=
  eachStep_cons.2 ⟨fun h => absurd h (by decide), eachStep_nil⟩

theorem session_cursor_letter : ∃ s, routineOf letterImage (.string [0x41]) letterEntry = some s ∧
    (s.mem.read32 letterImage.cursorX).toNat = 1 ∧
    (s.mem.read32 letterImage.cursorY).toNat = 0 := by
  have hstart : Session letterImage [] letterEntry := .start letterEntry_call.cursor
  obtain ⟨-, -, hnone⟩ := session_cursor hstart
  obtain ⟨-, -, hnext, -⟩ := hnone eachStep_nil
  obtain ⟨s, hs, -⟩ := hnext _ _ letterEntry_entered (settled_letter _)
  obtain ⟨-, -, hone⟩ := session_cursor (hstart.call letterEntry_entered hs)
  obtain ⟨hx, hy, -⟩ := hone (eachStep_concat.2 ⟨eachStep_nil, settled_letter _⟩)
  exact ⟨s, hs, hx, hy⟩

/-- About to print a newline. -/
def feedEntry : Sys := { letterEntry with eax := 0x0A }

theorem feedEntry_entered : Entered letterImage letterEntry feedEntry (.char 0x0A) where
  x := rfl
  y := rfl
  placed := letterEntry_call.placed.mono (by decide)
  given := rfl

/-- The newline is printed: the cursor goes one column on and not to the next row. -/
theorem session_cursor_feed : ∃ s, Session letterImage [.char 0x0A] s ∧
    ¬ ((s.mem.read32 letterImage.cursorX).toNat =
        (Cursor.after Terminal.lineFeed [.char 0x0A]).x ∧
      (s.mem.read32 letterImage.cursorY).toNat =
        (Cursor.after Terminal.lineFeed [.char 0x0A]).y) := by
  have hstart : Session letterImage [] letterEntry := .start letterEntry_call.cursor
  obtain ⟨hon, hcur⟩ := hstart.at
  obtain ⟨s, hs, -⟩ := call_spec hon hcur feedEntry_entered
  have hnext := hstart.call feedEntry_entered hs
  refine ⟨s, hnext, fun h => ?_⟩
  have hfeed := h.1
  rw [hnext.cursor.1] at hfeed
  exact absurd hfeed (by decide)

end

end MicroKernel.Proofs
