import MicroKernel.Proofs.HexText
import MicroKernel.Proofs.PanicScreen

/-!
# The stack trace

`print_stack_trace` reads each frame after it has printed the ones before. As
long as no frame lies in the cells it writes, what it reads is what was there at
the start.
-/

namespace MicroKernel.Proofs

open ByteMem Kernel MicroKernel.Core Spec Numeral

/-! ## A text in its row -/

/-- Characters that are shown as they are. -/
def Printable (text : List U8) : Prop := ∀ c ∈ text, c ≠ chr '\n' ∧ c.msb = false

/-- The memory of the cells of a text. -/
def TextBytes (x y n : Nat) (a : U32) : Prop :=
  Within (0xB8000 + 2 * (80 * y + x)) (0xB8000 + 2 * (80 * y + x + n)) a

/-- What printing a text in its row does. -/
structure WritesText (text : List U8) (x y : Nat) (attr : U8) (v w : PanicVga) : Prop where
  shows : ShowsAt (screenOf w.mem) x y attr text
  others : ∀ j, ¬ InText x y text.length j → (screenOf w.mem)[j]? = (screenOf v.mem)[j]?
  touches : Touches (TextBytes x y text.length) v.mem w.mem

theorem panicText_row {text : List U8} (htext : Printable text) {x y : Nat} (hx : x < 80)
    (hy : y < 25) (hfit : x + text.length ≤ 80) (attr : U8) (v : PanicVga) :
    ∃ w, panicText text x y attr v = some w ∧ WritesText text x y attr v w := by
  have hline : chr '\n' ∉ text := fun h => (htext _ h).1 rfl
  have hrow {g : Glyph} : g ∈ visible (layout x text x y) ↔
      ∃ i, ∃ hi : i < text.length, g = ⟨y, x + i, text[i]⟩ := by
    rw [visible, List.mem_filter, mem_layout_row hline hfit]
    refine and_iff_left_of_imp ?_
    rintro ⟨i, hi, rfl⟩
    exact decide_eq_true hy
  have hlt := visible_lt text y hx hx
  obtain ⟨-, hshown, hothers, -⟩ := panicVgaPrintStr_screen text hx y attr v
  refine ⟨_, rfl, fun i hi => ?_, fun j hj => hothers j fun g hg heq => hj ?_, ?_⟩
  · have hg := hshown _ (hrow.2 ⟨i, hi, rfl⟩)
    rw [(panicCell_eq_iff _ _).2 (Or.inl (htext _ (List.getElem_mem hi)).2)] at hg
    rw [Nat.add_assoc]
    exact hg
  · obtain ⟨i, hi, rfl⟩ := hrow.1 hg
    have heq' : 80 * y + (x + i) = j := heq
    rw [InText]
    omega
  · rw [panicVgaPrintStr, panicPrintLoop_eq attr hx text hx v]
    refine (putGlyphs_touches hlt).mono fun a ha => ?_
    obtain ⟨g, hg, ha⟩ := ha
    obtain ⟨i, hi, rfl⟩ := hrow.1 hg
    have ha' : Within (0xB8000 + 2 * (80 * y + (x + i))) (0xB8000 + 2 * (80 * y + (x + i)) + 2) a :=
      ha
    rw [Within] at ha'
    rw [TextBytes, Within]
    omega

theorem printable_hexText (n : U32) : Printable (hexText n) := by
  have hdigit : ∀ d < 16, digitText d ≠ chr '\n' ∧ (digitText d).msb = false := by decide
  have hprefix : ∀ c ∈ ascii "0x", c ≠ chr '\n' ∧ c.msb = false := by decide
  intro c hc
  obtain hc | hc := List.mem_append.1 hc
  · exact hprefix c hc
  · obtain ⟨d, hd, rfl⟩ := List.mem_map.1 hc
    exact hdigit d (fixed_lt (by decide) hd)

theorem hexText_length (n : U32) : (hexText n).length = 10 := by
  rw [hexText, List.length_append, List.length_map, fixed_length]
  rfl

theorem panicVgaPrintHex_eq (n : U32) (x y : Int) (attr : U8) (v : PanicVga) :
    panicVgaPrintHex n x y attr v = panicText (hexText n) x y attr v := by
  obtain ⟨c, hc, hcells⟩ := panicHexBuffer_eq n
  have hnul : 0 ∉ hexText n := by
    rw [hexText, List.mem_append, not_or]
    exact ⟨by decide, text_nul (by decide) fun d hd => fixed_lt (by decide) hd⟩
  have hload : loadStr c 0 = some (hexText n) := loadStr_eq (q := []) hnul hcells
  rw [panicVgaPrintHex, hc]
  show (loadStr c 0).bind _ = _
  rw [hload]
  rfl

/-! ## The frames -/

/-- The bytes of the cells that a trace of `n` rows writes. -/
def TraceBytes (n : Nat) (a : U32) : Prop :=
  TextBytes 2 8 12 a ∨ ∃ i < n, TextBytes 4 (9 + i) 3 a ∨ TextBytes 8 (9 + i) 10 a

/-- None of the words is in those cells. -/
def OffTrace (n : Nat) (words : List U32) : Prop :=
  ∀ a ∈ words, ∀ i < 4, ¬ TraceBytes n (a + BitVec.ofNat 32 i)

section
variable {m : PhysMem} {n k i : Nat} {frame : U32} {v : PanicVga}

theorem read_offTrace {words : List U32} (hoff : OffTrace n words)
    (ht : Touches (TraceBytes n) m v.mem) {a : U32} (ha : a ∈ words) :
    v.mem.read32 a = m.read32 a := by
  have hbytes : readLE v.mem a 4 = readLE m a 4 :=
    readLE_congr fun i hi => ht _ (hoff a ha i hi)
  rw [PhysMem.read32, PhysMem.read32, hbytes]

theorem frameText_eq {i : Nat} (hi : i < 5) :
    cstr [chr '[', chr '0' + BitVec.ofNat 8 i, chr ']'] = frameText i ∧
      Printable (frameText i) := by
  have hall : ∀ i < 5, cstr [chr '[', chr '0' + BitVec.ofNat 8 i, chr ']'] = frameText i ∧
      ∀ c ∈ frameText i, c ≠ chr '\n' ∧ c.msb = false := by decide
  exact hall i hi

/-- A round that shows a row. -/
theorem traceLoop_round {k i : Nat} {frame ra : U32} {v w u : PanicVga} (hnull : frame ≠ 0)
    (hra : v.mem.read32 (frame + 4) = ra) (hzero : ra ≠ 0)
    (hw : panicText (cstr [chr '[', chr '0' + BitVec.ofNat 8 i, chr ']']) 4 (9 + i) 0x0E v =
      some w)
    (hu : panicVgaPrintHex ra 8 (9 + i) 0x0F w = some u) :
    traceLoop (k + 1) i frame v = traceLoop k (i + 1) (u.mem.read32 frame) u := by
  subst hra
  rw [traceLoop, if_neg hnull]
  refine (if_neg hzero).trans ?_
  show (panicText _ _ _ _ v).bind _ = _
  rw [hw]
  show (panicVgaPrintHex _ _ _ _ w).bind _ = _
  rw [hu]
  rfl

/-- One row: the number, then the address. -/
theorem traceRow (hi : i < 5) (ra : U32) (v : PanicVga) :
    ∃ w u, panicText (cstr [chr '[', chr '0' + BitVec.ofNat 8 i, chr ']']) 4 (9 + i) 0x0E v =
        some w ∧ panicVgaPrintHex ra 8 (9 + i) 0x0F w = some u ∧
      WritesText (frameText i) 4 (9 + i) 0x0E v w ∧
      WritesText (hexText ra) 8 (9 + i) 0x0F w u := by
  obtain ⟨hnum, hprint⟩ := frameText_eq hi
  have hhex := hexText_length ra
  obtain ⟨w, hw, hwrites⟩ := panicText_row hprint (x := 4) (y := 9 + i) (by decide) (by omega)
    (show 4 + 3 ≤ 80 by decide) 0x0E v
  obtain ⟨u, hu, hwrites'⟩ := panicText_row (printable_hexText ra) (x := 8) (y := 9 + i)
    (by decide) (by omega) (by omega) 0x0F w
  refine ⟨w, u, ?_, ?_, hwrites, hwrites'⟩
  · rw [hnum]
    exact hw
  · rw [panicVgaPrintHex_eq]
    exact hu

/-- The rows of a trace that begins in row `9 + i`. -/
structure RowsShown (i : Nat) (ras : List U32) (v w : PanicVga) : Prop where
  numbers : ∀ j < ras.length, ShowsAt (screenOf w.mem) 4 (9 + (i + j)) 0x0E (frameText (i + j))
  addresses : ∀ j (hj : j < ras.length),
    ShowsAt (screenOf w.mem) 8 (9 + (i + j)) 0x0F (hexText ras[j])
  others : ∀ c, (∀ j < ras.length, ¬ InText 4 (9 + (i + j)) 3 c ∧
    ¬ InText 8 (9 + (i + j)) 10 c) → (screenOf w.mem)[c]? = (screenOf v.mem)[c]?

theorem rowsShown_nil (i : Nat) (v : PanicVga) : RowsShown i [] v v :=
  ⟨fun j hj => absurd hj (Nat.not_lt_zero j), fun j hj => absurd hj (Nat.not_lt_zero j),
    fun _ _ => rfl⟩

/-- One row, and the ones below it. -/
theorem RowsShown.cons {ra : U32} {ras : List U32} {w u z : PanicVga}
    (hnumber : WritesText (frameText i) 4 (9 + i) 0x0E v w)
    (haddress : WritesText (hexText ra) 8 (9 + i) 0x0F w u) (h : RowsShown (i + 1) ras u z) :
    RowsShown i (ra :: ras) v z := by
  have hlen := hexText_length ra
  have hlen' : (frameText i).length = 3 := rfl
  have hrow : ∀ c, c < 80 * (9 + i) + 18 → (screenOf z.mem)[c]? = (screenOf u.mem)[c]? := by
    intro c hc
    refine h.others c fun j hj => ⟨?_, ?_⟩ <;>
    · rw [InText]
      omega
  have hshift : ∀ j, i + (j + 1) = i + 1 + j := fun j => by omega
  refine ⟨fun j hj => ?_, fun j hj => ?_, fun c hc => ?_⟩
  · cases j with
    | zero =>
        refine hnumber.shows.keep fun c hc => ?_
        rw [InText] at hc
        refine (hrow c (by omega)).trans (haddress.others c ?_)
        rw [InText]
        omega
    | succ j =>
        rw [hshift]
        exact h.numbers j (Nat.lt_of_succ_lt_succ hj)
  · cases j with
    | zero =>
        refine haddress.shows.keep fun c hc => hrow c ?_
        rw [InText] at hc
        omega
    | succ j =>
        rw [hshift]
        exact h.addresses j (Nat.lt_of_succ_lt_succ hj)
  · have hfirst := hc 0 (Nat.succ_pos _)
    refine (h.others c fun j hj => ?_).trans ((haddress.others c ?_).trans
      (hnumber.others c hfirst.1))
    · rw [← hshift]
      exact hc (j + 1) (Nat.succ_lt_succ hj)
    · rw [hlen]
      exact hfirst.2

theorem traceLoop_spec (hk : i + k ≤ 5) (hn : i + (returnAddresses m k frame).length ≤ n)
    (ht : Touches (TraceBytes n) m v.mem) (hoff : OffTrace n (chainWords m k frame)) :
    ∃ w, traceLoop k i frame v = some w ∧ RowsShown i (returnAddresses m k frame) v w := by
  induction k generalizing i frame v with
  | zero => exact ⟨v, rfl, rowsShown_nil i v⟩
  | succ k ih =>
      rw [chainWords] at hoff
      rw [returnAddresses] at hn ⊢
      by_cases hnull : frame = 0
      · rw [traceLoop, if_pos (Or.inl hnull), if_pos hnull]
        exact ⟨v, rfl, rowsShown_nil i v⟩
      rw [if_neg hnull] at hoff
      have hra : v.mem.read32 (frame + 4) = m.read32 (frame + 4) := by
        refine read_offTrace hoff ht ?_
        split <;> exact List.mem_cons_self
      generalize m.read32 (frame + 4) = ra at *
      by_cases hzero : ra = 0
      · rw [traceLoop, if_neg hnull, hra, if_pos (Or.inr hzero)]
        exact ⟨v, if_pos hzero, rowsShown_nil i v⟩
      have hgo : ¬ (frame = 0 ∨ ra = 0) := not_or.2 ⟨hnull, hzero⟩
      rw [if_neg hgo] at hn ⊢
      rw [if_neg hzero] at hoff
      rw [List.length_cons] at hn
      obtain ⟨w, u, hw, hu, hnumber, haddress⟩ := traceRow (i := i) (by omega) ra v
      have hin : i < n := by omega
      have htouch : Touches (TraceBytes n) m u.mem := by
        refine ht.trans ((hnumber.touches.mono fun a ha => ?_).trans
          (haddress.touches.mono fun a ha => ?_))
        · exact Or.inr ⟨i, hin, Or.inl ha⟩
        · rw [hexText_length] at ha
          exact Or.inr ⟨i, hin, Or.inr ha⟩
      have hnext : u.mem.read32 frame = m.read32 frame :=
        read_offTrace hoff htouch (List.mem_cons_of_mem _ List.mem_cons_self)
      obtain ⟨z, hz, hrest⟩ := ih (i := i + 1) (by omega) (by omega)
        htouch fun a ha => hoff a (List.mem_cons_of_mem _ (List.mem_cons_of_mem _ ha))
      refine ⟨z, ?_, RowsShown.cons hnumber haddress hrest⟩
      rw [traceLoop_round hnull hra hzero hw hu, hnext]
      exact hz

/-- The heading. -/
theorem traceHeading (v : PanicVga) :
    ∃ w, panicText (ascii "stack trace:") 2 8 0x0C v = some w ∧
      WritesText (ascii "stack trace:") 2 8 0x0C v w := by
  have hprint : ∀ c ∈ ascii "stack trace:", c ≠ chr '\n' ∧ c.msb = false := by decide
  exact panicText_row hprint (by decide) (by decide) (by decide) 0x0C v

/-- The chain of the memory at the start is what is shown, as long as none of its
words lies in the cells that are written. -/
theorem printStackTrace_shown {ebp : U32}
    (hoff : OffTrace (returnAddresses v.mem 5 ebp).length (chainWords v.mem 5 ebp)) :
    ∃ w, printStackTrace ebp 5 v = some w ∧
      TraceShown (returnAddresses v.mem 5 ebp) (screenOf v.mem) (screenOf w.mem) := by
  obtain ⟨u, hu, hheading⟩ := traceHeading v
  have htouch : Touches (TraceBytes (returnAddresses v.mem 5 ebp).length) v.mem u.mem :=
    hheading.touches.mono fun a ha => Or.inl ha
  obtain ⟨w, hw, hrows⟩ := traceLoop_spec (i := 0) (Nat.le_refl 5) (Nat.le_of_eq (Nat.zero_add _))
    htouch hoff
  refine ⟨w, ?_, hheading.shows.keep fun j hj => hrows.others j fun i hi => ?_, fun i hi => ?_,
    fun i hi => ?_, fun j hj => ?_⟩
  · rw [printStackTrace, hu]
    exact hw
  · have hj' : InText 2 8 12 j := hj
    rw [InText] at hj'
    constructor <;>
    · rw [InText]
      omega
  · have h := hrows.numbers i hi
    rwa [Nat.zero_add] at h
  · have h := hrows.addresses i hi
    rwa [Nat.zero_add] at h
  · refine (hrows.others j fun i hi => ?_).trans (hheading.others j fun h => hj (Or.inl h))
    rw [Nat.zero_add]
    exact ⟨fun h => hj (Or.inr ⟨i, hi, Or.inl h⟩), fun h => hj (Or.inr ⟨i, hi, Or.inr h⟩)⟩

/-- Frames below the text buffer. -/
theorem offTrace_low {words : List U32} (h : ∀ a ∈ words, a.toNat + 4 ≤ 0xB8000) :
    OffTrace n words := by
  intro a ha i hi hin
  have hlow := h a ha
  have haddr := offset_toNat hi (a := a) (by omega)
  obtain hin | ⟨j, -, hin | hin⟩ := hin <;>
  · rw [TextBytes, Within, haddr] at hin
    omega

/-! ## Any frames -/

theorem panicText_above (text : List U8) {x : Nat} (hx : x < 80) (y : Nat) (attr : U8)
    (v : PanicVga) :
    ∃ w, panicText text x y attr v = some w ∧
      ∀ c < 80 * y, (screenOf w.mem)[c]? = (screenOf v.mem)[c]? := by
  obtain ⟨-, -, hothers, -⟩ := panicVgaPrintStr_screen text hx y attr v
  refine ⟨_, rfl, fun c hc => hothers c fun g hg => ?_⟩
  have := (layout_start hx hx g (List.mem_filter.1 hg).1).1
  omega

/-- Whatever the chain is, nothing above the first row changes. -/
theorem traceLoop_above (k i : Nat) (frame : U32) (v : PanicVga) :
    ∃ w, traceLoop k i frame v = some w ∧
      ∀ c < 80 * (9 + i), (screenOf w.mem)[c]? = (screenOf v.mem)[c]? := by
  induction k generalizing i frame v with
  | zero => exact ⟨v, rfl, fun _ _ => rfl⟩
  | succ k ih =>
      by_cases hnull : frame = 0
      · rw [traceLoop, if_pos hnull]
        exact ⟨v, rfl, fun _ _ => rfl⟩
      by_cases hzero : v.mem.read32 (frame + 4) = 0
      · rw [traceLoop, if_neg hnull]
        exact ⟨v, if_pos hzero, fun _ _ => rfl⟩
      obtain ⟨w, hw, habove⟩ := panicText_above
        (cstr [chr '[', chr '0' + BitVec.ofNat 8 i, chr ']']) (x := 4) (by decide) (9 + i) 0x0E v
      obtain ⟨u, hu, habove'⟩ := panicText_above (hexText (v.mem.read32 (frame + 4)))
        (x := 8) (by decide) (9 + i) 0x0F w
      obtain ⟨z, hz, hrest⟩ := ih (i + 1) (u.mem.read32 frame) u
      refine ⟨z, ?_, fun c hc => ?_⟩
      · rw [traceLoop_round hnull rfl hzero hw ((panicVgaPrintHex_eq ..).trans hu)]
        exact hz
      · exact (hrest c (by omega)).trans ((habove' c hc).trans (habove c hc))

end

/-- A frame at 0x9000 that was called from 0x100400, in one at 0x9100 that was called from
0x100200. -/
def twoFrames : PanicVga where
  mem := ByteMem.write (ByteMem.write (fun _ => 0) 0x9000 (bytes32 0x9100 ++ bytes32 0x100400))
    0x9104 (bytes32 0x100200)
  stored := []

theorem printStackTrace_shown_two : ∃ w, printStackTrace 0x9000 5 twoFrames = some w ∧
    TraceShown [0x100400, 0x100200] (screenOf twoFrames.mem) (screenOf w.mem) := by
  have hwords : chainWords twoFrames.mem 5 0x9000 = [0x9004, 0x9000, 0x9104, 0x9100] := by decide
  have hchain : returnAddresses twoFrames.mem 5 0x9000 = [0x100400, 0x100200] := by decide
  have hlow : ∀ a ∈ [(0x9004 : U32), 0x9000, 0x9104, 0x9100], a.toNat + 4 ≤ 0xB8000 := by
    simp only [List.forall_mem_cons]
    exact ⟨by decide, by decide, by decide, by decide, List.forall_mem_nil _⟩
  rw [← hchain]
  exact printStackTrace_shown (offTrace_low (hwords ▸ hlow))

theorem read16_zero {m : PhysMem} {a : U32} (h : m.read32 a = 0) : m.read16 a = 0 := by
  have hzero : readLE m a 4 = 0 := by
    have := congrArg BitVec.toNat h
    rwa [PhysMem.read32, toNat_ofNat_of_lt (readLE_lt m a 4)] at this
  have hhalf : readLE m a 2 = 0 := by
    simp only [readLE] at hzero ⊢
    omega
  rw [PhysMem.read16, hhalf]
  rfl

/-- A frame whose return address lies under the heading, in empty memory: there is
no chain, but a row is shown. -/
theorem printStackTrace_screen : ¬ ∃ w, printStackTrace 0xB8500 5 blankVga = some w ∧
    TraceShown (returnAddresses blankVga.mem 5 0xB8500) (screenOf blankVga.mem)
      (screenOf w.mem) := by
  have hchain : returnAddresses blankVga.mem 5 0xB8500 = [] := by decide
  rintro ⟨z, hz, hshown⟩
  rw [hchain] at hshown
  obtain ⟨v, hv, hheading⟩ := traceHeading blankVga
  have hcell := hheading.shows 0 (by decide)
  have hread : v.mem.read32 (0xB8500 + 4) ≠ 0 := by
    intro hzero
    have hlt : 80 * 8 + 2 + 0 < (screenOf v.mem).length := by
      rw [screenOf_length]
      decide
    rw [List.getElem?_eq_getElem hlt, screenOf_getElem] at hcell
    have hsame : v.mem.read16 (cellAddr (80 * 8 + 2 + 0)) = 0 := read16_zero hzero
    rw [hsame] at hcell
    exact absurd hcell (by decide)
  obtain ⟨w, u, hw, hu, hnumber, haddress⟩ :=
    traceRow (i := 0) (by decide) (v.mem.read32 (0xB8500 + 4)) v
  obtain ⟨z', hz', habove⟩ := traceLoop_above 4 1 (u.mem.read32 0xB8500) u
  have hrun : printStackTrace 0xB8500 5 blankVga = some z' := by
    rw [printStackTrace, hv]
    show traceLoop 5 0 0xB8500 v = some z'
    rw [traceLoop_round (by decide) rfl hread hw hu]
    exact hz'
  obtain rfl := Option.some.inj (hz.symm.trans hrun)
  have hsame : (screenOf z.mem)[724]? = (screenOf blankVga.mem)[724]? := by
    refine hshown.others 724 ?_
    rintro (h | ⟨i, hi, -⟩)
    · rw [InText] at h
      omega
    · exact Nat.not_lt_zero i hi
  have hrow : (screenOf z.mem)[724]? = some (Terminal.cell 0x0E (chr '[')) := by
    refine (habove 724 (by decide)).trans ((haddress.others 724 fun h => ?_).trans
      (hnumber.shows 0 (Nat.succ_pos 2)))
    rw [InText] at h
    omega
  have hlt : 724 < (screenOf blankVga.mem).length := by
    rw [screenOf_length]
    decide
  rw [List.getElem?_eq_getElem hlt, screenOf_getElem, hrow] at hsame
  exact absurd hsame (by decide)

end MicroKernel.Proofs
