import MicroKernel.Proofs.HexText
import MicroKernel.Proofs.PmmSafety

/-!
# What `kernel_main` shows

Its last lines are three pages of the memory manager, each through `hex_to_str`,
which puts the digits of a number down backwards. A page begins at a multiple
of 4096 and, the kernel being loaded at 1 MiB, not below that: its digits in the
two directions are never the same, so no page is shown at its address.
-/

namespace MicroKernel.Proofs

open Kernel MicroKernel.Core Spec Numeral

/-- The eight digits of `p`, the last one first. -/
def backwards (p : U32) : List U8 := ((fixed 16 8 p.toNat).map upperDigit).reverse

def pageLines (t : PageTest) (p : U32) : List Draw := t.draws (ascii "0x" ++ backwards p)

theorem testPages_eq (tests : List PageTest) (s : Pmm) (buffer : CArray U8 11) :
    testPages tests s buffer =
      some ((List.zipWith pageLines tests
          (pmmRun s (List.replicate tests.length .alloc)).1).flatten,
        (pmmRun s (List.replicate tests.length .alloc)).2) := by
  induction tests generalizing s buffer with
  | nil => rfl
  | cons t tests ih =>
      have hroom : 0 + 10 < 11 := by decide
      obtain ⟨b, hb, htext⟩ := hexToStr_spec (a := buffer) (pmmAllocPage s).1 hroom
      rw [List.length_cons, List.replicate_succ, pmmRun_alloc]
      simp only [testPages, hb, htext, ih, Option.bind_eq_bind, Option.bind_some,
        List.zipWith_cons_cons, List.flatten_cons]
      rfl

/-! ## Pages shown -/

theorem readNumeral_backwards (p : U32) :
    readNumeral 16 (backwards p) = p.toNat ↔ ∀ i < 8, nibble p i = nibble p (7 - i) := by
  have hread : ∀ d, d < 16 → digitValue (upperDigit d) = d := fun d hd =>
    digitValue_upperDigit d (by omega)
  rw [backwards, ← List.map_reverse, readNumeral_map hread fun d hd =>
    fixed_lt (by decide) (List.mem_reverse.1 hd), reverse_reads_iff, palindrome_iff]

/-- The three digits of a page's address that are zero would be its first three. -/
theorem page_backwards {p : U32} (hpage : p.toNat % 4096 = 0) (hlow : p = 0 ∨ 0x100000 ≤ p.toNat) :
    readNumeral 16 (backwards p) = p.toNat ↔ p = 0 := by
  rw [readNumeral_backwards]
  constructor
  · intro h
    refine hlow.resolve_right fun hge => ?_
    have hlt := p.isLt
    have hdigit : ∀ i < 8, p.toNat / 16 ^ i % 16 = p.toNat / 16 ^ (7 - i) % 16 := by
      intro i hi
      rw [← nibble_toNat, ← nibble_toNat, h i hi]
    have h0 := hdigit 0 (by decide)
    have h1 := hdigit 1 (by decide)
    have h2 := hdigit 2 (by decide)
    omega
  · rintro rfl
    decide

/-- The `i`-th page that `kernel_main` is given. -/
def mainPage (es : List MapEntry) (kernelEnd : U32) (i : Nat) : U32 :=
  BitVec.ofNat 32 (answer (firstPage kernelEnd.toNat) (regionEnd es) i)

section
variable {m : PhysMem} {mbd : MultibootInfo} {es : List MapEntry} {kernelEnd : U32} {s : Pmm}

/-- No page of the three is beyond the last of the address space, so the two
ways in which a run goes are one. -/
theorem Started.mainPages (h : Started es kernelEnd s) (hhigh : kernelEnd.toNat ≤ 0xFFFFC000) :
    (pmmRun s (List.replicate 3 .alloc)).1 = (List.range 3).map (mainPage es kernelEnd) := by
  obtain hend | hend := Nat.lt_or_ge (regionEnd es) 0xFFFFF000
  · rw [h.results hend, allocs_replicate]
    rfl
  · rw [h.results_wrap hend, allocs_replicate]
    refine List.map_congr_left fun i hi => ?_
    have hi3 := List.mem_range.1 hi
    have hstart : firstPage kernelEnd.toNat ≤ 0xFFFFC000 := by
      rw [firstPage]
      omega
    rw [mainPage, answer_of_fits (by omega)]

theorem mainPage_shown (hlow : 0x100000 ≤ kernelEnd.toNat) (hhigh : kernelEnd.toNat ≤ 0xFFFFC000)
    {i : Nat} (hi : i < 3) :
    readNumeral 16 (backwards (mainPage es kernelEnd i)) = (mainPage es kernelEnd i).toNat ↔
      regionEnd es < firstPage kernelEnd.toNat + 4096 * (i + 1) := by
  have hmod := firstPage_mod kernelEnd.toNat
  have hstart := le_firstPage (Nat.le_trans hhigh (by decide))
  have hend : firstPage kernelEnd.toNat ≤ 0xFFFFC000 := by
    rw [firstPage]
    omega
  by_cases hfits : firstPage kernelEnd.toNat + 4096 * i + 4096 ≤ regionEnd es
  · have hpage : (mainPage es kernelEnd i).toNat = firstPage kernelEnd.toNat + 4096 * i := by
      rw [mainPage, answer_of_fits hfits, toNat_ofNat_of_lt (by omega)]
    rw [page_backwards (by omega) (Or.inr (by omega)), ← BitVec.toNat_inj, hpage]
    have hzero : (0 : U32).toNat = 0 := rfl
    omega
  · have hnull : mainPage es kernelEnd i = 0 := by
      rw [mainPage, answer_of_full hfits]
      rfl
    rw [hnull, page_backwards (by decide) (Or.inl rfl)]
    exact iff_of_true rfl (by omega)

theorem initPmm_answers (hmap : LaidOut m mbd es) (kernelEnd : U32) :
    ∃ fuel r, initPmm fuel m mbd kernelEnd = some r ∧
      ((∃ e, r = .error e) ↔
        mbd.flags &&& mbootFlagMmap = 0 ∨ regionEnd es ≤ firstPage kernelEnd.toNat) := by
  by_cases hflag : mbd.flags &&& mbootFlagMmap = 0
  · exact ⟨0, _, if_pos hflag, iff_of_true ⟨_, rfl⟩ (Or.inl hflag)⟩
  · obtain ⟨visited, w, hrun, -, -, hbest⟩ := walk_laidOut hmap
    have hinit := initPmm_eq hflag hrun kernelEnd
    refine ⟨_, _, hinit, ?_⟩
    have hend : (w.bestRegionBase.setWidth 32 + w.bestRegionLen.setWidth 32).toNat =
        regionEnd es := by
      rw [regionEnd, ← hbest, bestOf, BitVec.toNat_add, BitVec.toNat_setWidth,
        BitVec.toNat_setWidth, ← Nat.add_mod]
    rw [or_iff_right hflag, ← hend, ← alignUp_toNat, ← BitVec.le_def]
    constructor
    · rintro ⟨e, he⟩
      refine BitVec.not_lt.1 fun hlt => ?_
      rw [pmmSetup, if_neg (BitVec.not_le.2 hlt)] at he
      cases he
    · exact fun hle => ⟨_, pmmSetup_panic hle⟩

/-- Where it does not stop, `kernel_main` has announced three pages, and shows a
number that is the page's address only in a row whose page it has not been
given. -/
theorem kernelMain_backwards (hmap : LaidOut m mbd es) (hlow : 0x100000 ≤ kernelEnd.toNat)
    (hhigh : kernelEnd.toNat ≤ 0xFFFFC000) (buffer : CArray U8 11) :
    ∃ fuel log r, kernelMain fuel m mbd kernelEnd buffer = some (log, r) ∧
      ((∃ e, r = .error e) ↔
        mbd.flags &&& mbootFlagMmap = 0 ∨ regionEnd es ≤ firstPage kernelEnd.toNat) ∧
      (∀ e, r = .error e → log = mainStart) ∧
      ∀ s, r = .ok s →
        log = mainStart ++ mainReady ++ (List.zipWith pageLines pageTests
          ((List.range 3).map (mainPage es kernelEnd))).flatten ∧
        ∀ i < 3, readNumeral 16 (backwards (mainPage es kernelEnd i)) =
          (mainPage es kernelEnd i).toNat ↔
            regionEnd es < firstPage kernelEnd.toNat + 4096 * (i + 1) := by
  obtain ⟨fuel, r, hinit, hstops⟩ := initPmm_answers hmap kernelEnd
  cases r with
  | error e =>
      refine ⟨fuel, mainStart, .error e, ?_, hstops, fun _ _ => rfl, ?_⟩
      · rw [kernelMain, hinit]
        rfl
      · intro s hs
        cases hs
  | ok s =>
      have hpages := testPages_eq pageTests s buffer
      have hthree : pageTests.length = 3 := rfl
      have hok (t : Pmm) : ¬ ∃ e, (.ok t : Except Panic Pmm) = .error e := by
        rintro ⟨e, he⟩
        cases he
      rw [hthree, (initPmm_started hmap hinit).mainPages hhigh] at hpages
      generalize (pmmRun s (List.replicate 3 .alloc)).2 = t at hpages
      have hcode : kernelMain fuel m mbd kernelEnd buffer =
          some (mainStart ++ mainReady ++ (List.zipWith pageLines pageTests
            ((List.range 3).map (mainPage es kernelEnd))).flatten, .ok t) := by
        rw [kernelMain, hinit]
        simp only [Option.bind_eq_bind, Option.bind_some, hpages]
      exact ⟨fuel, _, .ok t, hcode, iff_of_false (hok t) (mt hstops.2 (hok s)),
        fun e he => absurd ⟨e, he⟩ (hok t),
        fun _ _ => ⟨rfl, fun i hi => mainPage_shown hlow hhigh hi⟩⟩

end

/-- A kernel that ends at 2 MiB, on a machine of 15 MiB. -/
theorem kernelMain_backwards_flatMap : ∃ fuel log r,
    kernelMain fuel (storedMap 0x9000 flatMap) (infoOf 0x9000 flatMap) 0x200000
        (CArray.fill 11 0) = some (log, r) ∧
      ((∃ e, r = .error e) ↔ (infoOf 0x9000 flatMap).flags &&& mbootFlagMmap = 0 ∨
        regionEnd flatMap ≤ firstPage (0x200000 : U32).toNat) ∧
      (∀ e, r = .error e → log = mainStart) ∧
      ∀ s, r = .ok s →
        log = mainStart ++ mainReady ++ (List.zipWith pageLines pageTests
          ((List.range 3).map (mainPage flatMap 0x200000))).flatten ∧
        ∀ i < 3, readNumeral 16 (backwards (mainPage flatMap 0x200000 i)) =
          (mainPage flatMap 0x200000 i).toNat ↔
            regionEnd flatMap < firstPage (0x200000 : U32).toNat + 4096 * (i + 1) :=
  kernelMain_backwards flatMap_laidOut (by decide) (by decide) (CArray.fill 11 0)

end MicroKernel.Proofs
