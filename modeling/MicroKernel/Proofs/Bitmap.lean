import Mathlib.Data.List.Induction
import MicroKernel.Lib.PackedBits
import MicroKernel.Spec.PageSet

/-!
# The bitmap and the set of pages

Each call changes one bit of one byte, so the bitmap after any calls is the set
of pages that the calls leave marked. The bytes that the pages share keep the
other bits: of the 32 bits the mask is applied to, the lower eight come back.
-/

namespace MicroKernel.Proofs

open PackedBits MicroKernel.Core Spec

theorem pageMask_bit (i : U32) : ∀ k < 32, (pageMask i).getLsbD k = decide (k = i.toNat % 8) := by
  intro k hk
  have hbit : ((i % 8).setWidth 8).toNat = i.toNat % 8 := by
    rw [BitVec.toNat_setWidth, BitVec.toNat_umod]
    show i.toNat % 8 % 256 = _
    omega
  show (1#32 <<< ((i % 8).setWidth 8).toNat).getLsbD k = _
  rw [hbit, BitVec.getLsbD_shiftLeft, BitVec.getLsbD_one]
  grind

section
variable {s : PageBitmap} {i : U32}

/-- The bit of a page. -/
def pageBit (s : PageBitmap) (i : U32) : Bool := bitAt s.pmmMemoryBitmap.cells i.toNat

theorem byteIndex_toNat (i : U32) : (i / 8).toNat = i.toNat / 8 := BitVec.toNat_udiv

/-- The byte of a page that exists. -/
theorem byteIndex_lt (hN : s.pmmTotalPages.toNat ≤ pmmTotalPages) (hi : ¬ s.pmmTotalPages ≤ i) :
    i.toNat / 8 < pmmBitmapSize := by
  have hmax : pmmTotalPages = 8 * pmmBitmapSize := by decide
  rw [BitVec.not_le, BitVec.lt_def] at hi
  omega

theorem load_byte (hN : s.pmmTotalPages.toNat ≤ pmmTotalPages) (hi : ¬ s.pmmTotalPages ≤ i) :
    s.pmmMemoryBitmap.load (i / 8).toNat =
      some (s.pmmMemoryBitmap.cells.getD (i.toNat / 8) 0) := by
  rw [byteIndex_toNat]
  exact CArray.load_lt (byteIndex_lt hN hi) 0

/-- A call on a page, by what `op` does to a bit. -/
theorem markPage_spec (op : U32 → U32 → U32) {b : Bool}
    (hop : ∀ v m : U32, ∀ k < 8, (op v m).getLsbD k =
      if m.getLsbD k then b else v.getLsbD k)
    (hN : s.pmmTotalPages.toNat ≤ pmmTotalPages) :
    ∃ t, markPage op i s = some t ∧ t.pmmTotalPages = s.pmmTotalPages ∧
      (s.pmmTotalPages ≤ i → t = s) ∧
      ∀ j, ¬ s.pmmTotalPages ≤ j → pageBit t j = if j = i then b else pageBit s j := by
  by_cases hi : s.pmmTotalPages ≤ i
  · refine ⟨s, if_pos hi, rfl, fun _ => rfl, fun j hj => ?_⟩
    rw [if_neg fun h : j = i => hj (h ▸ hi)]
  · have hlt := byteIndex_lt hN hi
    obtain ⟨v, hv⟩ : ∃ v : U8, v = (op ((s.pmmMemoryBitmap.cells.getD (i.toNat / 8) 0).setWidth 32)
      (pageMask i)).setWidth 8 := ⟨_, rfl⟩
    have hputs : Puts s.pmmMemoryBitmap.cells i.toNat b v := by
      intro k hk
      have hk' : k < 32 := Nat.lt_trans hk (by decide)
      rw [hv, BitVec.getLsbD_setWidth, decide_eq_true hk, Bool.true_and, hop _ _ k hk,
        pageMask_bit i k hk', BitVec.getLsbD_setWidth, decide_eq_true hk', Bool.true_and]
      simp only [decide_eq_true_iff]
    obtain ⟨a, ha, hcells⟩ := CArray.store_lt (a := s.pmmMemoryBitmap) hlt v
    rw [← byteIndex_toNat] at ha
    refine ⟨{ s with pmmMemoryBitmap := a }, ?_, rfl, fun h => absurd h hi, fun j _ => ?_⟩
    · rw [markPage, if_neg hi]
      show Option.bind (s.pmmMemoryBitmap.load (i / 8).toNat) _ = _
      rw [load_byte hN hi, Option.bind_some, ← hv]
      show Option.bind (s.pmmMemoryBitmap.store (i / 8).toNat v) _ = _
      rw [ha, Option.bind_some]
    · have hlt' : i.toNat / 8 < s.pmmMemoryBitmap.cells.length := by
        rw [s.pmmMemoryBitmap.size]
        exact hlt
      rw [pageBit, hcells, bitAt_set (by decide) hlt' hputs, pageBit]
      simp only [BitVec.toNat_inj]

theorem bitmapCall_spec (c : BitmapCall) (hN : s.pmmTotalPages.toNat ≤ pmmTotalPages) :
    ∃ t, c.run s = some t ∧ t.pmmTotalPages = s.pmmTotalPages ∧
      (s.pmmTotalPages ≤ c.pageIndex → t = s) ∧
      ∀ j, ¬ s.pmmTotalPages ≤ j →
        pageBit t j = if j = c.pageIndex then marks c else pageBit s j := by
  cases c with
  | set i =>
      refine markPage_spec (fun v m => v ||| m) (fun v m k _ => ?_) hN
      rw [BitVec.getLsbD_or]
      cases m.getLsbD k <;> simp [marks]
  | unset i =>
      refine markPage_spec (fun v m => v &&& ~~~m) (fun v m k hk => ?_) hN
      have hk' : k < 32 := Nat.lt_trans hk (by decide)
      rw [BitVec.getLsbD_and, BitVec.getLsbD_not, decide_eq_true hk', Bool.true_and]
      cases m.getLsbD k <;> simp [marks]

/-- The masked byte is not zero exactly where the bit is set. -/
theorem masked_ne_zero (b : U8) (i : U32) :
    (b.setWidth 32 &&& pageMask i != 0) = b.getLsbD (i.toNat % 8) := by
  have hall : ∀ k < 32, (b.setWidth 32 &&& pageMask i).getLsbD k =
      (decide (k = i.toNat % 8) && b.getLsbD k) := by
    intro k hk
    rw [BitVec.getLsbD_and, pageMask_bit i k hk, BitVec.getLsbD_setWidth, decide_eq_true hk,
      Bool.true_and, Bool.and_comm]
  have hzero : ∀ k, (0 : U32).getLsbD k = false := fun _ => BitVec.getLsbD_zero
  cases hb : b.getLsbD (i.toNat % 8) with
  | false =>
      rw [bne_eq_false_iff_eq]
      refine BitVec.eq_of_getLsbD_eq fun k hk => ?_
      rw [hall k hk, hzero]
      by_cases h : k = i.toNat % 8
      · rw [h, hb, Bool.and_false]
      · rw [decide_eq_false h, Bool.false_and]
  | true =>
      rw [bne_iff_ne]
      intro h
      have hone := hall (i.toNat % 8) (by omega)
      rw [h, hzero, decide_eq_true rfl, hb] at hone
      cases hone

theorem pmmBitmapTest_eq (hN : s.pmmTotalPages.toNat ≤ pmmTotalPages) :
    pmmBitmapTest i s = some (decide (s.pmmTotalPages ≤ i) || pageBit s i) := by
  by_cases hi : s.pmmTotalPages ≤ i
  · rw [pmmBitmapTest, if_pos hi, decide_eq_true hi, Bool.true_or]
  · rw [pmmBitmapTest, if_neg hi]
    simp only [load_byte hN hi, bind, Option.bind_some]
    rw [masked_ne_zero, decide_eq_false hi, Bool.false_or]
    rfl

/-! ## Runs -/

theorem runCalls_concat (calls : List BitmapCall) (c : BitmapCall) (s : PageBitmap) :
    runCalls (calls ++ [c]) s = (runCalls calls s).bind c.run := by
  rw [runCalls, List.foldlM_append]
  show (runCalls calls s).bind (fun t => (c.run t).bind some) = _
  simp only [Option.bind_fun_some]

/-- After any calls the bits are those of the pages whose last call marks them. -/
theorem runCalls_spec {total : U32} (hN : total.toNat ≤ pmmTotalPages)
    (calls : List BitmapCall) :
    ∃ s, runCalls calls (PageBitmap.clear total) = some s ∧ s.pmmTotalPages = total ∧
      ∀ i, ¬ total ≤ i → (pageBit s i = true ↔ LastSet calls i) := by
  induction calls using List.reverseRecOn with
  | nil =>
      refine ⟨_, rfl, rfl, fun i _ => iff_of_false ?_ (not_lastSet_nil i)⟩
      rw [pageBit, PageBitmap.clear, CArray.fill, bitAt_zeros]
      exact Bool.false_ne_true
  | append_singleton calls c ih =>
      obtain ⟨s, hs, htotal, hbits⟩ := ih
      obtain ⟨t, ht, htotal', -, hbits'⟩ := bitmapCall_spec (s := s) c (htotal ▸ hN)
      refine ⟨t, ?_, htotal'.trans htotal, fun i hi => ?_⟩
      · rw [runCalls_concat, hs, Option.bind_some, ht]
      · rw [hbits' i (htotal ▸ hi), lastSet_concat]
        split
        · exact Iff.rfl
        · exact hbits i hi

/-- The bitmap stands for the set of pages whose last call marks them. A call is
about one page, and no access leaves the array. -/
theorem pmmBitmap_refines {total : U32} (hN : total.toNat ≤ pmmTotalPages)
    (calls : List BitmapCall) :
    ∃ s, runCalls calls (PageBitmap.clear total) = some s ∧
      (∀ i, ∃ b, pmmBitmapTest i s = some b ∧ (b = true ↔ total ≤ i ∨ LastSet calls i)) ∧
      ∀ c : BitmapCall, ∃ t, c.run s = some t ∧ (total ≤ c.pageIndex → t = s) ∧
        ∀ j, j ≠ c.pageIndex → pmmBitmapTest j t = pmmBitmapTest j s := by
  obtain ⟨s, hs, rfl, hbits⟩ := runCalls_spec hN calls
  refine ⟨s, hs, fun i => ⟨_, pmmBitmapTest_eq hN, ?_⟩, fun c => ?_⟩
  · rw [Bool.or_eq_true, decide_eq_true_iff]
    by_cases hi : s.pmmTotalPages ≤ i
    · exact iff_of_true (Or.inl hi) (Or.inl hi)
    · rw [hbits i hi]
  · obtain ⟨t, ht, htotal, hsame, hbits'⟩ := bitmapCall_spec c hN
    refine ⟨t, ht, hsame, fun j hj => ?_⟩
    rw [pmmBitmapTest_eq (htotal ▸ hN), pmmBitmapTest_eq hN, htotal]
    by_cases hlt : s.pmmTotalPages ≤ j
    · rw [decide_eq_true hlt, Bool.true_or, Bool.true_or]
    · rw [hbits' j hlt, if_neg hj]

theorem pmmBitmap_refines_shared_byte :
    ∃ s, runCalls [.set 5, .set 6, .unset 5] (PageBitmap.clear 32768) = some s ∧
      (∀ i, ∃ b, pmmBitmapTest i s = some b ∧
        (b = true ↔ (32768 : U32) ≤ i ∨ LastSet [.set 5, .set 6, .unset 5] i)) ∧
      ∀ c : BitmapCall, ∃ t, c.run s = some t ∧ ((32768 : U32) ≤ c.pageIndex → t = s) ∧
        ∀ j, j ≠ c.pageIndex → pmmBitmapTest j t = pmmBitmapTest j s :=
  pmmBitmap_refines (show (32768 : U32).toNat ≤ pmmTotalPages by decide) _

end

end MicroKernel.Proofs
