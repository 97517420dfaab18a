import Mathlib.Data.List.Nodup
import MicroKernel.Proofs.PmmAlloc

/-!
# What the allocator hands out

Three properties of every run, each with the exact condition on the map and
the kernel's end under which it holds. All of them are properties of two
numbers, the truncated end of the chosen region and the rounded end of the
kernel, because that is all `init_pmm` keeps: the region's base is dropped, so
nothing ties the pages to the region they are supposed to come from, and both
numbers are taken modulo `2 ^ 32`.
-/

namespace MicroKernel.Proofs

open MicroKernel.Kernel MicroKernel.Spec

theorem alignUp_toNat (k : U32) : (alignUp k).toNat = firstPage k.toNat := by
  have hk := k.isLt
  have hmod : (k % pageSize).toNat = k.toNat % 4096 := BitVec.toNat_umod
  rw [alignUp, firstPage]
  split
  · next hne =>
      have hpos : k.toNat % 4096 ≠ 0 := by
        intro hz
        exact hne (BitVec.eq_of_toNat_eq (hmod.trans hz))
      have hval : ((k / pageSize + 1) * pageSize).toNat =
          (k.toNat / 4096 + 1) % 2 ^ 32 * 4096 % 2 ^ 32 := by
        rw [BitVec.toNat_mul, BitVec.toNat_add, BitVec.toNat_udiv]
        rfl
      rw [hval]
      omega
  · next hz =>
      have hz' : k.toNat % 4096 = 0 := by
        rw [← hmod, not_not.1 hz]
        rfl
      omega

theorem firstPage_ne_zero {k : Nat} (hk : k < 2 ^ 32) :
    firstPage k ≠ 0 ↔ 0 < k ∧ k ≤ 0xFFFFF000 := by
  rw [firstPage]
  omega

theorem le_firstPage {k : Nat} (hk : k ≤ 0xFFFFF000) : k ≤ firstPage k := by
  rw [firstPage]
  omega

theorem firstPage_mod (k : Nat) : firstPage k % 4096 = 0 := by
  rw [firstPage]
  omega

/-- The state a successful `init_pmm` leaves, in terms of the map. -/
structure Started (es : List MapEntry) (kernelEnd : U32) (s : Pmm) : Prop where
  memoryEnd : s.memoryEnd.toNat = regionEnd es
  currentBreak : s.currentBreak.toNat = firstPage kernelEnd.toNat
  startAddr : s.startAddr = s.currentBreak
  below : firstPage kernelEnd.toNat < regionEnd es

theorem initPmm_started {m : PhysMem} {mbd : MultibootInfo}
    {es : List MapEntry} {fuel : Nat} {kernelEnd : U32} {s : Pmm}
    (hmap : LaidOut m mbd es)
    (hinit : initPmm fuel m mbd kernelEnd = some (.ok s)) :
    Started es kernelEnd s := by
  have hflag : mbd.flags &&& mbootFlagMmap ≠ 0 := by
    intro hz
    rw [initPmm, if_pos hz] at hinit
    cases hinit
  obtain ⟨⟨visited, w⟩, hrun⟩ : ∃ r,
      While.run (walkBody m mbd) fuel (walkStart mbd) = some r := by
    rw [initPmm, if_neg hflag] at hinit
    cases hr : While.run (walkBody m mbd) fuel (walkStart mbd) with
    | none => rw [hr] at hinit; cases hinit
    | some r => exact ⟨r, rfl⟩
  obtain ⟨visited', w', hrun', -, -, hbest⟩ := walk_laidOut hmap
  obtain ⟨rfl, rfl⟩ := Prod.mk.inj (While.run_unique hrun hrun')
  rw [initPmm_eq hflag hrun] at hinit
  obtain ⟨rfl, hlt⟩ := pmmSetup_ok (Option.some.inj hinit)
  have hend : (w.bestRegionBase.setWidth 32 +
      w.bestRegionLen.setWidth 32).toNat = regionEnd es := by
    rw [regionEnd, ← hbest, bestOf, BitVec.toNat_add, BitVec.toNat_setWidth,
      BitVec.toNat_setWidth, ← Nat.add_mod]
  refine ⟨hend, alignUp_toNat kernelEnd, rfl, ?_⟩
  rw [BitVec.lt_def, hend, alignUp_toNat] at hlt
  exact hlt

section Runs

variable {es : List MapEntry} {kernelEnd : U32} {s : Pmm}

theorem Started.break_le (h : Started es kernelEnd s) :
    s.currentBreak ≤ s.memoryEnd := by
  rw [BitVec.le_def, h.currentBreak, h.memoryEnd]
  exact Nat.le_of_lt h.below

/-- The `i`-th answer of a run that stays below the last page. -/
def answer (start limit i : Nat) : Nat :=
  if start + 4096 * i + 4096 ≤ limit then start + 4096 * i else 0

theorem Started.results (h : Started es kernelEnd s)
    (htop : regionEnd es < 0xFFFFF000) (ops : List PmmOp) :
    (pmmRun s ops).1 = (List.range (allocs ops)).map fun i =>
      BitVec.ofNat 32 (answer (firstPage kernelEnd.toNat) (regionEnd es) i) := by
  rw [pmmRun_results (by rw [h.memoryEnd]; exact htop) h.break_le]
  refine List.map_congr_left fun i _ => ?_
  have hroom : i < (arenaOf s).room ↔
      firstPage kernelEnd.toNat + 4096 * i + 4096 ≤ regionEnd es := by
    have hbelow := h.below
    rw [Bump.Arena.room, arenaOf, h.currentBreak, h.memoryEnd]
    simp only []
    omega
  rw [Bump.Arena.grant, answer]
  by_cases hi : i < (arenaOf s).room
  · rw [if_pos hi, if_pos (hroom.1 hi), arenaOf, h.currentBreak]
    rfl
  · rw [if_neg hi, if_neg (mt hroom.2 hi)]
    rfl

theorem answer_lt {start limit i : Nat} (h : limit < 2 ^ 32) :
    answer start limit i < 2 ^ 32 := by
  rw [answer]
  split <;> omega

theorem answer_of_fits {start limit i : Nat}
    (h : start + 4096 * i + 4096 ≤ limit) :
    answer start limit i = start + 4096 * i := if_pos h

theorem answer_of_full {start limit i : Nat}
    (h : ¬ start + 4096 * i + 4096 ≤ limit) : answer start limit i = 0 :=
  if_neg h

theorem answer_inj {start limit i j : Nat} (hne : answer start limit i ≠ 0)
    (heq : answer start limit i = answer start limit j) : i = j := by
  by_cases hi : start + 4096 * i + 4096 ≤ limit
  · by_cases hj : start + 4096 * j + 4096 ≤ limit
    · rw [answer_of_fits hi, answer_of_fits hj] at heq
      omega
    · rw [answer_of_full hj] at heq
      exact absurd heq hne
  · exact absurd (answer_of_full hi) hne

/-- A null answer is the last page's, unless it is page zero itself. -/
theorem answer_stays_zero {start limit i j : Nat} (hij : i ≤ j)
    (hstart : 0 < start ∨ limit < 8192 ∧ i < j)
    (hz : answer start limit i = 0) : answer start limit j = 0 := by
  by_cases hi : start + 4096 * i + 4096 ≤ limit
  · rw [answer_of_fits hi] at hz
    exact answer_of_full (by omega)
  · exact answer_of_full (by omega)

/-- The `i`-th answer of a run past the last page. -/
theorem Started.results_wrap (h : Started es kernelEnd s)
    (htop : 0xFFFFF000 ≤ regionEnd es) (ops : List PmmOp) :
    (pmmRun s ops).1 = (List.range (allocs ops)).map fun i =>
      BitVec.ofNat 32 (firstPage kernelEnd.toNat + 4096 * i) := by
  have hmod := firstPage_mod kernelEnd.toNat
  rw [pmmRun_wraps ops s (by rw [h.memoryEnd]; exact htop)
    (by rw [h.currentBreak]; exact hmod)]
  refine List.map_congr_left fun i _ => ?_
  rw [BitVec.ofNat_add, ← h.currentBreak, BitVec.ofNat_toNat,
    BitVec.setWidth_eq]

theorem mem_replicate {f : Nat → U32} (hf : ∀ ops, (pmmRun s ops).1 =
    (List.range (allocs ops)).map f) (p : U32) :
    (∃ ops, p ∈ (pmmRun s ops).1) ↔ ∃ i, f i = p := by
  constructor
  · intro ⟨ops, hmem⟩
    rw [hf] at hmem
    obtain ⟨i, -, hi⟩ := List.mem_map.1 hmem
    exact ⟨i, hi⟩
  · intro ⟨i, hi⟩
    refine ⟨List.replicate (i + 1) .alloc, ?_⟩
    rw [hf, allocs_replicate]
    exact List.mem_map.2 ⟨i, List.mem_range.2 (Nat.lt_succ_self i), hi⟩

theorem Started.mem_results_below (h : Started es kernelEnd s)
    (htop : regionEnd es < 0xFFFFF000) {p : U32} (hp : p.toNat ≠ 0) :
    (∃ ops, p ∈ (pmmRun s ops).1) ↔ p.toNat % 4096 = 0 ∧
      firstPage kernelEnd.toNat ≤ p.toNat ∧ p.toNat + 4096 ≤ regionEnd es := by
  have hmod := firstPage_mod kernelEnd.toNat
  have hlim : regionEnd es < 2 ^ 32 := Nat.mod_lt _ (by decide)
  rw [mem_replicate (h.results htop)]
  constructor
  · rintro ⟨i, rfl⟩
    rw [BitVec.toNat_ofNat, Nat.mod_eq_of_lt (answer_lt hlim)] at hp ⊢
    rw [answer] at hp ⊢
    split at hp
    · next hfit =>
        rw [if_pos hfit]
        omega
    · exact absurd rfl hp
  · intro ⟨halign, hlo, hhi⟩
    obtain ⟨i, hi⟩ : ∃ i, p.toNat = firstPage kernelEnd.toNat + 4096 * i :=
      ⟨(p.toNat - firstPage kernelEnd.toNat) / 4096, by omega⟩
    have hfit : firstPage kernelEnd.toNat + 4096 * i + 4096 ≤ regionEnd es := by
      omega
    refine ⟨i, ?_⟩
    rw [answer_of_fits hfit, ← hi, BitVec.ofNat_toNat, BitVec.setWidth_eq]

theorem Started.mem_results_wrap (h : Started es kernelEnd s)
    (htop : 0xFFFFF000 ≤ regionEnd es) {p : U32} :
    (∃ ops, p ∈ (pmmRun s ops).1) ↔ p.toNat % 4096 = 0 := by
  have hmod := firstPage_mod kernelEnd.toNat
  have hplt := p.isLt
  rw [mem_replicate (h.results_wrap htop)]
  constructor
  · rintro ⟨i, rfl⟩
    rw [BitVec.toNat_ofNat]
    omega
  · intro halign
    -- once round the address space, so that the start may lie above the page
    obtain ⟨i, hi⟩ : ∃ i, p.toNat + 2 ^ 32 =
        firstPage kernelEnd.toNat + 4096 * i :=
      ⟨(p.toNat + 2 ^ 32 - firstPage kernelEnd.toNat) / 4096, by
        have hbelow := h.below
        have hlim : regionEnd es < 2 ^ 32 := Nat.mod_lt _ (by decide)
        omega⟩
    refine ⟨i, BitVec.eq_of_toNat_eq ?_⟩
    rw [BitVec.toNat_ofNat, ← hi, Nat.add_mod_right, Nat.mod_eq_of_lt hplt]

/-- The page frames some run hands out: those from the start to the end, or,
past the last page, every one there is. -/
theorem Started.mem_results (h : Started es kernelEnd s) {p : U32}
    (hp : p ≠ 0) :
    (∃ ops, p ∈ (pmmRun s ops).1) ↔ p.toNat % 4096 = 0 ∧
      (0xFFFFF000 ≤ regionEnd es ∨
        firstPage kernelEnd.toNat ≤ p.toNat ∧
          p.toNat + 4096 ≤ regionEnd es) := by
  have hp0 : p.toNat ≠ 0 := fun hz => hp (BitVec.eq_of_toNat_eq hz)
  rcases Nat.lt_or_ge (regionEnd es) 0xFFFFF000 with htop | htop
  · rw [h.mem_results_below htop hp0, or_iff_right (Nat.not_le_of_lt htop)]
  · rw [h.mem_results_wrap htop, and_iff_left (Or.inl htop)]

end Runs

/-! ## Usable memory -/

/-- Every page frame the allocator can reach lies in usable memory. Below the
last page those are the frames between the kernel and the truncated end of
the chosen region; otherwise they are all of them. -/
def Backed (es : List MapEntry) (kernelEnd : U32) : Prop :=
  ∀ q : Nat, q % 4096 = 0 → 0 < q → q < 2 ^ 32 →
    (0xFFFFF000 ≤ regionEnd es ∨
      firstPage kernelEnd.toNat ≤ q ∧ q + 4096 ≤ regionEnd es) →
    UsablePage es q

/-- Every page of every run is usable memory exactly when the map has no hole
where the allocator goes. -/
theorem pages_usable_iff {m : PhysMem} {mbd : MultibootInfo}
    {es : List MapEntry} {fuel : Nat} {kernelEnd : U32} {s : Pmm}
    (hmap : LaidOut m mbd es)
    (hinit : initPmm fuel m mbd kernelEnd = some (.ok s)) :
    (∀ ops, ∀ p ∈ (pmmRun s ops).1, p ≠ 0 → UsablePage es p.toNat) ↔
      Backed es kernelEnd := by
  have hs := initPmm_started hmap hinit
  constructor
  · intro h q halign hpos hlt hreach
    have hq : (BitVec.ofNat 32 q).toNat = q := by
      rw [BitVec.toNat_ofNat, Nat.mod_eq_of_lt hlt]
    have hne : BitVec.ofNat 32 q ≠ 0 := by
      intro hz
      rw [hz] at hq
      exact Nat.ne_of_lt hpos hq
    obtain ⟨ops, hmem⟩ :=
      (hs.mem_results hne).2 (by rw [hq]; exact ⟨halign, hreach⟩)
    have hu := h ops _ hmem hne
    rwa [hq] at hu
  · intro h ops p hmem hne
    obtain ⟨halign, hreach⟩ := (hs.mem_results hne).1 ⟨ops, hmem⟩
    refine h p.toNat halign (Nat.pos_of_ne_zero fun hz => hne ?_) p.isLt hreach
    exact BitVec.eq_of_toNat_eq hz

/-- A machine with 16 MiB in one piece, and the kernel inside it. -/
def flatMap : List MapEntry := [plainEntry 0x100000 0xF00000 1]

theorem flatMap_laidOut :
    LaidOut (storedMap 0x9000 flatMap) (infoOf 0x9000 flatMap) flatMap :=
  laidOut_storedMap (by decide)

theorem initPmm_flatMap :
    initPmm 2 (storedMap 0x9000 flatMap) (infoOf 0x9000 flatMap) 0x200000 =
      some (.ok ⟨0x1000000, 0x200000, 0x200000⟩) := by rfl

theorem flatMap_backed : Backed flatMap 0x200000 := by
  intro q halign hpos hlt hreach
  refine ⟨plainEntry 0x100000 0xF00000 1, List.mem_cons_self, rfl, ?_⟩
  have hfirst : firstPage (0x200000 : U32).toNat = 0x200000 := by decide
  have hend : regionEnd flatMap = 0x1000000 := by decide
  rw [hfirst, hend] at hreach
  change 0x100000 ≤ q ∧ q + 4096 ≤ 0x100000 + 0xF00000
  omega

theorem pages_usable_flatMap : Backed flatMap 0x200000 ∧
    ∀ ops, ∀ p ∈ (pmmRun ⟨0x1000000, 0x200000, 0x200000⟩ ops).1, p ≠ 0 →
      UsablePage flatMap p.toNat :=
  ⟨flatMap_backed,
    (pages_usable_iff flatMap_laidOut initPmm_flatMap).2 flatMap_backed⟩

/-- The kernel ends just below the hole of `holeMap`, and the first page it is
given lies in the hole. -/
theorem pages_in_hole : ¬ ∀ (m : PhysMem) (mbd : MultibootInfo)
    (es : List MapEntry) (fuel : Nat) (kernelEnd : U32) (s : Pmm),
    LaidOut m mbd es → initPmm fuel m mbd kernelEnd = some (.ok s) →
    ∀ ops, ∀ p ∈ (pmmRun s ops).1, p ≠ 0 → UsablePage es p.toNat := by
  intro h
  have hinit : initPmm 3 (storedMap 0x9000 holeMap) (infoOf 0x9000 holeMap)
      0xEFFFF0 = some (.ok ⟨0x8000000, 0xF00000, 0xF00000⟩) := by rfl
  obtain ⟨e, he, -, hlo, hhi⟩ := h _ _ _ _ _ _ holeMap_laidOut hinit
    [.alloc] 0xF00000 (by decide) (by decide)
  simp only [holeMap, List.mem_cons, List.not_mem_nil, or_false] at he
  rcases he with rfl | rfl
  · exact absurd hhi (by decide)
  · exact absurd hlo (by decide)

/-! ## Distinct pages, and exhaustion for good -/

/-- What the answers `ps` of a run are supposed to be: page-aligned, above the
kernel, below the end of memory, never repeated, and null from the first null
on. -/
structure RunSound (kernelEnd : U32) (s : Pmm) (ps : List U32) : Prop where
  aligned : ∀ p ∈ ps, p ≠ 0 → p.toNat % 4096 = 0
  aboveKernel : ∀ p ∈ ps, p ≠ 0 → kernelEnd ≤ p
  belowEnd : ∀ p ∈ ps, p ≠ 0 → p.toNat + 4096 ≤ s.memoryEnd.toNat
  distinct : (ps.filter fun p => p ≠ 0).Nodup
  exhausted : ps.Pairwise fun p q => p = 0 → q = 0

section Sound

variable {es : List MapEntry} {kernelEnd : U32} {s : Pmm}

theorem not_pairwise_of_null {f : Nat → U32} {i : Nat} (h0 : f i = 0)
    (h1 : f (i + 1) ≠ 0) :
    ¬ ((List.range (i + 2)).map f).Pairwise fun p q => p = 0 → q = 0 := by
  intro h
  rw [List.pairwise_map, List.pairwise_iff_getElem] at h
  have := h i (i + 1) (by simp) (by simp) (Nat.lt_succ_self i)
  rw [List.getElem_range, List.getElem_range] at this
  exact h1 (this h0)

/-- Past the last page the break reaches zero, the null pointer is returned
for page zero, and the next request gets the second page of memory. -/
theorem Started.revives_wrap (h : Started es kernelEnd s)
    (htop : 0xFFFFF000 ≤ regionEnd es) :
    ∃ ops, ¬ (pmmRun s ops).1.Pairwise fun p q => p = 0 → q = 0 := by
  have hmod := firstPage_mod kernelEnd.toNat
  have hlt : firstPage kernelEnd.toNat < 2 ^ 32 := Nat.mod_lt _ (by decide)
  obtain ⟨i, hi⟩ : ∃ i, firstPage kernelEnd.toNat + 4096 * i = 2 ^ 32 :=
    ⟨(2 ^ 32 - firstPage kernelEnd.toNat) / 4096, by omega⟩
  refine ⟨List.replicate (i + 2) .alloc, ?_⟩
  rw [h.results_wrap htop, allocs_replicate]
  refine not_pairwise_of_null ?_ ?_
  · rw [hi]
    rfl
  · rw [Nat.mul_succ, ← Nat.add_assoc, hi]
    decide

theorem Started.revives_zero (h : Started es kernelEnd s)
    (htop : regionEnd es < 0xFFFFF000)
    (hzero : firstPage kernelEnd.toNat = 0) (hroom : 8192 ≤ regionEnd es) :
    ∃ ops, ¬ (pmmRun s ops).1.Pairwise fun p q => p = 0 → q = 0 := by
  refine ⟨List.replicate 2 .alloc, ?_⟩
  rw [h.results htop, allocs_replicate, hzero]
  refine not_pairwise_of_null (i := 0) ?_ ?_
  · rw [answer, if_pos (by omega)]
    rfl
  · rw [answer, if_pos (by omega)]
    decide

/-- Two answers that are not null come from different requests. -/
theorem Started.nodup_results (h : Started es kernelEnd s)
    (htop : regionEnd es < 0xFFFFF000) (ops : List PmmOp) :
    ((pmmRun s ops).1.filter fun p => p ≠ 0).Nodup := by
  have hlim : regionEnd es < 2 ^ 32 := Nat.mod_lt _ (by decide)
  rw [h.results htop, List.filter_map]
  refine List.Nodup.map_on ?_ (List.nodup_range.filter _)
  intro i hi j hj heq
  have hne : answer (firstPage kernelEnd.toNat) (regionEnd es) i ≠ 0 :=
    mt (ofNat_eq_zero_iff (answer_lt hlim)).2
      (of_decide_eq_true (List.mem_filter.1 hi).2)
  exact answer_inj hne ((ofNat_inj_iff (answer_lt hlim) (answer_lt hlim)).1 heq)

theorem Started.stays_null (h : Started es kernelEnd s)
    (htop : regionEnd es < 0xFFFFF000)
    (hstart : firstPage kernelEnd.toNat ≠ 0 ∨ regionEnd es < 8192)
    (ops : List PmmOp) :
    (pmmRun s ops).1.Pairwise fun p q => p = 0 → q = 0 := by
  have hlim : regionEnd es < 2 ^ 32 := Nat.mod_lt _ (by decide)
  rw [h.results htop, List.pairwise_map]
  refine List.pairwise_lt_range.imp ?_
  intro i j hij hz
  rw [ofNat_eq_zero_iff (answer_lt hlim)] at hz ⊢
  refine answer_stays_zero (Nat.le_of_lt hij) ?_ hz
  rcases hstart with hpos | hsmall
  · exact Or.inl (Nat.pos_of_ne_zero hpos)
  · exact Or.inr ⟨by omega, by omega⟩

/-- Below the last page the answers are pages in order and then nulls. -/
theorem Started.runSound (h : Started es kernelEnd s)
    (htop : regionEnd es < 0xFFFFF000)
    (hstart : firstPage kernelEnd.toNat ≠ 0 ∨ regionEnd es < 8192)
    (ops : List PmmOp) : RunSound kernelEnd s (pmmRun s ops).1 := by
  have hnat : ∀ p : U32, p ≠ 0 → p.toNat ≠ 0 := fun p hne hz =>
    hne (BitVec.eq_of_toNat_eq hz)
  have hreach : ∀ p ∈ (pmmRun s ops).1, p ≠ 0 → p.toNat % 4096 = 0 ∧
      firstPage kernelEnd.toNat ≤ p.toNat ∧ p.toNat + 4096 ≤ regionEnd es :=
    fun p hp hne => (h.mem_results_below htop (hnat p hne)).1 ⟨ops, hp⟩
  refine ⟨fun p hp hne => (hreach p hp hne).1, fun p hp hne => ?_,
    fun p hp hne => ?_, h.nodup_results htop ops, h.stays_null htop hstart ops⟩
  · obtain ⟨halign, hlo, hhi⟩ := hreach p hp hne
    have hp0 := hnat p hne
    rw [BitVec.le_def]
    rcases hstart with hpos | hsmall
    · have hk := (firstPage_ne_zero kernelEnd.isLt).1 hpos
      exact Nat.le_trans (le_firstPage hk.2) hlo
    · omega
  · rw [h.memoryEnd]
    exact (hreach p hp hne).2.2

end Sound

/-- Runs are sound exactly when the end of memory is below the last page and
the first page handed out is not page zero, or is the only one. -/
theorem run_sound_iff {m : PhysMem} {mbd : MultibootInfo}
    {es : List MapEntry} {fuel : Nat} {kernelEnd : U32} {s : Pmm}
    (hmap : LaidOut m mbd es)
    (hinit : initPmm fuel m mbd kernelEnd = some (.ok s)) :
    (∀ ops, RunSound kernelEnd s (pmmRun s ops).1) ↔
      regionEnd es < 0xFFFFF000 ∧
        (0 < kernelEnd.toNat ∧ kernelEnd.toNat ≤ 0xFFFFF000 ∨
          regionEnd es < 8192) := by
  have hs := initPmm_started hmap hinit
  rw [← firstPage_ne_zero kernelEnd.isLt]
  constructor
  · intro h
    have htop : regionEnd es < 0xFFFFF000 := by
      by_contra hge
      obtain ⟨ops, hops⟩ := hs.revives_wrap (Nat.le_of_not_lt hge)
      exact hops (h ops).exhausted
    refine ⟨htop, ?_⟩
    by_contra hnot
    obtain ⟨hzero, hroom⟩ := not_or.1 hnot
    obtain ⟨ops, hops⟩ :=
      hs.revives_zero htop (not_not.1 hzero) (Nat.le_of_not_lt hroom)
    exact hops (h ops).exhausted
  · rintro ⟨htop, hstart⟩ ops
    exact hs.runSound htop hstart ops

theorem run_sound_flatMap : ∃ s, (∀ ops,
    RunSound 0x200000 s (pmmRun s ops).1) ∧ s.currentBreak = 0x200000 :=
  ⟨_, (run_sound_iff flatMap_laidOut initPmm_flatMap).2 (by decide), rfl⟩

/-- One region from the first megabyte to the last page. -/
def topMap : List MapEntry := [plainEntry 0x100000 0xFFEFF000 1]

theorem topMap_laidOut :
    LaidOut (storedMap 0x9000 topMap) (infoOf 0x9000 topMap) topMap :=
  laidOut_storedMap (by decide)

/-- On it the allocator never runs out: after the last page of the address
space it answers null once and starts again from the bottom. -/
theorem run_revives : ¬ ∀ (m : PhysMem) (mbd : MultibootInfo)
    (es : List MapEntry) (fuel : Nat) (kernelEnd : U32) (s : Pmm),
    LaidOut m mbd es → initPmm fuel m mbd kernelEnd = some (.ok s) →
    ∀ ops, RunSound kernelEnd s (pmmRun s ops).1 := by
  intro h
  have hinit : initPmm 2 (storedMap 0x9000 topMap) (infoOf 0x9000 topMap)
      0x200000 = some (.ok ⟨0xFFFFF000, 0x200000, 0x200000⟩) := by rfl
  obtain ⟨ops, hops⟩ :=
    (initPmm_started topMap_laidOut hinit).revives_wrap (by decide)
  exact hops (h _ _ _ _ _ _ topMap_laidOut hinit ops).exhausted

/-! ## Accounting -/

def granted (ps : List U32) : Nat := ps.countP fun p => p ≠ 0

/-- The three getters after a run describe the run and predict the next
request. -/
structure Accounts (s : Pmm) (ops : List PmmOp) : Prop where
  used : (pmmGetUsedMem (pmmRun s ops).2).toNat =
    4096 * granted (pmmRun s ops).1
  bounded : pmmGetUsedMem (pmmRun s ops).2 ≤ pmmGetTotalMem (pmmRun s ops).2
  sum : (pmmGetFreeMemory (pmmRun s ops).2).toNat +
      (pmmGetUsedMemory (pmmRun s ops).2).toNat =
    (pmmGetTotalMem (pmmRun s ops).2).toNat
  next : (pmmAllocPage (pmmRun s ops).2).1 ≠ 0 ↔
    4096 ≤ (pmmGetFreeMemory (pmmRun s ops).2).toNat
  count : granted (pmmRun s ops).1 =
    min (allocs ops) ((pmmGetTotalMem (pmmRun s ops).2).toNat / 4096)

theorem pmmGetUsedMem_toNat {t : Pmm}
    (h : t.startAddr.toNat ≤ t.currentBreak.toNat) :
    (pmmGetUsedMem t).toNat = t.currentBreak.toNat - t.startAddr.toNat := by
  rw [pmmGetUsedMem, if_neg fun hlt => Nat.not_lt_of_le h (BitVec.lt_def.1 hlt),
    BitVec.toNat_sub_of_le (BitVec.le_def.2 h)]

theorem pmmGetTotalMem_toNat {t : Pmm}
    (h : t.startAddr.toNat ≤ t.memoryEnd.toNat) :
    (pmmGetTotalMem t).toNat = t.memoryEnd.toNat - t.startAddr.toNat := by
  by_cases heq : t.memoryEnd ≤ t.startAddr
  · have := BitVec.le_def.1 heq
    rw [pmmGetTotalMem, if_pos heq, Nat.sub_eq_zero_of_le this]
    rfl
  · rw [pmmGetTotalMem, if_neg heq, BitVec.toNat_sub_of_le (BitVec.le_def.2 h)]

theorem pmmGetFreeMemory_toNat {t : Pmm}
    (h : (pmmGetUsedMem t).toNat ≤ (pmmGetTotalMem t).toNat) :
    (pmmGetFreeMemory t).toNat =
      (pmmGetTotalMem t).toNat - (pmmGetUsedMem t).toNat :=
  BitVec.toNat_sub_of_le (BitVec.le_def.2 h)

theorem granted_map_range {f : Nat → U32} {r : Nat}
    (h : ∀ i, f i ≠ 0 ↔ i < r) (n : Nat) :
    granted ((List.range n).map f) = min n r := by
  rw [granted, List.countP_map]
  induction n with
  | zero => rw [Nat.zero_min]; rfl
  | succ n ih =>
      rw [List.range_succ, List.countP_append, ih, List.countP_singleton]
      simp only [Function.comp_apply, decide_eq_true_eq, h]
      split <;> omega

section Accounting

variable {es : List MapEntry} {kernelEnd : U32} {s : Pmm}

theorem Started.after (h : Started es kernelEnd s)
    (htop : regionEnd es < 0xFFFFF000) (ops : List PmmOp) :
    (pmmRun s ops).2.memoryEnd.toNat = regionEnd es ∧
      (pmmRun s ops).2.startAddr.toNat = firstPage kernelEnd.toNat ∧
      (pmmRun s ops).2.currentBreak.toNat = firstPage kernelEnd.toNat +
        4096 * min (allocs ops)
          ((regionEnd es - firstPage kernelEnd.toNat) / 4096) := by
  obtain ⟨-, harena, hend, hstart⟩ :=
    pmmRun_arena ops s (by rw [h.memoryEnd]; exact htop) h.break_le
  have hbreak := congrArg Bump.Arena.next harena
  rw [Bump.Arena.takes_next] at hbreak
  rw [hend, hstart, h.startAddr]
  refine ⟨h.memoryEnd, h.currentBreak, ?_⟩
  rw [← h.memoryEnd, ← h.currentBreak]
  exact hbreak

theorem Started.granted_eq (h : Started es kernelEnd s)
    (htop : regionEnd es < 0xFFFFF000)
    (hstart : firstPage kernelEnd.toNat ≠ 0 ∨ regionEnd es < 4096)
    (ops : List PmmOp) : granted (pmmRun s ops).1 = min (allocs ops)
      ((regionEnd es - firstPage kernelEnd.toNat) / 4096) := by
  have hlim : regionEnd es < 2 ^ 32 := Nat.mod_lt _ (by decide)
  have hbelow := h.below
  rw [h.results htop]
  refine granted_map_range (fun i => ?_) _
  rw [ne_eq, ofNat_eq_zero_iff (answer_lt hlim)]
  by_cases hi : firstPage kernelEnd.toNat + 4096 * i + 4096 ≤ regionEnd es
  · rw [answer_of_fits hi]
    omega
  · rw [answer_of_full hi]
    omega

theorem pmmAllocPage_ne_zero {t : Pmm}
    (htop : t.currentBreak.toNat + 4096 < 2 ^ 32) :
    (pmmAllocPage t).1 ≠ 0 ↔ t.currentBreak.toNat ≠ 0 ∧
      t.currentBreak.toNat + 4096 ≤ t.memoryEnd.toNat := by
  have hsum : (t.currentBreak + pageSize).toNat =
      t.currentBreak.toNat + 4096 := by
    rw [BitVec.toNat_add]
    exact Nat.mod_eq_of_lt htop
  have hzero : t.currentBreak = 0 ↔ t.currentBreak.toNat = 0 :=
    ⟨fun h => by rw [h]; rfl, fun h => BitVec.eq_of_toNat_eq h⟩
  by_cases hfull : t.currentBreak + pageSize > t.memoryEnd
  · have hlt := BitVec.lt_def.1 hfull
    rw [pmmAllocPage_full hfull]
    constructor
    · exact fun hne => absurd rfl hne
    · omega
  · have hle := mt BitVec.lt_def.2 hfull
    rw [pmmAllocPage_grant hfull, ne_eq, hzero]
    constructor
    · exact fun hne => ⟨hne, by omega⟩
    · exact And.left

theorem Started.accounts (h : Started es kernelEnd s)
    (htop : regionEnd es < 0xFFFFF000)
    (hstart : firstPage kernelEnd.toNat ≠ 0 ∨ regionEnd es < 4096)
    (ops : List PmmOp) : Accounts s ops := by
  have hbelow := h.below
  obtain ⟨hend, hfirst, hbreak⟩ := h.after htop ops
  have hgranted := h.granted_eq htop hstart ops
  generalize hk : min (allocs ops)
    ((regionEnd es - firstPage kernelEnd.toNat) / 4096) = k at hbreak hgranted
  have hused := pmmGetUsedMem_toNat (t := (pmmRun s ops).2) (by omega)
  have htotal := pmmGetTotalMem_toNat (t := (pmmRun s ops).2) (by omega)
  have hfree := pmmGetFreeMemory_toNat (t := (pmmRun s ops).2) (by omega)
  have hnext := pmmAllocPage_ne_zero (t := (pmmRun s ops).2) (by omega)
  have husedEq : (pmmGetUsedMemory (pmmRun s ops).2).toNat =
      (pmmGetUsedMem (pmmRun s ops).2).toNat := rfl
  refine ⟨by omega, BitVec.le_def.2 (by omega), by omega, ?_, ?_⟩
  · rw [hnext]
    omega
  · rw [hgranted, htotal, hend, hfirst, hk]

end Accounting

/-- The accounting is exact in every run exactly when the aligned start is not
page zero, or there is not even room for page zero. -/
theorem accounts_iff {m : PhysMem} {mbd : MultibootInfo}
    {es : List MapEntry} {fuel : Nat} {kernelEnd : U32} {s : Pmm}
    (hmap : LaidOut m mbd es)
    (hinit : initPmm fuel m mbd kernelEnd = some (.ok s))
    (htop : s.memoryEnd.toNat < 0xFFFFF000) :
    (∀ ops, Accounts s ops) ↔
      0 < kernelEnd.toNat ∧ kernelEnd.toNat ≤ 0xFFFFF000 ∨
        regionEnd es < 4096 := by
  have hs := initPmm_started hmap hinit
  have hbelow := hs.below
  rw [hs.memoryEnd] at htop
  rw [← firstPage_ne_zero kernelEnd.isLt]
  constructor
  · intro h
    by_contra hnot
    obtain ⟨hzero, hroom⟩ := not_or.1 hnot
    have hbreak := hs.currentBreak
    have hstart := congrArg BitVec.toNat hs.startAddr
    have hend := hs.memoryEnd
    have hnext : (pmmAllocPage s).1 ≠ 0 ↔
        4096 ≤ (pmmGetFreeMemory s).toNat := (h []).next
    have hused := pmmGetUsedMem_toNat (t := s) (by omega)
    have htotal := pmmGetTotalMem_toNat (t := s) (by omega)
    have hfree := pmmGetFreeMemory_toNat (t := s) (by omega)
    have hpage := (pmmAllocPage_ne_zero (t := s) (by omega)).1
      (hnext.2 (by omega))
    omega
  · intro hstart ops
    exact hs.accounts htop hstart ops

/-- The linker script places the image from the first megabyte on, so its end
is neither page zero nor in the last page: there the accounting is exact. -/
theorem accounts_exact {m : PhysMem} {mbd : MultibootInfo}
    {es : List MapEntry} {fuel : Nat} {kernelEnd : U32} {s : Pmm}
    (hmap : LaidOut m mbd es)
    (hinit : initPmm fuel m mbd kernelEnd = some (.ok s))
    (htop : s.memoryEnd.toNat < 0xFFFFF000)
    (hlow : 0x100000 ≤ kernelEnd.toNat) (hhigh : kernelEnd.toNat ≤ 0xFFFFF000)
    (ops : List PmmOp) : Accounts s ops :=
  (accounts_iff hmap hinit htop).2 (Or.inl ⟨by omega, hhigh⟩) ops

theorem accounts_flatMap : (∀ ops,
    Accounts ⟨0x1000000, 0x200000, 0x200000⟩ ops) ∧
    0x100000 ≤ (0x200000 : U32).toNat :=
  ⟨accounts_exact flatMap_laidOut initPmm_flatMap (by decide) (by decide)
    (by decide), by decide⟩

end MicroKernel.Proofs
