import MicroKernel.Kernel.Pmm
import MicroKernel.Spec.MemoryMap

/-!
# The memory-map walk

Two results about the loop of `init_pmm`. On a map that is well formed the
walk visits the entries one by one and ends with the first of the largest
usable regions. On arbitrary memory it is safe, in the sense that it halts,
moves forward and reads inside the map, exactly when the records chain.

The first is an induction over the entries with the raw cursor tied to the
bytes not yet consumed; the best region so far is a fold, and `consider_best`
says one round of the source's two comparisons is one step of `argmax`'s. The
second is an induction over the chain one way and over the halting run the
other.
-/

namespace MicroKernel.Proofs

open MicroKernel.Kernel MicroKernel.Spec

def bestOf (w : Walk) : U64 × U64 := (w.bestRegionBase, w.bestRegionLen)

/-- What the two tests make of an entry, given its fields. -/
def better (w : Walk) (e : MemoryMap) : Walk :=
  if e.type = 1 then
    if e.length > w.bestRegionLen then
      { w with bestRegionBase := e.baseAddr, bestRegionLen := e.length }
    else w
  else w

theorem consider_value (m : PhysMem) (w : Walk) :
    w.consider.value m = better w (MemoryMap.load m w.mmap) := by
  rw [Walk.consider, better, ByteMem.Reading.value_bind, MemoryMap.typeAt_value]
  split
  · rw [ByteMem.Reading.value_bind, MemoryMap.lengthAt_value]
    split <;> rfl
  · rfl

theorem consider_longer {w : Walk} {e : MapEntry} (htype : e.type = 1)
    (hgt : e.length > w.bestRegionLen) :
    bestOf (better w e.header) = (e.baseAddr, e.length) := by
  have h : better w e.header =
      { w with bestRegionBase := e.baseAddr, bestRegionLen := e.length } :=
    (if_pos htype).trans (if_pos hgt)
  rw [h, bestOf]

theorem consider_other {w : Walk} {e : MapEntry}
    (h : ¬ (e.type = 1 ∧ e.length > w.bestRegionLen)) :
    better w e.header = w := by
  by_cases htype : e.type = 1
  · exact (if_pos htype).trans (if_neg fun hgt => h ⟨htype, hgt⟩)
  · exact if_neg htype

theorem walkBody_stop {m : PhysMem} {mbd : MultibootInfo} {w : Walk}
    (h : ¬ w.mmap < mbd.mmapAddr + mbd.mmapLength) :
    walkBody m mbd w = none := by
  rw [walkBody, walkRound, if_neg h]
  rfl

theorem walkBody_round {m : PhysMem} {mbd : MultibootInfo} {w : Walk}
    (h : w.mmap < mbd.mmapAddr + mbd.mmapLength) :
    walkBody m mbd w = some { better w (MemoryMap.load m w.mmap) with
      mmap := w.mmap + (MemoryMap.load m w.mmap).size + 4 } := by
  rw [walkBody, walkRound, if_pos h]
  simp only [ByteMem.Reading.value_bind, consider_value, MemoryMap.sizeAt_value,
    ByteMem.Reading.value_pure]

/-- Everything a round can do: the test passed, and the cursor advanced by the
stride. -/
theorem walkBody_some {m : PhysMem} {mbd : MultibootInfo} {w w' : Walk}
    (h : walkBody m mbd w = some w') :
    w.mmap < mbd.mmapAddr + mbd.mmapLength ∧
      w'.mmap = w.mmap + (m.read32 w.mmap + 4) := by
  by_cases hlt : w.mmap < mbd.mmapAddr + mbd.mmapLength
  · rw [walkBody_round hlt] at h
    refine ⟨hlt, ?_⟩
    rw [← Option.some.inj h]
    exact BitVec.add_assoc _ _ _
  · rw [walkBody_stop hlt] at h
    cases h

/-! ## Well-formed maps -/

/-- One round of the source's comparisons is one step of the choice. A region
of length zero is never longer than the zero the fold starts from, which is
why the source needs no test for it. -/
theorem consider_best {w : Walk} {o : Option MapEntry} {e : MapEntry}
    (h : bestOf w = bestRegion o) :
    bestOf (better w e.header) = bestRegion (choose o e) := by
  have hlen : w.bestRegionLen = (bestRegion o).2 := congrArg Prod.snd h
  by_cases husable : e.usable = true
  · obtain ⟨htype, -⟩ := MapEntry.usable_iff.1 husable
    rw [choose_usable husable]
    split
    · next hlt =>
        rw [← hlen] at hlt
        exact consider_longer htype (BitVec.lt_def.2 hlt)
    · next hle =>
        rw [← hlen] at hle
        rw [consider_other fun hgt => hle (BitVec.lt_def.1 hgt.2), h]
  · have hother : ¬ (e.type = 1 ∧ e.length > w.bestRegionLen) := by
      rintro ⟨htype, hgt⟩
      refine husable (MapEntry.usable_iff.2 ⟨htype, ?_⟩)
      rintro hz
      rw [hz] at hgt
      exact absurd (BitVec.lt_def.1 hgt) (Nat.not_lt_zero _)
    rw [choose_unusable husable, consider_other hother, h]

/-- The walk over the entries `es` that lie between the cursor and the end:
the cursors it visits, the headers it reads there, and the region it ends
with. -/
theorem walk_run {m : PhysMem} {mbd : MultibootInfo} :
    ∀ (es : List MapEntry) (w : Walk) (o : Option MapEntry),
      ByteMem.Holds m w.mmap (mapBytes es) →
      (mbd.mmapAddr + mbd.mmapLength).toNat =
        w.mmap.toNat + (mapBytes es).length →
      bestOf w = bestRegion o →
      ∃ visited w', While.run (walkBody m mbd) (es.length + 1) w =
          some (visited, w') ∧
        visited.map Walk.mmap = entryAddrs w.mmap es ∧
        visited.map (fun v => MemoryMap.load m v.mmap) =
          es.map MapEntry.header ∧
        bestOf w' = bestRegion (es.foldl choose o) := by
  intro es
  induction es with
  | nil =>
      intro w o _ hend hbest
      have hstop : ¬ w.mmap < mbd.mmapAddr + mbd.mmapLength := by
        rw [BitVec.lt_def, hend]
        simp [mapBytes]
      exact ⟨[], w, While.run_stop (walkBody_stop hstop), rfl, rfl, hbest⟩
  | cons e es ih =>
      intro w o hheld hend hbest
      rw [mapBytes_cons] at hheld hend
      rw [List.length_append, MapEntry.bytes_length] at hend
      obtain ⟨he, hes⟩ := ByteMem.holds_append.1 hheld
      have hload := load_of_holds he
      have hlt : w.mmap < mbd.mmapAddr + mbd.mmapLength := by
        rw [BitVec.lt_def]
        omega
      -- The cursor the round leaves behind stands at the next entry.
      have hnext : w.mmap + e.size + 4 =
          w.mmap + BitVec.ofNat 32 e.bytes.length := by
        rw [MapEntry.bytes_length, BitVec.ofNat_add, BitVec.ofNat_toNat,
          BitVec.setWidth_eq, BitVec.add_assoc]
        rfl
      have hnat : (w.mmap + e.size + 4).toNat =
          w.mmap.toNat + (e.size.toNat + 4) := by
        have := (mbd.mmapAddr + mbd.mmapLength).isLt
        rw [hnext, BitVec.toNat_add, BitVec.toNat_ofNat, MapEntry.bytes_length]
        omega
      have hround := walkBody_round (m := m) hlt
      rw [hload] at hround
      obtain ⟨visited, w', hrun, haddrs, hloads, hfold⟩ :=
        ih { better w e.header with mmap := w.mmap + e.size + 4 }
          (choose o e) (hnext ▸ hes) (by rw [hend, hnat]; omega)
          (consider_best hbest)
      refine ⟨w :: visited, w', ?_, ?_, ?_, hfold⟩
      · rw [List.length_cons, While.run_round hround]
        exact congrArg (Option.map _) hrun
      · rw [List.map_cons, haddrs, entryAddrs, BitVec.add_assoc]
      · rw [List.map_cons, List.map_cons, hloads, hload]

theorem mapEnd_toNat {mbd : MultibootInfo}
    (hwrap : mbd.mmapAddr.toNat + mbd.mmapLength.toNat < 2 ^ 32) :
    (mbd.mmapAddr + mbd.mmapLength).toNat =
      mbd.mmapAddr.toNat + mbd.mmapLength.toNat := by
  rw [BitVec.toNat_add, Nat.mod_eq_of_lt hwrap]

theorem walk_laidOut {m : PhysMem} {mbd : MultibootInfo} {es : List MapEntry}
    (hmap : LaidOut m mbd es) :
    ∃ visited w, While.run (walkBody m mbd) (es.length + 1) (walkStart mbd) =
        some (visited, w) ∧
      visited.map Walk.mmap = entryAddrs mbd.mmapAddr es ∧
      visited.map (fun v => MemoryMap.load m v.mmap) =
        es.map MapEntry.header ∧
      bestOf w = bestRegion (largest es) := by
  rw [largest_eq_foldl]
  refine walk_run es (walkStart mbd) none hmap.held ?_ rfl
  rw [hmap.length_eq]
  exact mapEnd_toNat hmap.noWrap

theorem initPmm_eq {m : PhysMem} {mbd : MultibootInfo} {fuel : Nat}
    {visited : List Walk} {w : Walk} (hflag : mbd.flags &&& mbootFlagMmap ≠ 0)
    (hrun : While.run (walkBody m mbd) fuel (walkStart mbd) =
      some (visited, w)) (kernelEnd : U32) :
    initPmm fuel m mbd kernelEnd =
      some (pmmSetup w.bestRegionBase w.bestRegionLen kernelEnd) := by
  rw [initPmm, if_neg hflag, hrun]
  rfl

theorem pmmSetup_panic {base len : U64} {kernelEnd : U32}
    (h : base.setWidth 32 + len.setWidth 32 ≤ alignUp kernelEnd) :
    pmmSetup base len kernelEnd =
      .error ⟨"Not enough memory to start PMM!"⟩ := by
  rw [pmmSetup]
  exact if_pos h

/-- Set-up that does not panic starts strictly below the end it computed. -/
theorem pmmSetup_ok {base len : U64} {kernelEnd : U32} {s : Pmm}
    (h : pmmSetup base len kernelEnd = .ok s) :
    s = ⟨base.setWidth 32 + len.setWidth 32, alignUp kernelEnd,
        alignUp kernelEnd⟩ ∧
      alignUp kernelEnd < base.setWidth 32 + len.setWidth 32 := by
  by_cases hle : base.setWidth 32 + len.setWidth 32 ≤ alignUp kernelEnd
  · rw [pmmSetup_panic hle] at h
    cases h
  · rw [pmmSetup] at h
    refine ⟨(Except.ok.inj ((if_neg hle).symm.trans h)).symm, ?_⟩
    exact BitVec.not_le.1 hle

/-- On a well-formed map the walk visits the entries once each and in order,
ends with the first region of greatest length, and sets the memory manager up
with it; a map without a usable region panics. -/
theorem initPmm_walk {m : PhysMem} {mbd : MultibootInfo} {es : List MapEntry}
    (hmap : LaidOut m mbd es) (hflag : mbd.flags &&& mbootFlagMmap ≠ 0) :
    ∃ fuel visited w,
      While.run (walkBody m mbd) fuel (walkStart mbd) = some (visited, w) ∧
      visited.map Walk.mmap = entryAddrs mbd.mmapAddr es ∧
      visited.map (fun v => MemoryMap.load m v.mmap) =
        es.map MapEntry.header ∧
      FirstLargest es (w.bestRegionBase, w.bestRegionLen) ∧
      (∀ kernelEnd, initPmm fuel m mbd kernelEnd =
        some (pmmSetup w.bestRegionBase w.bestRegionLen kernelEnd)) ∧
      ((∀ e ∈ es, ¬ e.usable = true) → ∀ kernelEnd,
        initPmm fuel m mbd kernelEnd =
          some (.error ⟨"Not enough memory to start PMM!"⟩)) := by
  obtain ⟨visited, w, hrun, haddrs, hloads, hbest⟩ := walk_laidOut hmap
  have hinit := initPmm_eq hflag hrun
  refine ⟨_, visited, w, hrun, haddrs, hloads, ?_, hinit, ?_⟩
  · rw [← bestOf, hbest]
    exact firstLargest_largest es
  · intro hnone kernelEnd
    have hempty : largest es = none := by
      rw [largest, List.argmax_eq_none, List.filter_eq_nil_iff]
      exact hnone
    rw [hempty] at hbest
    obtain ⟨hbase, hlen⟩ := Prod.mk.inj hbest
    rw [hinit, hbase, hlen, pmmSetup_panic]
    -- With no region the end is zero, and no start is below it.
    exact BitVec.le_def.2 (Nat.zero_le _)

/-- Two regions around the hole below 16 MiB, the upper one the larger. -/
def holeMap : List MapEntry :=
  [plainEntry 0x100000 0xE00000 1, plainEntry 0x1000000 0x7000000 1]

theorem holeMap_laidOut :
    LaidOut (storedMap 0x9000 holeMap) (infoOf 0x9000 holeMap) holeMap :=
  laidOut_storedMap (by decide)

theorem initPmm_walk_holeMap :
    ∃ fuel visited w,
      While.run (walkBody (storedMap 0x9000 holeMap) (infoOf 0x9000 holeMap))
        fuel (walkStart (infoOf 0x9000 holeMap)) = some (visited, w) ∧
      visited.map Walk.mmap = [0x9000, 0x9018] := by
  obtain ⟨fuel, visited, w, hrun, haddrs, -⟩ :=
    initPmm_walk holeMap_laidOut (by decide)
  exact ⟨fuel, visited, w, hrun, haddrs⟩

/-! ## Arbitrary memory

The loads of one round all lie within 24 bytes of the cursor, and that of the
type field, which every round makes, ends exactly there. -/

theorem consider_loads (m : PhysMem) (w : Walk) :
    ∀ l ∈ w.consider.loads m, l.base = w.mmap ∧ l.offset + l.width ≤ 24 := by
  rw [Walk.consider, ByteMem.Reading.loads_bind, MemoryMap.typeAt_loads]
  split
  · rw [ByteMem.Reading.loads_bind, MemoryMap.lengthAt_loads]
    split
    · simp
    · simp
  · simp

theorem type_mem_consider (m : PhysMem) (w : Walk) :
    ⟨w.mmap, 20, 4⟩ ∈ w.consider.loads m := by
  rw [Walk.consider, ByteMem.Reading.loads_bind, MemoryMap.typeAt_loads]
  exact List.mem_append_left _ List.mem_cons_self

theorem walkReads_stop {m : PhysMem} {mbd : MultibootInfo} {w : Walk}
    (h : ¬ w.mmap < mbd.mmapAddr + mbd.mmapLength) : walkReads m mbd w = [] := by
  rw [walkReads, walkRound, if_neg h]
  rfl

theorem walkReads_round {m : PhysMem} {mbd : MultibootInfo} {w : Walk}
    (h : w.mmap < mbd.mmapAddr + mbd.mmapLength) :
    walkReads m mbd w = w.consider.loads m ++ [⟨w.mmap, 0, 4⟩] := by
  rw [walkReads, walkRound, if_pos h]
  simp only [ByteMem.Reading.loads_bind, MemoryMap.sizeAt_loads,
    ByteMem.Reading.loads_pure, List.append_nil]

theorem walkReads_within {m : PhysMem} {mbd : MultibootInfo} {w : Walk}
    {l : ByteMem.Load 32} (hl : l ∈ walkReads m mbd w) :
    l.base = w.mmap ∧ l.offset + l.width ≤ 24 := by
  by_cases h : w.mmap < mbd.mmapAddr + mbd.mmapLength
  · rw [walkReads_round h, List.mem_append, List.mem_singleton] at hl
    rcases hl with hl | rfl
    · exact consider_loads m w l hl
    · exact ⟨rfl, Nat.le_add_left 4 20⟩
  · rw [walkReads_stop h] at hl
    cases hl

/-- The walk halts, its cursor only moves forward, and whatever it loads lies
inside the map, compared as integers. -/
structure WalkSafe (m : PhysMem) (mbd : MultibootInfo) : Prop where
  halts : While.Halts (walkBody m mbd) (walkStart mbd)
  forward : ∀ w w', While.Reaches (walkBody m mbd) (walkStart mbd) w →
    walkBody m mbd w = some w' → w.mmap < w'.mmap
  inside : ∀ w, While.Reaches (walkBody m mbd) (walkStart mbd) w →
    ∀ l ∈ walkReads m mbd w, l.Inside mbd.mmapAddr.toNat
      (mbd.mmapAddr.toNat + mbd.mmapLength.toNat)

theorem walkBody_stride {m : PhysMem} {mbd : MultibootInfo} {w w' : Walk}
    (h : walkBody m mbd w = some w') :
    w'.mmap.toNat = (w.mmap.toNat + stride m w.mmap.toNat) % 2 ^ 32 := by
  rw [(walkBody_some h).2, BitVec.toNat_add, stride, BitVec.ofNat_toNat,
    BitVec.setWidth_eq]

section Chain

variable {m : PhysMem} {mbd : MultibootInfo}

/-- A cursor that moved forward did not go past the top address. -/
theorem stride_of_forward {w w' : Walk} (h : walkBody m mbd w = some w')
    (hfwd : w.mmap < w'.mmap) : w.mmap.toNat + stride m w.mmap.toNat < 2 ^ 32 := by
  have hmod := walkBody_stride h
  have hstride : stride m w.mmap.toNat < 2 ^ 32 := BitVec.isLt _
  have hw := w.mmap.isLt
  rw [BitVec.lt_def] at hfwd
  by_contra hge
  have hback : (w.mmap.toNat + stride m w.mmap.toNat) % 2 ^ 32 =
      w.mmap.toNat + stride m w.mmap.toNat - 2 ^ 32 := by
    rw [Nat.mod_eq_sub_mod (by omega), Nat.mod_eq_of_lt (by omega)]
  omega

/-- Along a chain every round is sound and the walk halts. -/
theorem walk_of_chained
    (hwrap : mbd.mmapAddr.toNat + mbd.mmapLength.toNat < 2 ^ 32) {c : Nat}
    (hc : Chained m (mbd.mmapAddr.toNat + mbd.mmapLength.toNat) c) :
    ∀ w : Walk, w.mmap.toNat = c → mbd.mmapAddr.toNat ≤ c →
      While.Halts (walkBody m mbd) w ∧
      ∀ t t', While.Reaches (walkBody m mbd) w t →
        walkBody m mbd t = some t' →
        mbd.mmapAddr.toNat ≤ t.mmap.toNat ∧
        t.mmap.toNat + 24 ≤ mbd.mmapAddr.toNat + mbd.mmapLength.toNat ∧
        t.mmap < t'.mmap := by
  have hend := mapEnd_toNat hwrap
  induction hc with
  | done hstop =>
      intro w hw _
      have hnone : walkBody m mbd w = none :=
        walkBody_stop (by rw [BitVec.lt_def]; omega)
      refine ⟨While.halts_of_stop hnone, fun t t' hr ht => ?_⟩
      rcases hr.cases with rfl | ⟨u, hu, -⟩
      · rw [hnone] at ht; cases ht
      · rw [hnone] at hu; cases hu
  | @record c hfit hpos htop hrest ih =>
      intro w hw hlo
      have hlt : w.mmap < mbd.mmapAddr + mbd.mmapLength := by
        rw [BitVec.lt_def]
        omega
      obtain ⟨w', hw'⟩ : ∃ w', walkBody m mbd w = some w' :=
        ⟨_, walkBody_round hlt⟩
      have hnext : w'.mmap.toNat = c + stride m c := by
        rw [walkBody_stride hw', hw, Nat.mod_eq_of_lt htop]
      obtain ⟨hhalts, hsound⟩ := ih w' hnext (by omega)
      refine ⟨(While.halts_round hw').2 hhalts, fun t t' hr ht => ?_⟩
      rcases hr.cases with rfl | ⟨u, hu, hr⟩
      · rw [hw'] at ht
        obtain rfl := Option.some.inj ht
        exact ⟨by omega, by omega, BitVec.lt_def.2 (by omega)⟩
      · rw [hw'] at hu
        obtain rfl := Option.some.inj hu
        exact hsound t t' hr ht

/-- A halting walk that is sound from `w` on walks a chain. -/
theorem chained_of_walk
    (hwrap : mbd.mmapAddr.toNat + mbd.mmapLength.toNat < 2 ^ 32) {w : Walk}
    (hhalts : While.Halts (walkBody m mbd) w)
    (hsound : ∀ t t', While.Reaches (walkBody m mbd) w t →
      walkBody m mbd t = some t' → t.mmap < t'.mmap ∧
        t.mmap.toNat + 24 ≤ mbd.mmapAddr.toNat + mbd.mmapLength.toNat) :
    Chained m (mbd.mmapAddr.toNat + mbd.mmapLength.toNat) w.mmap.toNat := by
  have hend := mapEnd_toNat hwrap
  revert hsound
  refine hhalts.induct (P := fun w => (∀ t t',
    While.Reaches (walkBody m mbd) w t → walkBody m mbd t = some t' →
      t.mmap < t'.mmap ∧
      t.mmap.toNat + 24 ≤ mbd.mmapAddr.toNat + mbd.mmapLength.toNat) →
    Chained m (mbd.mmapAddr.toNat + mbd.mmapLength.toNat) w.mmap.toNat) ?_ ?_
  · intro w hnone _
    have hstop : ¬ w.mmap < mbd.mmapAddr + mbd.mmapLength := by
      intro hlt
      rw [walkBody_round hlt] at hnone
      cases hnone
    rw [BitVec.lt_def, hend] at hstop
    exact .done (by omega)
  · intro w w' hw' ih hsound
    obtain ⟨hfwd, hfit⟩ := hsound w w' .refl hw'
    have hmod := walkBody_stride hw'
    have htop := stride_of_forward hw' hfwd
    rw [BitVec.lt_def] at hfwd
    rw [Nat.mod_eq_of_lt htop] at hmod
    refine .record hfit (by omega) htop ?_
    rw [← hmod]
    exact ih fun t t' hr ht => hsound t t' (While.Reaches.head hw' hr) ht

theorem chained_of_entries : ∀ (es : List MapEntry) (a : U32) (stop : Nat),
    ByteMem.Holds m a (mapBytes es) → stop = a.toNat + (mapBytes es).length →
    stop < 2 ^ 32 → Chained m stop a.toNat := by
  intro es
  induction es with
  | nil =>
      intro a stop _ hstop _
      exact .done (by rw [hstop]; exact Nat.le_refl _)
  | cons e es ih =>
      intro a stop hheld hstop htop
      rw [mapBytes_cons] at hheld hstop
      obtain ⟨he, hes⟩ := ByteMem.holds_append.1 hheld
      have hsize := congrArg MemoryMap.size (load_of_holds he)
      have hge := e.size_eq
      rw [List.length_append] at hstop
      have hlen := e.bytes_length
      have hstride : stride m a.toNat = e.bytes.length := by
        rw [stride, BitVec.ofNat_toNat, BitVec.setWidth_eq,
          show m.read32 a = e.size from hsize, BitVec.toNat_add, hlen,
          Nat.mod_eq_of_lt]
        · rfl
        · change e.size.toNat + 4 < 2 ^ 32
          omega
      have hnext : (a + BitVec.ofNat 32 e.bytes.length).toNat =
          a.toNat + stride m a.toNat := by
        rw [hstride, BitVec.toNat_add, BitVec.toNat_ofNat]
        omega
      refine .record (by omega) (by omega) (by omega) ?_
      rw [← hnext]
      exact ih _ stop hes (by omega) htop

/-- The records of a well-formed map chain, so the walk is safe wherever the
loader kept to the format. -/
theorem chained_of_laidOut {es : List MapEntry} (hmap : LaidOut m mbd es) :
    Chained m (mbd.mmapAddr.toNat + mbd.mmapLength.toNat)
      mbd.mmapAddr.toNat :=
  chained_of_entries es _ _ hmap.held (by rw [hmap.length_eq]) hmap.noWrap

/-- A safe walk depends on nothing outside the map. -/
theorem WalkSafe.depends {m' : PhysMem} (h : WalkSafe m mbd)
    (hwrap : mbd.mmapAddr.toNat + mbd.mmapLength.toNat < 2 ^ 32)
    (hm : ∀ x : U32, ByteMem.Within mbd.mmapAddr.toNat
      (mbd.mmapAddr.toNat + mbd.mmapLength.toNat) x → m' x = m x)
    (fuel : Nat) (kernelEnd : U32) :
    initPmm fuel m' mbd kernelEnd = initPmm fuel m mbd kernelEnd := by
  have hrun : While.run (walkBody m' mbd) fuel (walkStart mbd) =
      While.run (walkBody m mbd) fuel (walkStart mbd) :=
    While.run_congr fun w hr =>
      ByteMem.Reading.value_inside (h.inside w hr) (Nat.le_of_lt hwrap) hm
  rw [initPmm, initPmm, hrun]

/-- The walk is safe on exactly the memories whose records chain, and the
records of a well-formed map do. A safe walk sees nothing outside the map. -/
theorem walkSafe_iff_chained
    (hwrap : mbd.mmapAddr.toNat + mbd.mmapLength.toNat < 2 ^ 32) :
    (WalkSafe m mbd ↔
      Chained m (mbd.mmapAddr.toNat + mbd.mmapLength.toNat)
        mbd.mmapAddr.toNat) ∧
      (∀ es, LaidOut m mbd es →
        Chained m (mbd.mmapAddr.toNat + mbd.mmapLength.toNat)
          mbd.mmapAddr.toNat) ∧
      (WalkSafe m mbd → ∀ m' fuel kernelEnd,
        (∀ x : U32, ByteMem.Within mbd.mmapAddr.toNat
          (mbd.mmapAddr.toNat + mbd.mmapLength.toNat) x → m' x = m x) →
        initPmm fuel m' mbd kernelEnd = initPmm fuel m mbd kernelEnd) := by
  refine ⟨⟨fun h => ?_, fun h => ?_⟩, fun es => chained_of_laidOut,
    fun h m' fuel kernelEnd hm => h.depends hwrap hm fuel kernelEnd⟩
  · refine chained_of_walk (w := walkStart mbd) hwrap h.halts ?_
    intro t t' hr ht
    have hread : ⟨t.mmap, 20, 4⟩ ∈ walkReads m mbd t := by
      rw [walkReads_round (walkBody_some ht).1]
      exact List.mem_append_left _ (type_mem_consider m t)
    obtain ⟨-, hfit⟩ := h.inside t hr _ hread
    exact ⟨h.forward t t' hr ht, hfit⟩
  · obtain ⟨hhalts, hsound⟩ :=
      walk_of_chained hwrap h (walkStart mbd) rfl (Nat.le_refl _)
    refine ⟨hhalts, fun w w' hr hw => (hsound w w' hr hw).2.2, ?_⟩
    intro w hr l hl
    obtain ⟨hbase, hwide⟩ := walkReads_within hl
    by_cases hlt : w.mmap < mbd.mmapAddr + mbd.mmapLength
    · obtain ⟨hlo, hfit, -⟩ := hsound w _ hr (walkBody_round hlt)
      rw [ByteMem.Load.Inside, hbase]
      omega
    · rw [walkReads_stop hlt] at hl
      cases hl

end Chain

theorem walkSafe_holeMap :
    WalkSafe (storedMap 0x9000 holeMap) (infoOf 0x9000 holeMap) := by
  obtain ⟨hiff, hchained, -⟩ := walkSafe_iff_chained holeMap_laidOut.noWrap
  exact hiff.2 (hchained holeMap holeMap_laidOut)

/-- One record whose size field is `0xFFFFFFFC`, so that the stride is zero. -/
def stuckMap : PhysMem :=
  ByteMem.write (fun _ => 0) 0x9000 (bytes32 0xFFFFFFFC)

/-- The walk over it stays at its first record for ever. -/
theorem walk_stuck : ¬ ∀ (m : PhysMem) (mbd : MultibootInfo),
    mbd.mmapAddr.toNat + mbd.mmapLength.toNat < 2 ^ 32 → WalkSafe m mbd := by
  intro h
  have hsafe := h stuckMap ⟨mbootFlagMmap, 24, 0x9000⟩ (by decide)
  exact While.not_halts_of_fixed (by decide) hsafe.halts

end MicroKernel.Proofs
