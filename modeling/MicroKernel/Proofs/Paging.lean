import MicroKernel.Machine.Calls
import MicroKernel.Machine.Paging
import MicroKernel.Proofs.ControlRegs

/-!
# The identity map

The three loops of `paging_install` store one dword after the other, the two
that clear a table the same one, the third one that grows by a page each time.
What they leave is two tables through which every address of the first 4 MiB
leads back to itself, and no other address leads anywhere.
-/

namespace MicroKernel.Proofs

open ByteMem X86 MicroKernel.Core

/-! ## The loops -/

/-- An instruction that stores EAX at EDI, goes on to the next dword and adds
`inc` to EAX. -/
structure Fills (inc : U32) (i : Insn) : Prop where
  df : ∀ s, (i s).df = s.df
  mem : ∀ s, (i s).mem = ByteMem.write s.mem s.edi (bytes32 s.eax)
  stored : ∀ s, (i s).stored =
    s.stored ++ (List.range 4).map fun k => s.edi + BitVec.ofNat 32 k
  eax : ∀ s, (i s).eax = s.eax + inc
  edi : ∀ s, s.df = false → (i s).edi = s.edi + 4

theorem stosd_fills : Fills 0 stosd where
  df := fun _ => rfl
  mem := fun _ => rfl
  stored := fun _ => rfl
  eax := fun s => (BitVec.add_zero s.eax).symm
  edi := fun s hdf => congrArg (s.edi + ·) (stride_clear hdf 4)

theorem mapPage_fills : Fills 4096 mapPage where
  df := fun s => (df_addFlags ..).trans (df_addFlags ..)
  mem := fun s => by
    have h : s.edi + 0 = s.edi := BitVec.add_zero _
    show ByteMem.write s.mem (s.edi + 0) (bytes32 s.eax) = _
    rw [h]
  stored := fun s => by
    have h : s.edi + 0 = s.edi := BitVec.add_zero _
    show s.stored ++ (List.range 4).map (fun k => s.edi + 0 + BitVec.ofNat 32 k) = _
    rw [h]
  eax := fun s => by
    obtain ⟨⟨⟩⟩ := s
    rfl
  edi := fun s _ => by
    obtain ⟨⟨⟩⟩ := s
    rfl

/-- The dwords `entry 0`, `entry 1` and so on have been stored from `a` on, and
nothing elsewhere. -/
structure Filled (a : U32) (n : Nat) (entry : Nat → U32) (s t : Sys) : Prop where
  df : t.df = s.df
  touches : Touches (Within a.toNat (a.toNat + 4 * n)) s.mem t.mem
  stored : ∃ log, t.stored = s.stored ++ log ∧
    ∀ x ∈ log, Within a.toNat (a.toNat + 4 * n) x
  dword : ∀ k < n, t.mem.read32 (a + BitVec.ofNat 32 (4 * k)) = entry k

/-- One round. -/
theorem Fills.round {inc : U32} {i : Insn} (h : Fills inc i) {s : Sys} (hdf : s.df = false)
    (n : Nat) :
    ∃ r, repeated i (n + 1) s = repeated i n r ∧ r.df = s.df ∧ r.edi = s.edi + 4 ∧
      r.eax = s.eax + inc ∧ r.mem = ByteMem.write s.mem s.edi (bytes32 s.eax) ∧
      r.stored = s.stored ++ (List.range 4).map fun k => s.edi + BitVec.ofNat 32 k :=
  ⟨{ i s with ecx := (i s).ecx - 1 }, rfl, h.df s, h.edi s hdf, h.eax s, h.mem s, h.stored s⟩

theorem next_dword (a : U32) (k : Nat) :
    a + BitVec.ofNat 32 (4 * (k + 1)) = a + 4 + BitVec.ofNat 32 (4 * k) := by
  have h : 4 * (k + 1) = 4 + 4 * k := by omega
  rw [h, BitVec.ofNat_add, ← BitVec.add_assoc]
  rfl

/-- A dword stored at `a`, and then `n` more behind it. -/
theorem Filled.cons {a first : U32} {n : Nat} {entry entry' : Nat → U32} {s r t : Sys}
    (h : Filled (a + 4) n entry r t) (hfit : a.toNat + 4 * (n + 1) ≤ 2 ^ 32)
    (hdf : r.df = s.df) (hmem : r.mem = ByteMem.write s.mem a (bytes32 first))
    (hstored : r.stored = s.stored ++ (List.range 4).map fun k => a + BitVec.ofNat 32 k)
    (hzero : entry' 0 = first) (hsucc : ∀ k, entry' (k + 1) = entry k) :
    Filled a (n + 1) entry' s t := by
  have hlen := bytes32_length first
  have hone : Touches (Within a.toNat (a.toNat + 4 * (n + 1))) s.mem r.mem := by
    rw [hmem]
    refine (touches_write (by omega)).mono fun x hx => ?_
    rw [Within] at hx ⊢
    omega
  -- After the last dword the address may be back at zero; nothing is stored there.
  have hnext : n = 0 ∨ (a + 4).toNat = a.toNat + 4 := by
    have h4 : (a + 4).toNat = (a.toNat + 4) % 2 ^ 32 := BitVec.toNat_add ..
    omega
  have hsub : ∀ x : U32, Within (a + 4).toNat ((a + 4).toNat + 4 * n) x →
      a.toNat + 4 ≤ x.toNat ∧ x.toNat < a.toNat + 4 * (n + 1) := by
    intro x hx
    rw [Within] at hx
    omega
  obtain ⟨hdf', hmem', ⟨log, hlog, hin⟩, hdword⟩ := h
  refine ⟨hdf'.trans hdf, hone.trans (hmem'.mono fun x hx => ?_), ?_, ?_⟩
  · have := hsub x hx
    rw [Within]
    omega
  · rw [hstored, List.append_assoc] at hlog
    refine ⟨_, hlog, fun x hx => ?_⟩
    obtain hx | hx := List.mem_append.1 hx
    · obtain ⟨k, hk, rfl⟩ := List.mem_map.1 hx
      have hk4 := List.mem_range.1 hk
      rw [Within, offset_toNat hk4 (by omega)]
      omega
    · have := hsub x (hin x hx)
      rw [Within]
      omega
  · rintro (_ | k) hk
    · have hfirst := read32_write s.mem a first
      rw [← hmem] at hfirst
      rw [Nat.mul_zero, BitVec.add_zero, read32_touches hmem' (by omega), hfirst, hzero]
      intro x hx hlater
      have := hsub x hlater
      rw [Within] at hx
      omega
    · rw [next_dword, hdword k (Nat.lt_of_succ_lt_succ hk), hsucc]

theorem repeated_filled {inc : U32} {i : Insn} (h : Fills inc i) {n : Nat} {s : Sys}
    (hdf : s.df = false) (hfit : s.edi.toNat + 4 * n ≤ 2 ^ 32) :
    Filled s.edi n (fun k => s.eax + BitVec.ofNat 32 k * inc) s (repeated i n s) := by
  induction n generalizing s with
  | zero =>
      refine ⟨rfl, Touches.refl _, ⟨[], (List.append_nil _).symm, ?_⟩, ?_⟩
      · exact fun a ha => absurd ha List.not_mem_nil
      · exact fun k hk => absurd hk (Nat.not_lt_zero k)
  | succ n ih =>
      obtain ⟨r, hr, hrdf, hedi, heax, hrmem, hrstored⟩ := h.round hdf n
      have hfit' : r.edi.toNat + 4 * n ≤ 2 ^ 32 := by
        have h4 : (s.edi + 4).toNat = (s.edi.toNat + 4) % 2 ^ 32 := BitVec.toNat_add ..
        rw [hedi]
        omega
      have hrest := ih (hrdf.trans hdf) hfit'
      rw [hedi] at hrest
      rw [hr]
      refine hrest.cons hfit hrdf hrmem hrstored ?_ fun k => ?_
      · show s.eax + 0#32 * inc = _
        rw [BitVec.zero_mul, BitVec.add_zero]
      · have hk1 : BitVec.ofNat 32 (k + 1) = BitVec.ofNat 32 k + 1 := BitVec.ofNat_add ..
        rw [heax, hk1]
        grind

theorem Filled.after {a : U32} {n : Nat} {entry : Nat → U32} {s q t : Sys}
    (h : Filled a n entry q t) (hdf : q.df = s.df) (hmem : q.mem = s.mem)
    (hstored : q.stored = s.stored) : Filled a n entry s t :=
  ⟨h.df.trans hdf, hmem ▸ h.touches, hstored ▸ h.stored, h.dword⟩

/-! ## The tables -/

section
variable (img : Image)

/-- The bytes of the two tables. -/
def InTables (x : U32) : Prop :=
  Within img.pageDirectory.toNat (img.pageDirectory.toNat + 4 * 1024) x ∨
    Within img.firstPageTable.toNat (img.firstPageTable.toNat + 4 * 1024) x

/-- Where the linker may put them. -/
structure TablesPlaced : Prop where
  directory : img.pageDirectory.toNat % 4096 = 0
  table : img.firstPageTable.toNat % 4096 = 0
  distinct : img.pageDirectory ≠ img.firstPageTable

/-- What they hold in the end. -/
structure MapsFirst (m : PhysMem) : Prop where
  first : m.read32 img.pageDirectory = img.firstPageTable + 3
  others : ∀ k < 1024, k ≠ 0 → m.read32 (img.pageDirectory + BitVec.ofNat 32 (4 * k)) = 0
  pages : ∀ k < 1024,
    m.read32 (img.firstPageTable + BitVec.ofNat 32 (4 * k)) = BitVec.ofNat 32 (k * 4096) + 3

end

section
variable {img : Image} {s : Sys} {a : U32}

theorem end_of_aligned (h : a.toNat % 4096 = 0) : a.toNat + 4 * 1024 ≤ 2 ^ 32 := by
  have := a.isLt
  omega

theorem TablesPlaced.apart (h : TablesPlaced img) (x : U32)
    (hd : Within img.pageDirectory.toNat (img.pageDirectory.toNat + 4 * 1024) x) :
    ¬ Within img.firstPageTable.toNat (img.firstPageTable.toNat + 4 * 1024) x := by
  have hd0 := h.directory
  have ht0 := h.table
  have hne : img.pageDirectory.toNat ≠ img.firstPageTable.toNat :=
    fun he => h.distinct (BitVec.eq_of_toNat_eq he)
  rw [Within] at hd ⊢
  omega

theorem clear_filled {c : U32} (hdf : s.df = false) (hfit : a.toNat + 4 * c.toNat ≤ 2 ^ 32) :
    ∃ t, run [cpu (movImm .edi a), cpu (movImm .ecx c), xorSelf .eax, rep stosd] s = t ∧
      Filled a c.toNat (fun _ => 0) s t := by
  have hset : ∃ q, run [cpu (movImm .edi a), cpu (movImm .ecx c), xorSelf .eax] s = q ∧
      q.df = s.df ∧ q.edi = a ∧ q.eax = 0 ∧ q.ecx = c ∧ q.mem = s.mem ∧
      q.stored = s.stored := ⟨_, rfl, df_logicFlags .., rfl, rfl, rfl, rfl, rfl⟩
  obtain ⟨q, hq, hqdf, hedi, heax, hecx, hmem, hstored⟩ := hset
  have hfill := repeated_filled stosd_fills (n := c.toNat) (hqdf.trans hdf) (hedi ▸ hfit)
  have hentry : (fun k => q.eax + BitVec.ofNat 32 k * 0) = fun _ => (0 : U32) := by
    funext k
    rw [heax]
    exact (BitVec.zero_add _).trans (BitVec.mul_zero (x := BitVec.ofNat 32 k))
  rw [hentry, hedi] at hfill
  rw [run_cons, run_cons, run_cons, run_nil] at hq
  rw [run_cons, run_cons, run_cons, hq]
  refine ⟨rep stosd q, rfl, ?_⟩
  rw [rep, hecx]
  exact hfill.after hqdf hmem hstored

/-- One table cleared. -/
theorem clearTable_filled (hdf : s.df = false) (ha : a.toNat % 4096 = 0) :
    ∃ t, run [cpu (movImm .edi a), cpu (movImm .ecx 1024), xorSelf .eax, rep stosd] s = t ∧
      Filled a 1024 (fun _ => 0) s t :=
  clear_filled (c := 1024) hdf (end_of_aligned ha)

/-- The second table filled. -/
theorem mapTable_filled (hdf : s.df = false) (ha : a.toNat % 4096 = 0) :
    ∃ t, run [cpu (movImm .edi a), cpu (movImm .ecx 1024),
        cpu (movImm .eax (pageFlagPresent ||| pageFlagReadwrite)), loopBack mapPage] s = t ∧
      Filled a 1024 (fun k => BitVec.ofNat 32 (k * 4096) + 3) s t := by
  have hset : ∃ q, run [cpu (movImm .edi a), cpu (movImm .ecx 1024),
      cpu (movImm .eax (pageFlagPresent ||| pageFlagReadwrite))] s = q ∧
      q.df = s.df ∧ q.edi = a ∧ q.eax = 3 ∧ q.ecx = 1024 ∧ q.mem = s.mem ∧
      q.stored = s.stored := ⟨_, rfl, rfl, rfl, rfl, rfl, rfl, rfl⟩
  obtain ⟨q, hq, hqdf, hedi, heax, hecx, hmem, hstored⟩ := hset
  have hfill := repeated_filled mapPage_fills (n := 1024) (hqdf.trans hdf)
    (hedi ▸ end_of_aligned ha)
  have hentry : (fun k => q.eax + BitVec.ofNat 32 k * 4096) =
      fun k => BitVec.ofNat 32 (k * 4096) + 3 := by
    funext k
    rw [heax, BitVec.add_comm, BitVec.ofNat_mul]
    rfl
  rw [hentry, hedi] at hfill
  rw [run_cons, run_cons, run_cons, run_nil] at hq
  rw [run_cons, run_cons, run_cons, hq]
  refine ⟨loopBack mapPage q, rfl, ?_⟩
  rw [loopBack, hecx, if_neg (by decide)]
  exact hfill.after hqdf hmem hstored

/-- The three loops one after the other. -/
theorem fillTables_filled (hdf : s.df = false) (h : TablesPlaced img) :
    ∃ q r t, run (fillTables img) s = t ∧
      Filled img.pageDirectory 1024 (fun _ => 0) s q ∧
      Filled img.firstPageTable 1024 (fun _ => 0) q r ∧
      Filled img.firstPageTable 1024 (fun k => BitVec.ofNat 32 (k * 4096) + 3) r t := by
  obtain ⟨q, hq, hfirst⟩ := clearTable_filled hdf h.directory
  have hqdf := hfirst.df.trans hdf
  obtain ⟨r, hr, hsecond⟩ := clearTable_filled hqdf h.table
  have hrdf := hsecond.df.trans hqdf
  obtain ⟨t, ht, hthird⟩ := mapTable_filled hrdf h.table
  have hcode : fillTables img =
      [cpu (movImm .edi img.pageDirectory), cpu (movImm .ecx 1024), xorSelf .eax, rep stosd] ++
      ([cpu (movImm .edi img.firstPageTable), cpu (movImm .ecx 1024), xorSelf .eax, rep stosd] ++
      [cpu (movImm .edi img.firstPageTable), cpu (movImm .ecx 1024),
        cpu (movImm .eax (pageFlagPresent ||| pageFlagReadwrite)), loopBack mapPage]) := rfl
  exact ⟨q, r, t, by rw [hcode, run_append, hq, run_append, hr, ht], hfirst, hsecond, hthird⟩

/-- The first entry of the directory, and the two control registers. -/
theorem enablePaging_regs (img : Image) (s : Sys) (h : img.firstPageTable.toNat % 4096 = 0) :
    ∃ t, run (enablePaging img ++ [ret]) s = t ∧ t.cr3 = img.pageDirectory ∧
      t.mem = ByteMem.write s.mem img.pageDirectory (bytes32 (img.firstPageTable + 3)) ∧
      t.stored = s.stored ++ (List.range 4).map fun k =>
        img.pageDirectory + BitVec.ofNat 32 k := by
  have hor : img.firstPageTable ||| (pageFlagPresent ||| pageFlagReadwrite) =
      img.firstPageTable + 3 := or_eq_add h (by decide)
  rw [← hor]
  exact ⟨_, rfl, rfl, rfl, rfl⟩

theorem entry_toNat (ha : a.toNat % 4096 = 0) {k : Nat} (hk : k < 1024) :
    (a + BitVec.ofNat 32 (4 * k)).toNat = a.toNat + 4 * k :=
  offset_toNat (n := 4 * 1024) (by omega) (end_of_aligned ha)

/-- An entry of a table that nothing was stored in. -/
theorem read_entry {R : U32 → Prop} {m m' : PhysMem} (h : Touches R m m')
    (ha : a.toNat % 4096 = 0) {k : Nat} (hk : k < 1024)
    (hout : ∀ x : U32, a.toNat + 4 * k ≤ x.toNat → x.toNat < a.toNat + 4 * k + 4 → ¬ R x) :
    m'.read32 (a + BitVec.ofNat 32 (4 * k)) = m.read32 (a + BitVec.ofNat 32 (4 * k)) := by
  have hk' := entry_toNat ha hk
  have hend := end_of_aligned ha
  refine read32_touches h (by omega) fun x hx => ?_
  rw [Within, hk'] at hx
  exact hout x hx.1 hx.2

/-- The store to the first entry of the directory. -/
theorem touches_firstEntry (h : TablesPlaced img) (m : PhysMem) (v : U32) :
    Touches (Within img.pageDirectory.toNat (img.pageDirectory.toNat + 4)) m
      (ByteMem.write m img.pageDirectory (bytes32 v)) := by
  have hend := end_of_aligned h.directory
  have hlen := bytes32_length v
  have hwrite := touches_write (m := m) (a := img.pageDirectory) (b := bytes32 v) (by omega)
  rwa [hlen] at hwrite

section
variable {q r u : Sys} {m : PhysMem}

/-- The fillings and the first entry of the directory make the map. -/
theorem mapsFirst_of_filled (h : TablesPlaced img)
    (hfirst : Filled img.pageDirectory 1024 (fun _ => 0) s q)
    (hsecond : Filled img.firstPageTable 1024 (fun _ => 0) q r)
    (hthird : Filled img.firstPageTable 1024 (fun k => BitVec.ofNat 32 (k * 4096) + 3) r u)
    (hmem : m = ByteMem.write u.mem img.pageDirectory (bytes32 (img.firstPageTable + 3))) :
    MapsFirst img m := by
  have hlast := touches_firstEntry h u.mem (img.firstPageTable + 3)
  rw [← hmem] at hlast
  have hend := end_of_aligned h.directory
  refine ⟨?_, ?_, ?_⟩
  · rw [hmem]
    exact read32_write ..
  · intro k hk hne
    have hdir : ∀ x : U32, img.pageDirectory.toNat + 4 * k ≤ x.toNat →
        x.toNat < img.pageDirectory.toNat + 4 * k + 4 →
        ¬ Within img.firstPageTable.toNat (img.firstPageTable.toNat + 4 * 1024) x :=
      fun x hlo hhi => h.apart x ⟨by omega, by omega⟩
    rw [read_entry hlast h.directory hk, read_entry hthird.touches h.directory hk hdir,
      read_entry hsecond.touches h.directory hk hdir, hfirst.dword k hk]
    intro x hlo hhi hx
    rw [Within] at hx
    omega
  · intro k hk
    rw [read_entry hlast h.table hk, hthird.dword k hk]
    intro x hlo hhi hx
    rw [Within] at hx
    exact h.apart x ⟨by omega, by omega⟩ ⟨by omega, by omega⟩

end

theorem pagingInstall_tables (hdf : s.df = false) (h : TablesPlaced img) :
    ∃ t, pagingInstall img s = some t ∧ t.cr3 = img.pageDirectory ∧ MapsFirst img t.mem ∧
      Touches (InTables img) s.mem t.mem ∧
      ∃ log, t.stored = s.stored ++ log ∧ ∀ x ∈ log, InTables img x := by
  obtain ⟨q, r, u, hu, hfirst, hsecond, hthird⟩ := fillTables_filled hdf h
  obtain ⟨t, ht, hcr3, hmem, hstored⟩ := enablePaging_regs img u h.table
  have hcode : pagingInstall img s = some t := by
    rw [pagingInstall, straight, List.append_assoc, run_append, hu, ht]
  refine ⟨t, hcode, hcr3, mapsFirst_of_filled h hfirst hsecond hthird hmem, ?_, ?_⟩
  · have hdir := hfirst.touches.mono (S := InTables img) fun x hx => Or.inl hx
    have htable := hsecond.touches.mono (S := InTables img) fun x hx => Or.inr hx
    have hmap := hthird.touches.mono (S := InTables img) fun x hx => Or.inr hx
    have hlast := touches_firstEntry h u.mem (img.firstPageTable + 3)
    rw [← hmem] at hlast
    refine hdir.trans (htable.trans (hmap.trans (hlast.mono fun x hx => Or.inl ?_)))
    rw [Within] at hx ⊢
    omega
  · obtain ⟨l₁, hl₁, hin₁⟩ := hfirst.stored
    obtain ⟨l₂, hl₂, hin₂⟩ := hsecond.stored
    obtain ⟨l₃, hl₃, hin₃⟩ := hthird.stored
    have hend := end_of_aligned h.directory
    rw [hl₃, hl₂, hl₁, List.append_assoc, List.append_assoc, List.append_assoc] at hstored
    refine ⟨_, hstored, fun x hx => ?_⟩
    rw [List.mem_append, List.mem_append, List.mem_append] at hx
    obtain hx | hx | hx | hx := hx
    · exact Or.inl (hin₁ x hx)
    · exact Or.inr (hin₂ x hx)
    · exact Or.inr (hin₃ x hx)
    · obtain ⟨i, hi, rfl⟩ := List.mem_map.1 hx
      have hi4 := List.mem_range.1 hi
      left
      rw [Within, offset_toNat hi4 (by omega)]
      omega

end

/-! ## The walk -/

section
variable {img : Image} {m : PhysMem} (h : TablesPlaced img) (hm : MapsFirst img m)
include h hm

/-- Through the first entry of the directory and the page of the address. -/
theorem walk_low (pse : Bool) {va : U32} (hva : va.toNat < 2 ^ 22) :
    walk m img.pageDirectory pse va = some { address := va, writable := true, user := false } := by
  have h0 : va.toNat / 2 ^ 22 = 0 := Nat.div_eq_of_lt hva
  have hindex : va.toNat / 2 ^ 12 % 2 ^ 10 = va.toNat / 4096 := by omega
  have hpage : va.toNat / 4096 < 1024 := by omega
  have hself := frame_of_aligned h.directory
  have haligned : (BitVec.ofNat 32 (va.toNat / 4096 * 4096)).toNat % 4096 = 0 := by
    rw [toNat_ofNat_of_lt (by omega)]
    exact Nat.mul_mod_left ..
  have h3 : (3 : U32).toNat < 4096 := by decide
  have hdir : m.read32 (entryAddr img.pageDirectory (va.toNat / 2 ^ 22)) =
      img.firstPageTable + 3 := by
    rw [entryAddr_of_frame hself, h0]
    exact (congrArg m.read32 (BitVec.add_zero _)).trans hm.first
  have hentry : m.read32 (entryAddr (img.firstPageTable + 3) (va.toNat / 2 ^ 12 % 2 ^ 10)) =
      BitVec.ofNat 32 (va.toNat / 4096 * 4096) + 3 := by
    rw [entryAddr_of_frame (frame_add h.table h3), hindex, hm.pages _ hpage]
  have haddr : BitVec.ofNat 32 (va.toNat / 4096 * 4096) + BitVec.ofNat 32 (va.toNat % 2 ^ 12) =
      va := by
    have hsum : va.toNat / 4096 * 4096 + va.toNat % 2 ^ 12 = va.toNat := by omega
    rw [← BitVec.ofNat_add, hsum, BitVec.ofNat_toNat, BitVec.setWidth_eq]
  have hflags {i : Nat} (hi : i < 12) {a : U32} (ha : a.toNat % 4096 = 0) :
      (a + 3).getLsbD i = (3 : U32).getLsbD i := flag_add ha h3 hi
  simp only [walk, hdir, hentry, hflags (show 0 < 12 by decide) h.table,
    hflags (show 1 < 12 by decide) h.table, hflags (show 2 < 12 by decide) h.table,
    hflags (show 7 < 12 by decide) h.table, hflags (show 0 < 12 by decide) haligned,
    hflags (show 1 < 12 by decide) haligned, hflags (show 2 < 12 by decide) haligned,
    frame_add haligned h3, haddr]
  cases pse <;> rfl

theorem walk_high (pse : Bool) {va : U32} (hva : 2 ^ 22 ≤ va.toNat) :
    walk m img.pageDirectory pse va = none := by
  have hlt := va.isLt
  have hself := frame_of_aligned h.directory
  have hdir : m.read32 (entryAddr img.pageDirectory (va.toNat / 2 ^ 22)) = 0 := by
    rw [entryAddr_of_frame hself]
    exact hm.others _ (by omega) (by omega)
  rw [walk, hdir]
  rfl

end

/-- What `paging_install` is for. -/
structure IdentityMapped (img : Image) (s t : Sys) : Prop where
  low : ∀ pse va, va.toNat < 2 ^ 22 →
    walk t.mem t.cr3 pse va = some { address := va, writable := true, user := false }
  high : ∀ pse va, 2 ^ 22 ≤ va.toNat → walk t.mem t.cr3 pse va = none
  mem : Touches (InTables img) s.mem t.mem
  stored : ∃ log, t.stored = s.stored ++ log ∧ ∀ x ∈ log, InTables img x
  cr0 : OnlyPagingBit s.cr0 t.cr0

theorem pagingInstall_identity {img : Image} {s : Sys} (hdf : s.df = false)
    (h : TablesPlaced img) : ∃ t, pagingInstall img s = some t ∧ IdentityMapped img s t := by
  obtain ⟨t, ht, hcr3, hmaps, hmem, hstored⟩ := pagingInstall_tables hdf h
  obtain ⟨t', ht', hcr0, -⟩ := pagingInstall_regs img s
  obtain rfl := Option.some.inj (ht.symm.trans ht')
  refine ⟨t, ht, ?_, ?_, hmem, hstored, ?_⟩
  · intro pse va hva
    rw [hcr3]
    exact walk_low h hmaps pse hva
  · intro pse va hva
    rw [hcr3]
    exact walk_high h hmaps pse hva
  · rw [hcr0]
    exact onlyPagingBit_or s.cr0

theorem pagingInstall_identity_linked :
    ∃ t, pagingInstall linkedImage idleSys = some t ∧ IdentityMapped linkedImage idleSys t :=
  pagingInstall_identity (by decide) ⟨by decide, by decide, by decide⟩

end MicroKernel.Proofs
