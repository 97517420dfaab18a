import MicroKernel.Lib.Bump
import MicroKernel.Proofs.PmmWalk

/-!
# Runs of the page allocator

The allocator is a bump allocator on 32-bit words. Below the last page of the
address space its words behave as integers and it refines `Bump.Arena`, so the
answers of a whole run are the arena's closed form (`pmmRun_arena`). From
`0xFFFFF000` on the exhaustion test wraps: the sum it compares is zero, every
request is granted, and the break goes round the address space
(`pmmRun_wraps`). Everything claimed about runs is read off these two forms.
-/

namespace MicroKernel.Proofs

open MicroKernel.Kernel MicroKernel.Spec

def allocs : List PmmOp → Nat
  | [] => 0
  | .alloc :: ops => allocs ops + 1
  | .free _ :: ops => allocs ops

/-- The memory manager as an arena. -/
def arenaOf (s : Pmm) : Bump.Arena :=
  ⟨s.currentBreak.toNat, s.memoryEnd.toNat, 4096, by decide⟩

/-- An answer as the pointer the source returns. -/
def toPage : Option Nat → U32
  | none => 0
  | some p => BitVec.ofNat 32 p

@[simp] theorem allocs_replicate (n : Nat) :
    allocs (List.replicate n .alloc) = n := by
  induction n with
  | zero => rfl
  | succ n ih => rw [List.replicate_succ, allocs, ih]

@[simp] theorem pmmRun_free (s : Pmm) (p : U32) (ops : List PmmOp) :
    pmmRun s (.free p :: ops) = pmmRun s ops := by
  rw [pmmRun, pmmFreePage]

@[simp] theorem pmmRun_alloc (s : Pmm) (ops : List PmmOp) :
    pmmRun s (.alloc :: ops) =
      ((pmmAllocPage s).1 :: (pmmRun (pmmAllocPage s).2 ops).1,
        (pmmRun (pmmAllocPage s).2 ops).2) := by
  rw [pmmRun]

theorem pmmAllocPage_full {s : Pmm}
    (h : s.currentBreak + pageSize > s.memoryEnd) :
    pmmAllocPage s = (0, s) := if_pos h

theorem pmmAllocPage_grant {s : Pmm}
    (h : ¬ s.currentBreak + pageSize > s.memoryEnd) :
    pmmAllocPage s = (s.currentBreak,
      { s with currentBreak := s.currentBreak + pageSize }) := if_neg h

/-- A request below the last page is the arena's. -/
theorem pmmAllocPage_arena {s : Pmm}
    (htop : s.currentBreak.toNat + 4096 < 2 ^ 32) :
    (pmmAllocPage s).1 = toPage (arenaOf s).take.1 ∧
      arenaOf (pmmAllocPage s).2 = (arenaOf s).take.2 := by
  have hsum : (s.currentBreak + pageSize).toNat =
      s.currentBreak.toNat + 4096 := by
    rw [BitVec.toNat_add]
    exact Nat.mod_eq_of_lt htop
  by_cases hfull : s.currentBreak + pageSize > s.memoryEnd
  · have hlt := BitVec.lt_def.1 hfull
    have htake : (arenaOf s).take = (none, arenaOf s) :=
      if_neg (show ¬ s.currentBreak.toNat + 4096 ≤ s.memoryEnd.toNat by omega)
    rw [pmmAllocPage_full hfull, htake]
    exact ⟨rfl, rfl⟩
  · have hle := mt BitVec.lt_def.2 hfull
    have htake : (arenaOf s).take = (some s.currentBreak.toNat,
        { arenaOf s with next := s.currentBreak.toNat + 4096 }) :=
      if_pos (show s.currentBreak.toNat + 4096 ≤ s.memoryEnd.toNat by omega)
    rw [pmmAllocPage_grant hfull, htake]
    refine ⟨?_, ?_⟩
    · rw [toPage, BitVec.ofNat_toNat, BitVec.setWidth_eq]
    · simp only [arenaOf, hsum]

/-- What a request leaves alone, and how far the break can get. -/
theorem pmmAllocPage_frame {s : Pmm} (hle : s.currentBreak ≤ s.memoryEnd) :
    (pmmAllocPage s).2.memoryEnd = s.memoryEnd ∧
      (pmmAllocPage s).2.startAddr = s.startAddr ∧
      (pmmAllocPage s).2.currentBreak ≤ s.memoryEnd := by
  by_cases hfull : s.currentBreak + pageSize > s.memoryEnd
  · rw [pmmAllocPage_full hfull]
    exact ⟨rfl, rfl, hle⟩
  · rw [pmmAllocPage_grant hfull]
    exact ⟨rfl, rfl, BitVec.not_lt.1 hfull⟩

/-- A run whose end of memory stays below the last page is the arena's. -/
theorem pmmRun_arena : ∀ (ops : List PmmOp) (s : Pmm),
    s.memoryEnd.toNat < 0xFFFFF000 → s.currentBreak ≤ s.memoryEnd →
    (pmmRun s ops).1 =
        ((Bump.Arena.takes (allocs ops) (arenaOf s)).1).map toPage ∧
      arenaOf (pmmRun s ops).2 =
        (Bump.Arena.takes (allocs ops) (arenaOf s)).2 ∧
      (pmmRun s ops).2.memoryEnd = s.memoryEnd ∧
      (pmmRun s ops).2.startAddr = s.startAddr := by
  intro ops
  induction ops with
  | nil => exact fun s _ _ => ⟨rfl, rfl, rfl, rfl⟩
  | cons op ops ih =>
      intro s htop hle
      cases op with
      | free p =>
          rw [pmmRun_free, allocs]
          exact ih s htop hle
      | alloc =>
          have hbrk := BitVec.le_def.1 hle
          obtain ⟨hptr, harena⟩ := pmmAllocPage_arena (s := s) (by omega)
          obtain ⟨hend, hstart, hbelow⟩ := pmmAllocPage_frame hle
          obtain ⟨hps, ha, he, hs⟩ :=
            ih (pmmAllocPage s).2 (by rw [hend]; exact htop)
              (by rw [hend]; exact hbelow)
          rw [harena] at hps ha
          rw [pmmRun_alloc, allocs, Bump.Arena.takes, List.map_cons, ← hptr, ← hps]
          exact ⟨rfl, ha, he.trans hend, hs.trans hstart⟩

theorem pmmRun_results {s : Pmm} (htop : s.memoryEnd.toNat < 0xFFFFF000)
    (hle : s.currentBreak ≤ s.memoryEnd) (ops : List PmmOp) :
    (pmmRun s ops).1 = (List.range (allocs ops)).map
      fun i => toPage ((arenaOf s).grant i) := by
  rw [(pmmRun_arena ops s htop hle).1, Bump.Arena.takes_fst, List.map_map]
  rfl

/-- Past the last page every request is granted, and the break goes round. -/
theorem pmmRun_wraps : ∀ (ops : List PmmOp) (s : Pmm),
    0xFFFFF000 ≤ s.memoryEnd.toNat → s.currentBreak.toNat % 4096 = 0 →
    (pmmRun s ops).1 = (List.range (allocs ops)).map
      fun i => s.currentBreak + BitVec.ofNat 32 (4096 * i) := by
  intro ops
  induction ops with
  | nil =>
      intro s _ _
      rw [pmmRun, allocs, List.range_zero, List.map_nil]
  | cons op ops ih =>
      intro s htop halign
      cases op with
      | free p =>
          rw [pmmRun_free, allocs]
          exact ih s htop halign
      | alloc =>
          have hsum : (s.currentBreak + pageSize).toNat =
              (s.currentBreak.toNat + 4096) % 2 ^ 32 := BitVec.toNat_add _ _
          have hlt := s.currentBreak.isLt
          have hgrant : ¬ s.currentBreak + pageSize > s.memoryEnd := by
            intro hgt
            have := BitVec.lt_def.1 hgt
            omega
          have halign' : (s.currentBreak + pageSize).toNat % 4096 = 0 := by
            omega
          have hrest :=
            ih { s with currentBreak := s.currentBreak + pageSize } htop halign'
          rw [pmmRun_alloc, pmmAllocPage_grant hgrant, hrest, allocs,
            List.range_succ_eq_map, List.map_cons, List.map_map, Nat.mul_zero,
            BitVec.add_zero]
          refine congrArg _ (List.map_congr_left fun i _ => ?_)
          rw [Function.comp_apply, Nat.mul_succ, Nat.add_comm (4096 * i),
            BitVec.ofNat_add, ← BitVec.add_assoc]
          rfl

end MicroKernel.Proofs
