/-!
# Arrays of fixed size

An array keeps its size, and an access outside it has no answer. A write is
described by the list it leaves, split where it happened: that is the form in
which a loop that works its way through an array composes.
-/

universe u

structure CArray (α : Type u) (n : Nat) where
  cells : List α
  size : cells.length = n
  deriving DecidableEq, Repr

namespace CArray

variable {α : Type u} {n : Nat}

def fill (n : Nat) (v : α) : CArray α n := ⟨List.replicate n v, List.length_replicate⟩

def load (a : CArray α n) (i : Int) : Option α :=
  if 0 ≤ i then a.cells[i.toNat]? else none

def store (a : CArray α n) (i : Int) (v : α) : Option (CArray α n) :=
  if 0 ≤ i ∧ i < n then
    some ⟨a.cells.set i.toNat v, by rw [List.length_set, a.size]⟩
  else none

theorem load_natCast (a : CArray α n) (p : Nat) : a.load p = a.cells[p]? := by
  rw [load, if_pos (Int.natCast_nonneg _), Int.toNat_natCast]

theorem load_eq {a : CArray α n} {q r : List α} {x : α}
    (h : a.cells = q ++ x :: r) : a.load q.length = some x := by
  rw [load_natCast, h, List.getElem?_append_right (Nat.le_refl _), Nat.sub_self]
  rfl

theorem load_lt {a : CArray α n} {p : Nat} (hp : p < n) (d : α) :
    a.load p = some (a.cells.getD p d) := by
  have hp' : p < a.cells.length := by rw [a.size]; exact hp
  rw [load_natCast, List.getD_eq_getElem?_getD, List.getElem?_eq_getElem hp',
    Option.getD_some]

theorem store_lt {a : CArray α n} {p : Nat} (hp : p < n) (v : α) :
    ∃ b, a.store p v = some b ∧ b.cells = a.cells.set p v :=
  ⟨_, if_pos ⟨Int.natCast_nonneg _, Int.ofNat_lt.2 hp⟩,
    congrArg (a.cells.set · v) (Int.toNat_natCast p)⟩

theorem store_eq {a : CArray α n} {q r : List α} {x : α}
    (h : a.cells = q ++ x :: r) (v : α) :
    ∃ b, a.store q.length v = some b ∧ b.cells = q ++ v :: r := by
  have hlt : q.length < n := by
    have := a.size
    rw [h, List.length_append, List.length_cons] at this
    omega
  obtain ⟨b, hstore, hcells⟩ := store_lt hlt v
  refine ⟨b, hstore, ?_⟩
  rw [hcells, h, List.set_append_right _ _ (Nat.le_refl _), Nat.sub_self,
    List.set_cons_zero]

/-- The `len` cells from `p` on, and one more behind them. -/
theorem cells_split {a : CArray α n} {p len : Nat} (h : p + len < n) :
    ∃ old x, old.length = len ∧
      a.cells = a.cells.take p ++ old ++ x :: a.cells.drop (p + len + 1) := by
  have hlt : p + len < a.cells.length := by rw [a.size]; exact h
  refine ⟨(a.cells.drop p).take len, a.cells[p + len], ?_, ?_⟩
  · rw [List.length_take, List.length_drop]
    omega
  · rw [← List.drop_eq_getElem_cons hlt, ← List.take_add, List.take_append_drop]

/-- Two cells can be exchanged in either order. -/
theorem swap_comm {β : Type u} {a : CArray α n} {i j : Nat} (hij : i ≠ j)
    (k : CArray α n → Option β) :
    (do let x ← a.load i; let y ← a.load j
        let b ← a.store i y; let c ← b.store j x; k c) =
      (do let y ← a.load j; let x ← a.load i
          let b ← a.store j x; let c ← b.store i y; k c) := by
  have hload : ∀ p : Nat, p < n → ∃ x, a.load p = some x := by
    intro p hp
    have hp' : p < a.cells.length := by rw [a.size]; exact hp
    exact ⟨a.cells[p], (load_natCast a p).trans (List.getElem?_eq_getElem hp')⟩
  have hnone : ∀ p : Nat, ¬ p < n → a.load p = none := by
    intro p hp
    rw [load_natCast]
    exact List.getElem?_eq_none (by rw [a.size]; exact Nat.le_of_not_lt hp)
  by_cases hi : i < n
  · by_cases hj : j < n
    · obtain ⟨x, hx⟩ := hload i hi
      obtain ⟨y, hy⟩ := hload j hj
      simp [hx, hy, store, hi, hj, List.set_comm y x hij]
    · cases h : a.load i <;> simp [hnone j hj]
  · cases h : a.load j <;> simp [hnone i hi]

end CArray
