import MicroKernel.Lib.Frame

/-!
# Computations that only read

A computation that reads memory is a tree: it is done, or it loads a few bytes
and goes on with the number they spell. It never has the memory in hand, so
what it depends on is what it loads. `value` runs it on a memory and `loads`
lists the loads of that run in order; two memories that agree on the bytes of
those loads give the same value and the same loads.
-/

namespace ByteMem

variable {w : Nat} {α β : Type} {m m' : Mem w}

/-- The `width` bytes that lie `offset` past `base`. -/
structure Load (w : Nat) where
  base : BitVec w
  offset : Nat
  width : Nat
  deriving DecidableEq, Repr

def Load.read (m : Mem w) (l : Load w) : Nat :=
  readLE m (l.base + BitVec.ofNat w l.offset) l.width

/-- The load lies in a range, compared as integers: one that runs past the top
address lies in none. -/
def Load.Inside (l : Load w) (lo hi : Nat) : Prop :=
  lo ≤ l.base.toNat + l.offset ∧ l.base.toNat + l.offset + l.width ≤ hi

theorem Load.read_congr {l : Load w} {lo hi : Nat} (h : l.Inside lo hi) (hhi : hi ≤ 2 ^ w)
    (hm : ∀ x : BitVec w, Within lo hi x → m' x = m x) : l.read m' = l.read m := by
  obtain ⟨hlo, htop⟩ := h
  refine readLE_congr fun i hi' => hm _ ?_
  rw [Within, BitVec.add_assoc, ← BitVec.ofNat_add, offset_toNat (n := l.offset + l.width)
    (by omega) (by omega)]
  omega

inductive Reading (w : Nat) (α : Type)
  | done (x : α)
  | load (l : Load w) (next : Nat → Reading w α)

namespace Reading

/-- The result of the computation on the memory `m`. -/
def value (m : Mem w) : Reading w α → α
  | done x => x
  | load l next => (next (l.read m)).value m

/-- What it loads on the memory `m`, in order. -/
def loads (m : Mem w) : Reading w α → List (Load w)
  | done _ => []
  | load l next => l :: (next (l.read m)).loads m

def andThen : Reading w α → (α → Reading w β) → Reading w β
  | done x, f => f x
  | load l next, f => load l fun n => (next n).andThen f

instance : Monad (Reading w) where
  pure := done
  bind := andThen

@[simp] theorem value_pure (x : α) : (pure x : Reading w α).value m = x := rfl

@[simp] theorem loads_pure (x : α) : (pure x : Reading w α).loads m = [] := rfl

@[simp] theorem value_load (l : Load w) (f : Nat → α) :
    (load l fun n => done (f n)).value m = f (l.read m) := rfl

@[simp] theorem loads_load (l : Load w) (f : Nat → α) :
    (load l fun n => done (f n)).loads m = [l] := rfl

@[simp] theorem value_bind (r : Reading w α) (f : α → Reading w β) :
    (r >>= f).value m = (f (r.value m)).value m := by
  change (r.andThen f).value m = _
  induction r with
  | done x => rfl
  | load l next ih => exact ih _

@[simp] theorem loads_bind (r : Reading w α) (f : α → Reading w β) :
    (r >>= f).loads m = r.loads m ++ (f (r.value m)).loads m := by
  change (r.andThen f).loads m = _
  induction r with
  | done x => rfl
  | load l next ih => exact congrArg (l :: ·) (ih _)

/-- A computation depends on nothing but what it loads. -/
theorem value_congr (r : Reading w α) (h : ∀ l ∈ r.loads m, l.read m' = l.read m) :
    r.value m' = r.value m := by
  induction r with
  | done x => rfl
  | load l next ih =>
      have hl := h l List.mem_cons_self
      rw [value, value, hl]
      exact ih _ fun k hk => h k (List.mem_cons_of_mem l hk)

/-- So memories that agree on a range all its loads lie in give one value. -/
theorem value_inside {lo hi : Nat} {r : Reading w α} (hin : ∀ l ∈ r.loads m, l.Inside lo hi)
    (hhi : hi ≤ 2 ^ w) (hm : ∀ x : BitVec w, Within lo hi x → m' x = m x) :
    r.value m' = r.value m :=
  r.value_congr fun l hl => Load.read_congr (hin l hl) hhi hm

end Reading

end ByteMem
