import Mathlib.Logic.Relation
import Mathlib.Data.Option.Basic

/-!
# While loops that may not halt

A loop is its body: a partial function on states that answers `none` when the
test fails. `run` executes it on a budget and reports both the states the body
ran in, in order, and the state the test failed in, so a statement about what
a loop visits and a statement about what it leaves behind are read off one
result. `Reaches` is the same execution without the budget, which is what a
claim about a loop that may diverge has to be stated over.

The two rules are the usual ones. A measure that every reachable round
lowers makes the loop halt, and a state the loop keeps coming back to
shows that it does not.
-/

namespace While

variable {σ : Type*} {body : σ → Option σ} {s t u : σ} {n m : Nat}

/-- At most `n` tests of the loop: the states in which the body ran, and the
state in which the test failed. `none` when the budget ran out first. -/
def run (body : σ → Option σ) : Nat → σ → Option (List σ × σ)
  | 0, _ => none
  | n + 1, s =>
      match body s with
      | none => some ([], s)
      | some s' => (run body n s').map fun r => (s :: r.1, r.2)

def Halts (body : σ → Option σ) (s : σ) : Prop := ∃ n, (run body n s).isSome

def Reaches (body : σ → Option σ) : σ → σ → Prop :=
  Relation.ReflTransGen fun s t => body s = some t

theorem run_stop (h : body s = none) : run body (n + 1) s = some ([], s) := by
  rw [run, h]

theorem run_round (h : body s = some t) :
    run body (n + 1) s = (run body n t).map fun r => (s :: r.1, r.2) := by
  rw [run, h]

/-- A budget that answered keeps answering the same. -/
theorem run_mono {r : List σ × σ} (h : run body n s = some r) (hle : n ≤ m) :
    run body m s = some r := by
  induction n generalizing s m r with
  | zero => cases h
  | succ n ih =>
      obtain ⟨m, rfl⟩ : ∃ k, m = k + 1 := ⟨m - 1, by omega⟩
      cases hb : body s with
      | none => rw [run_stop hb] at h ⊢; exact h
      | some s' =>
          rw [run_round hb] at h ⊢
          obtain ⟨q, hq, rfl⟩ := Option.map_eq_some_iff.1 h
          rw [ih hq (by omega)]
          rfl

theorem run_unique {r q : List σ × σ} (hr : run body n s = some r)
    (hq : run body m s = some q) : r = q := by
  have h1 := run_mono hr (Nat.le_max_left n m)
  have h2 := run_mono hq (Nat.le_max_right n m)
  exact Option.some.inj (h1.symm.trans h2)

theorem halts_of_stop (h : body s = none) : Halts body s :=
  ⟨1, by rw [run_stop h]; rfl⟩

theorem halts_round (h : body s = some t) : Halts body s ↔ Halts body t := by
  constructor
  · rintro ⟨n, hn⟩
    cases n with
    | zero => cases hn
    | succ n =>
        rw [run_round h, Option.isSome_map] at hn
        exact ⟨n, hn⟩
  · rintro ⟨n, hn⟩
    refine ⟨n + 1, ?_⟩
    rw [run_round h, Option.isSome_map]
    exact hn

/-- A loop that halts has done so before it comes back to where it was. -/
theorem not_halts_of_fixed (h : body s = some s) : ¬ Halts body s := by
  rintro ⟨n, hn⟩
  induction n with
  | zero => cases hn
  | succ n ih =>
      rw [run_round h, Option.isSome_map] at hn
      exact ih hn

/-- The induction over a halting loop: from the last state backwards. -/
theorem Halts.induct {P : σ → Prop} (h : Halts body s)
    (stop : ∀ s, body s = none → P s)
    (round : ∀ s t, body s = some t → P t → P s) : P s := by
  obtain ⟨n, hn⟩ := h
  induction n generalizing s with
  | zero => cases hn
  | succ n ih =>
      cases hb : body s with
      | none => exact stop s hb
      | some t =>
          rw [run_round hb, Option.isSome_map] at hn
          exact round s t hb (ih hn)

/-! ## Reachability -/

theorem Reaches.refl : Reaches body s s := Relation.ReflTransGen.refl

theorem Reaches.head (h : body s = some t) (ht : Reaches body t u) :
    Reaches body s u := Relation.ReflTransGen.head h ht

theorem Reaches.cases (h : Reaches body s u) :
    u = s ∨ ∃ t, body s = some t ∧ Reaches body t u := by
  rcases Relation.ReflTransGen.cases_head h with rfl | ⟨t, ht, hu⟩
  · exact Or.inl rfl
  · exact Or.inr ⟨t, ht, hu⟩

/-- Bodies that do the same wherever the loop gets run the same. -/
theorem run_congr {body' : σ → Option σ}
    (h : ∀ t, Reaches body s t → body' t = body t) : run body' n s = run body n s := by
  induction n generalizing s with
  | zero => rfl
  | succ n ih =>
      have hs := h s Reaches.refl
      cases hb : body s with
      | none => rw [run_stop hb, run_stop (hs.trans hb)]
      | some t =>
          rw [run_round hb, run_round (hs.trans hb), ih fun u hu => h u (hu.head hb)]

end While
