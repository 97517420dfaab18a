import Mathlib.Data.List.Induction

/-!
# Each step of a run

A run is the list of its inputs, and what is asked of a step may look at the
inputs before it.
-/

universe u

variable {α : Type u} {P : List α → α → Prop}

def EachStep (P : List α → α → Prop) (xs : List α) : Prop :=
  ∀ pre x post, xs = pre ++ x :: post → P pre x

theorem eachStep_nil : EachStep P [] := by
  intro pre x post h
  cases pre <;> cases h

theorem eachStep_concat {xs : List α} {y : α} :
    EachStep P (xs ++ [y]) ↔ EachStep P xs ∧ P xs y := by
  constructor
  · intro h
    refine ⟨fun pre x post hxs => h pre x (post ++ [y]) ?_, h xs y [] rfl⟩
    rw [hxs, List.append_assoc]
    rfl
  · rintro ⟨hxs, hy⟩ pre x post h
    cases post using List.reverseRecOn with
    | nil =>
        obtain ⟨rfl, hsingle⟩ := List.append_inj' h rfl
        obtain rfl := List.head_eq_of_cons_eq hsingle
        exact hy
    | append_singleton post z _ =>
        rw [← List.cons_append, ← List.append_assoc] at h
        obtain ⟨rfl, -⟩ := List.append_inj' h rfl
        exact hxs pre x post rfl

theorem eachStep_cons {x : α} {xs : List α} :
    EachStep P (x :: xs) ↔ P [] x ∧ EachStep (fun pre => P (x :: pre)) xs := by
  constructor
  · intro h
    exact ⟨h [] x xs rfl, fun pre y post hxs => h (x :: pre) y post (by rw [hxs]; rfl)⟩
  · rintro ⟨hx, hxs⟩ pre y post h
    cases pre with
    | nil =>
        obtain ⟨rfl, -⟩ := List.cons.inj h
        exact hx
    | cons z pre =>
        obtain ⟨rfl, rfl⟩ := List.cons.inj h
        exact hxs pre y post rfl
