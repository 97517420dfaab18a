import Mathlib.Data.List.Basic

/-!
# Runs of a system that takes one event after the other

A step is a partial function of a state and an event: `none` when the event
cannot happen there. A run is a list of events, so what went in is read off the
list, and any order of the events that the steps allow is a run.

Three rules carry what follows from them: an invariant that every step keeps, a
record to which every step adds its own part, and a goal that is reached because
steps towards it are always there.
-/

universe u v w

namespace Events

variable {σ : Type u} {ε : Type v} {step : σ → ε → Option σ} {s t r : σ} {es fs : List ε}

def run (step : σ → ε → Option σ) (s : σ) (es : List ε) : Option σ := es.foldlM step s

@[simp] theorem run_nil : run step s [] = some s := rfl

theorem run_cons {e : ε} : run step s (e :: es) = (step s e).bind fun t => run step t es := by
  rw [run, List.foldlM_cons]
  rfl

/-- What every step keeps, as long as its event is one of `A`, every run keeps. -/
theorem invariant {A : ε → Prop} {P : σ → Prop}
    (keep : ∀ s e t, A e → P s → step s e = some t → P t)
    (h : run step s es = some t) (hes : ∀ e ∈ es, A e) (hs : P s) : P t := by
  induction es generalizing s with
  | nil =>
      obtain rfl := Option.some.inj h
      exact hs
  | cons e es ih =>
      rw [run_cons] at h
      obtain ⟨r, hr, h⟩ := Option.bind_eq_some_iff.1 h
      obtain ⟨he, hes⟩ := List.forall_mem_cons.1 hes
      exact ih h hes (keep s e r he hs hr)

/-- A record to which each step adds what its event says holds, after a run, what
its events say, in their order. -/
theorem record {α : Type w} {A : ε → Prop} {P : σ → Prop} {f : σ → List α} {g : ε → List α}
    (keep : ∀ s e t, A e → P s → step s e = some t → P t)
    (adds : ∀ s e t, A e → P s → step s e = some t → f t = f s ++ g e)
    (h : run step s es = some t) (hes : ∀ e ∈ es, A e) (hs : P s) :
    f t = f s ++ es.flatMap g := by
  induction es generalizing s with
  | nil =>
      obtain rfl := Option.some.inj h
      rw [List.flatMap_nil, List.append_nil]
  | cons e es ih =>
      rw [run_cons] at h
      obtain ⟨r, hr, h⟩ := Option.bind_eq_some_iff.1 h
      obtain ⟨he, hes⟩ := List.forall_mem_cons.1 hes
      rw [ih h hes (keep s e r he hs hr), adds s e r he hs hr, List.flatMap_cons,
        List.append_assoc]

/-- Where every state of `P` that is not yet in `Q` has a step by an event of `A`
that stays in `P` and lowers `m`, some run by events of `A` ends in `Q`. -/
theorem reaches {A : ε → Prop} {P Q : σ → Prop} (m : σ → Nat)
    (next : ∀ s, P s → ¬ Q s → ∃ e t, A e ∧ step s e = some t ∧ P t ∧ m t < m s)
    (hs : P s) : ∃ es t, (∀ e ∈ es, A e) ∧ run step s es = some t ∧ P t ∧ Q t := by
  induction hm : m s using Nat.strongRecOn generalizing s with
  | ind n ih =>
      by_cases hq : Q s
      · exact ⟨[], s, by simp, rfl, hs, hq⟩
      · obtain ⟨e, t, he, hstep, ht, hlt⟩ := next s hs hq
        obtain ⟨es, r, hes, hrun, hr⟩ := ih (m t) (hm ▸ hlt) ht rfl
        refine ⟨e :: es, r, List.forall_mem_cons.2 ⟨he, hes⟩, ?_, hr⟩
        rw [run_cons, hstep]
        exact hrun

end Events
