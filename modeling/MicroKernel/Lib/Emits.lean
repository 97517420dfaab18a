/-!
# What a partial routine emits

A routine that may not end is judged by the state it ends in, if it ends: the
record `obs` has grown by a log, and the part `keep` of the state is as it was.
Logs follow one another as the pieces of the routine do.
-/

universe u v w

variable {σ : Type u} {α : Type v} {β : Type w} {obs : σ → List α} {keep : σ → β}
  {s t r : σ} {log log' : List α} {o : Option σ}

/-- From `s` to `t` the record grows by `log`. -/
structure Grows (obs : σ → List α) (keep : σ → β) (log : List α) (s t : σ) : Prop where
  obs : obs t = obs s ++ log
  keep : keep t = keep s

/-- `o`, begun in `s`, adds `log` to the record, if it ends. -/
def Emits (obs : σ → List α) (keep : σ → β) (o : Option σ) (s : σ) (log : List α) : Prop :=
  ∀ t, o = some t → Grows obs keep log s t

theorem Grows.of_eq (hobs : obs t = obs s) (hkeep : keep t = keep s) :
    Grows obs keep [] s t :=
  ⟨by rw [hobs, List.append_nil], hkeep⟩

theorem Grows.trans (h : Grows obs keep log s t) (h' : Grows obs keep log' t r) :
    Grows obs keep (log ++ log') s r :=
  ⟨by rw [h'.obs, h.obs, List.append_assoc], h'.keep.trans h.keep⟩

/-- Steps that add nothing, one after the other. -/
theorem Grows.quiet (h : Grows obs keep [] s t) (h' : Grows obs keep log t r) :
    Grows obs keep log s r := h.trans h'

theorem Emits.of_some (h : Grows obs keep log s t) : Emits obs keep (some t) s log := by
  intro r hr
  obtain rfl := Option.some.inj hr
  exact h

theorem Emits.after (h : Emits obs keep o t log') (hst : Grows obs keep log s t) :
    Emits obs keep o s (log ++ log') :=
  fun r hr => hst.trans (h r hr)

theorem Emits.quiet (h : Emits obs keep o t log) (hst : Grows obs keep [] s t) :
    Emits obs keep o s log := h.after hst

theorem Emits.bind {f : σ → Option σ} (h : Emits obs keep o s log)
    (hf : ∀ t, o = some t → Emits obs keep (f t) t log') :
    Emits obs keep (o.bind f) s (log ++ log') := by
  intro r hr
  obtain ⟨t, ht, hft⟩ := Option.bind_eq_some_iff.1 hr
  exact (hf t ht).after (h t ht) r hft

theorem Emits.map {f : σ → σ} (h : Emits obs keep o s log)
    (hf : ∀ t, Grows obs keep [] t (f t)) : Emits obs keep (o.map f) s log := by
  intro r hr
  obtain ⟨t, ht, rfl⟩ := Option.map_eq_some_iff.1 hr
  have hall := (h t ht).trans (hf t)
  rwa [List.append_nil] at hall
