import MicroKernel.Core.Bitmap

/-!
# The set of pages in use

What the bitmap stands for: a page is in it when the last call that named the
page was one that marks it.
-/

namespace MicroKernel.Spec

open MicroKernel.Core

/-- The last of the calls on page `i` marks it. -/
def LastSet (calls : List BitmapCall) (i : U32) : Prop :=
  ∃ pre post, calls = pre ++ .set i :: post ∧ ∀ c ∈ post, c.pageIndex ≠ i

/-- Whether a call marks the page it names. -/
def marks : BitmapCall → Bool
  | .set _ => true
  | .unset _ => false

theorem not_lastSet_nil (i : U32) : ¬ LastSet [] i := by
  rintro ⟨pre, post, h, -⟩
  cases pre <;> cases h

/-- Where an element stands in a longer list: last, or among the earlier ones. -/
theorem concat_eq_iff {α : Type} {calls pre post : List α} {c d : α} :
    calls ++ [c] = pre ++ d :: post ↔
      (post = [] ∧ calls = pre ∧ c = d) ∨
        ∃ mid, post = mid ++ [c] ∧ calls = pre ++ d :: mid := by
  obtain rfl | ⟨mid, e, rfl⟩ := List.eq_nil_or_concat post
  · simp
  · rw [List.concat_eq_append, ← List.cons_append, ← List.append_assoc,
      List.append_singleton_inj]
    constructor
    · rintro ⟨h, rfl⟩
      exact Or.inr ⟨mid, rfl, h⟩
    · rintro (⟨h, -⟩ | ⟨mid', h, h'⟩)
      · exact absurd h (by simp)
      · obtain ⟨rfl, rfl⟩ := List.append_singleton_inj.1 h
        exact ⟨h', rfl⟩

theorem lastSet_concat {calls : List BitmapCall} {c : BitmapCall} {i : U32} :
    LastSet (calls ++ [c]) i ↔ if i = c.pageIndex then marks c = true else LastSet calls i := by
  split
  · next hi =>
      subst hi
      constructor
      · rintro ⟨pre, post, h, hpost⟩
        obtain ⟨-, -, hc⟩ | ⟨mid, rfl, -⟩ := concat_eq_iff.1 h
        · rw [hc]
          rfl
        · exact absurd rfl (hpost c (List.mem_append_right _ List.mem_cons_self))
      · intro hc
        cases c with
        | set i => exact ⟨calls, [], rfl, fun _ hd => absurd hd List.not_mem_nil⟩
        | unset i => cases hc
  · next hi =>
      constructor
      · rintro ⟨pre, post, h, hpost⟩
        obtain ⟨-, -, rfl⟩ | ⟨mid, rfl, rfl⟩ := concat_eq_iff.1 h
        · exact absurd rfl hi
        · exact ⟨pre, mid, rfl, fun d hd => hpost d (List.mem_append_left _ hd)⟩
      · rintro ⟨pre, post, rfl, hpost⟩
        refine ⟨pre, post ++ [c], List.append_assoc .., ?_⟩
        exact List.forall_mem_append.2 ⟨hpost, List.forall_mem_singleton.2 (Ne.symm hi)⟩

end MicroKernel.Spec
