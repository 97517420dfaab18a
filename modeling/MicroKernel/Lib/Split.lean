import Mathlib.Data.List.TakeWhile

/-!
# Cutting a list at its delimiters

Two readings of a line. `tokens` cuts at every delimiter, so two delimiters in
a row give an empty token, and a delimiter at the very end gives nothing after
it. `words` keeps the maximal runs without a delimiter. They start the same way
for as long as no token is empty, and where the first empty token stands can be
read off the line by counting delimiters.

Everything is proved along `cutInduct`, which takes a line apart one token at a
time.
-/

namespace Split

universe u

variable {α : Type u} {p : α → Bool}

/-- The tokens, each ended by a delimiter or by the end of the list. -/
def tokens (p : α → Bool) : List α → List (List α)
  | [] => []
  | c :: l =>
      if p c then [] :: tokens p l
      else
        match tokens p l with
        | [] => [[c]]
        | t :: ts => (c :: t) :: ts

def full (w : List α) : Bool := !w.isEmpty

/-- The maximal runs of elements that are not delimiters. -/
def words (p : α → Bool) (l : List α) : List (List α) :=
  (l.splitOnP p).filter full

theorem full_iff {w : List α} : full w = true ↔ w ≠ [] := by
  cases w <;> simp [full]

def Plain (p : α → Bool) (t : List α) : Prop := ∀ x ∈ t, p x = false

theorem cutInduct {P : List α → Prop} (last : ∀ t, Plain p t → P t)
    (cut : ∀ t d r, Plain p t → p d = true → P r → P (t ++ d :: r)) (l : List α) :
    P l := by
  induction hn : l.length using Nat.strongRecOn generalizing l with
  | _ n ih =>
      have hplain : Plain p (l.takeWhile fun x => !p x) := by
        intro x hx
        simpa using List.mem_takeWhile_imp hx
      rw [← List.takeWhile_append_dropWhile (p := fun x => !p x) (l := l)]
      cases hd : l.dropWhile fun x => !p x with
      | nil =>
          rw [List.append_nil]
          exact last _ hplain
      | cons d r =>
          have hpd : p d = true := by
            have h := List.head?_dropWhile_not (fun x => !p x) l
            rw [hd] at h
            simpa using h
          refine cut _ d r hplain hpd (ih r.length ?_ r rfl)
          have hle := (List.dropWhile_sublist (l := l) fun x => !p x).length_le
          rw [hd, List.length_cons] at hle
          omega

/-- The first token, and the rest if there is a delimiter. -/
theorem plain_or_cut (p : α → Bool) (l : List α) :
    Plain p l ∨ ∃ t d r, l = t ++ d :: r ∧ Plain p t ∧ p d = true := by
  induction l using cutInduct (p := p) with
  | last t ht => exact Or.inl ht
  | cut t d r ht hd _ => exact Or.inr ⟨t, d, r, rfl, ht, hd⟩

theorem tokens_plain {t : List α} (ht : Plain p t) (hne : t ≠ []) :
    tokens p t = [t] := by
  induction t with
  | nil => exact absurd rfl hne
  | cons c t ih =>
      have hc := ht c List.mem_cons_self
      rw [tokens, hc]
      cases t with
      | nil => rfl
      | cons x t =>
          rw [ih (fun y hy => ht y (List.mem_cons_of_mem _ hy)) (List.cons_ne_nil _ _)]
          rfl

theorem tokens_cut {t r : List α} {d : α} (ht : Plain p t) (hd : p d = true) :
    tokens p (t ++ d :: r) = t :: tokens p r := by
  induction t with
  | nil => simp [tokens, hd]
  | cons c t ih =>
      have hc := ht c List.mem_cons_self
      rw [List.cons_append, tokens, hc,
        ih fun y hy => ht y (List.mem_cons_of_mem _ hy)]
      rfl

theorem words_plain {t : List α} (ht : Plain p t) :
    words p t = [t].filter full := by
  rw [words, List.splitOnP_eq_singleton ht]

theorem words_cut {t r : List α} {d : α} (ht : Plain p t) (hd : p d = true) :
    words p (t ++ d :: r) = [t].filter full ++ words p r := by
  rw [words, List.splitOnP_append_cons_of_forall_mem ht d hd, words,
    ← List.filter_append]
  rfl

/-- The words are the tokens that are not empty. -/
theorem words_eq_filter (l : List α) :
    words p l = (tokens p l).filter full := by
  induction l using cutInduct (p := p) with
  | last t ht =>
      rw [words_plain ht]
      cases t with
      | nil => rfl
      | cons c t => rw [tokens_plain ht (List.cons_ne_nil _ _)]
  | cut t d r ht hd ih =>
      rw [words_cut ht hd, ih, tokens_cut ht hd, ← List.filter_append]
      rfl

theorem take_words_iff (l : List α) (n : Nat) :
    (tokens p l).take n = (words p l).take n ↔
      ∀ t ∈ (tokens p l).take n, t ≠ [] := by
  rw [words_eq_filter]
  generalize tokens p l = ts
  refine ⟨fun h t ht => ?_, fun h => ?_⟩
  · rw [h] at ht
    exact full_iff.1 (List.mem_filter.1 (List.mem_of_mem_take ht)).2
  · induction ts generalizing n with
    | nil => rfl
    | cons t ts ih =>
        cases n with
        | zero => rfl
        | succ n =>
            rw [List.take_succ_cons, List.forall_mem_cons] at h
            rw [List.filter_cons_of_pos (full_iff.2 h.1), List.take_succ_cons,
              List.take_succ_cons, ih n h.2]

theorem Plain.countP {t : List α} (ht : Plain p t) : t.countP p = 0 := by
  rw [List.countP_eq_zero]
  intro x hx
  rw [ht x hx]
  decide

/-- A first delimiter lies right after the plain part, every other one in what
follows it. -/
theorem cut_eq_iff {t q s r : List α} {e d : α} (ht : Plain p t)
    (hd : p d = true) : t ++ e :: s = q ++ d :: r ↔
      (q = t ∧ e = d ∧ s = r) ∨ ∃ q', q = t ++ e :: q' ∧ s = q' ++ d :: r := by
  rw [List.append_eq_append_iff]
  constructor
  · intro h
    obtain ⟨a, rfl, ha⟩ | ⟨c, rfl, hc⟩ := h
    · cases a with
      | nil =>
          rw [List.nil_append, List.cons.injEq] at ha
          exact Or.inl ⟨List.append_nil t, ha⟩
      | cons x a =>
          rw [List.cons_append, List.cons.injEq] at ha
          exact Or.inr ⟨a, by rw [ha.1], ha.2⟩
    · cases c with
      | nil =>
          rw [List.nil_append, List.cons.injEq] at hc
          exact Or.inl ⟨(List.append_nil q).symm, hc.1.symm, hc.2.symm⟩
      | cons x c =>
          rw [List.cons_append, List.cons.injEq] at hc
          have hx := ht x (by simp)
          rw [← hc.1, hd] at hx
          exact absurd hx (by decide)
  · intro h
    obtain ⟨rfl, rfl, rfl⟩ | ⟨a, rfl, rfl⟩ := h
    · exact Or.inl ⟨[], (List.append_nil q).symm, rfl⟩
    · exact Or.inl ⟨e :: a, rfl, rfl⟩

/-- Where the first empty token stands: `d` ends an empty token when it comes
first or right after another delimiter, and as many tokens come before it as
there are delimiters. -/
theorem take_tokens_ne_nil_iff (l : List α) (n : Nat) :
    (∀ t ∈ (tokens p l).take n, t ≠ []) ↔
      ∀ q d r, l = q ++ d :: r → p d = true → (∀ x ∈ q.getLast?, p x = true) →
        n ≤ q.countP p := by
  induction l using cutInduct (p := p) generalizing n with
  | last t ht =>
      refine iff_of_true (fun u hu => ?_) fun q d r hl hd _ => ?_
      · cases t with
        | nil => exact absurd hu (by simp [tokens])
        | cons c t =>
            rw [tokens_plain ht (List.cons_ne_nil _ _)] at hu
            have hu' := List.mem_singleton.1 (List.mem_of_mem_take hu)
            exact hu' ▸ List.cons_ne_nil c t
      · have hmem : d ∈ t := by rw [hl]; simp
        rw [ht d hmem] at hd
        exact absurd hd (by decide)
  | cut t e s ht he ih =>
      rw [tokens_cut ht he]
      cases n with
      | zero => simp
      | succ n =>
          rw [List.take_succ_cons, List.forall_mem_cons, ih]
          have hlast : ∀ q, (∀ x ∈ (t ++ e :: q).getLast?, p x = true) ↔
              ∀ x ∈ q.getLast?, p x = true := by
            intro q
            cases q with
            | nil => simp [he]
            | cons x q => simp
          have hcount : ∀ q, (t ++ e :: q).countP p = q.countP p + 1 := by
            intro q
            rw [List.countP_append, ht.countP, List.countP_cons_of_pos he]
            omega
          refine ⟨fun ⟨hne, hs⟩ q d r heq hd hq => ?_, fun h => ⟨fun hnil => ?_, ?_⟩⟩
          · obtain ⟨rfl, rfl, rfl⟩ | ⟨q', rfl, rfl⟩ := (cut_eq_iff ht hd).1 heq
            · have hin := List.getLast_mem hne
              have hp := hq _ (List.getLast?_eq_some_getLast hne)
              rw [ht _ hin] at hp
              exact absurd hp (by decide)
            · rw [hcount]
              exact Nat.succ_le_succ (hs q' d r rfl hd ((hlast q').1 hq))
          · have := h [] e s (by rw [hnil]) he (by simp)
            simp at this
          · intro q d r hs hd hq
            have := h (t ++ e :: q) d r (by rw [hs]; simp) hd ((hlast q).2 hq)
            rw [hcount] at this
            exact Nat.le_of_succ_le_succ this

end Split
