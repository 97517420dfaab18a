import MicroKernel.Lib.Frame

/-!
# Named regions

Memory parted into regions that have names and do not meet. What a piece of code
may touch is then a list of names, and a property that is settled by the bytes of
some regions survives all that is not allowed to touch them: whether it is
allowed to is a matter of the names alone.
-/

namespace ByteMem

universe u

variable {w : Nat} {ι : Type u} {R : ι → BitVec w → Prop} {as bs : List ι}
  {m m' m'' : Mem w} {P Q : Mem w → Prop}

def InAny (R : ι → BitVec w → Prop) (as : List ι) (x : BitVec w) : Prop := ∃ a ∈ as, R a x

/-- Nothing outside the regions of `as` differs. -/
abbrev Only (R : ι → BitVec w → Prop) (as : List ι) (m m' : Mem w) : Prop :=
  Touches (InAny R as) m m'

def Parted (R : ι → BitVec w → Prop) : Prop := ∀ a b x, R a x → R b x → a = b

/-- It is true of a memory or not by what the regions of `bs` hold. -/
def SettledIn (R : ι → BitVec w → Prop) (bs : List ι) (P : Mem w → Prop) : Prop :=
  ∀ m m', (∀ x, InAny R bs x → m' x = m x) → P m → P m'

theorem InAny.mono {x : BitVec w} (h : InAny R as x) (hsub : as ⊆ bs) : InAny R bs x := by
  obtain ⟨a, ha, hx⟩ := h
  exact ⟨a, hsub ha, hx⟩

theorem inAny_of_mem {a : ι} {x : BitVec w} (hx : R a x) (ha : a ∈ as) : InAny R as x :=
  ⟨a, ha, hx⟩

theorem Only.widen (h : Only R as m m') (hsub : as ⊆ bs) : Only R bs m m' :=
  h.mono fun _ hx => hx.mono hsub

/-- One thing after the other. -/
theorem Only.append (h : Only R as m m') (h' : Only R bs m' m'') : Only R (as ++ bs) m m'' :=
  Touches.trans (h.widen (List.subset_append_left as bs))
    (h'.widen (List.subset_append_right as bs))

theorem SettledIn.keeps (hP : SettledIn R bs P) (hR : Parted R) (h : Only R as m m')
    (hapart : ∀ b ∈ bs, b ∉ as) (hm : P m) : P m' := by
  refine hP m m' ?_ hm
  rintro x ⟨b, hb, hx⟩
  refine h x ?_
  rintro ⟨a, ha, hax⟩
  exact hapart b hb (hR a b x hax hx ▸ ha)

theorem SettledIn.and (hP : SettledIn R as P) (hQ : SettledIn R bs Q) :
    SettledIn R (as ++ bs) fun m => P m ∧ Q m := by
  intro m m' h hm
  have hleft := hP m m' fun x hx => h x (hx.mono (List.subset_append_left as bs))
  have hright := hQ m m' fun x hx => h x (hx.mono (List.subset_append_right as bs))
  exact ⟨hleft hm.1, hright hm.2⟩

/-- Bytes that lie in one region. -/
theorem settledIn_holds (b : ι) {a : BitVec w} {bytes : List (BitVec 8)}
    (hfit : a.toNat + bytes.length ≤ 2 ^ w)
    (hin : ∀ x : BitVec w, Within a.toNat (a.toNat + bytes.length) x → R b x) :
    SettledIn R [b] fun m => Holds m a bytes := by
  intro m m' hsame hm
  refine hm.congr fun i hi => hsame _ ⟨b, List.mem_singleton_self b, hin _ ?_⟩
  rw [Within, offset_toNat hi hfit]
  omega

end ByteMem
