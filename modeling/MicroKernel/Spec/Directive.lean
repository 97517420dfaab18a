import MicroKernel.Spec.Format

/-!
# Formats by their directives

Every format that ends each `%` properly is a list of directives: a character,
or a conversion with the digits in front of its letter. The pieces of a text
leave out what `shell_printf` accepts beyond them (a bare `2` or `8`, a letter
it does not know, any width behind a zero); here all of it is kept, with the
number of characters each directive asks for.
-/

namespace MicroKernel.Spec

open MicroKernel.Core

/-- A conversion, with the argument it takes. -/
inductive Conversion where
  | str (s : List U8)
  | dec (v : U32)
  | hex (v : U32)
  | low2 (v : U32)
  | low8 (v : U32)
  | char (v : U32)
  | percent
  | other (c : U8) (hnul : c ≠ 0) (hother : c ∉ ascii "sdx028c%")

def Conversion.letter : Conversion → U8
  | .str _ => chr 's'
  | .dec _ => chr 'd'
  | .hex _ => chr 'x'
  | .low2 _ => chr '2'
  | .low8 _ => chr '8'
  | .char _ => chr 'c'
  | .percent => chr '%'
  | .other c _ _ => c

def Conversion.args : Conversion → List Arg
  | .str s => [.str s]
  | .dec v | .hex v | .low2 v | .low8 v | .char v => [.int v]
  | .percent | .other .. => []

/-- The number of characters a conversion asks for. -/
def Conversion.width : Conversion → Nat
  | .str s => (cstr s).length
  | .dec v => (decimalText v.toInt).length
  | .hex v => (numeralText 16 v.toNat).length
  | .low2 _ => 2
  | .low8 _ => 8
  | .char _ | .percent | .other .. => 1

/-- What may stand between the `%` and the letter: nothing, or digits that a
zero leads. A letter that is a digit itself would be skipped with them. -/
inductive Pad : List U8 → U8 → Prop where
  | none {c : U8} (h : c ≠ chr '0') : Pad [] c
  | zero {ds : List U8} {c : U8} (hds : ∀ d ∈ ds, isDigit d = true)
      (h : isDigit c = false) : Pad (chr '0' :: ds) c

inductive Directive where
  | lit (c : U8) (hnul : c ≠ 0) (hpercent : c ≠ chr '%')
  | conv (pad : List U8) (k : Conversion) (hpad : Pad pad k.letter)

def Directive.fmt : Directive → List U8
  | .lit c _ _ => [c]
  | .conv pad k _ => chr '%' :: pad ++ [k.letter]

def Directive.args : Directive → List Arg
  | .lit .. => []
  | .conv _ k _ => k.args

def Directive.width : Directive → Nat
  | .lit .. => 1
  | .conv _ k _ => k.width

/-- `%s` is the one conversion whose characters are counted. -/
def Directive.IsString : Directive → Prop
  | .conv _ (.str _) _ => True
  | _ => False

def formatOf (ds : List Directive) : List U8 := ds.flatMap Directive.fmt ++ [0]

def argumentsOf (ds : List Directive) : List Arg := ds.flatMap Directive.args

def widthOf (ds : List Directive) : Nat := (ds.map Directive.width).sum

theorem formatOf_cons (d : Directive) (ds : List Directive) :
    formatOf (d :: ds) = d.fmt ++ formatOf ds := by
  simp [formatOf]

theorem argumentsOf_cons (d : Directive) (ds : List Directive) :
    argumentsOf (d :: ds) = d.args ++ argumentsOf ds := rfl

theorem widthOf_cons (d : Directive) (ds : List Directive) :
    widthOf (d :: ds) = d.width + widthOf ds := rfl

/-- With `w` characters in the buffer already: no directive but `%s` begins
before index 511 and reaches past it. -/
def FitsFrom (w : Nat) (ds : List Directive) : Prop :=
  ∀ pre d post, ds = pre ++ d :: post → ¬ d.IsString → w + widthOf pre < 511 →
    w + widthOf pre + d.width ≤ 511

theorem fitsFrom_nil (w : Nat) : FitsFrom w [] := by
  intro pre d post h
  cases pre <;> cases h

theorem fitsFrom_cons {w : Nat} {d : Directive} {ds : List Directive} :
    FitsFrom w (d :: ds) ↔
      (¬ d.IsString → w < 511 → w + d.width ≤ 511) ∧ FitsFrom (w + d.width) ds := by
  constructor
  · intro h
    refine ⟨h [] d ds rfl, fun pre e post hds hstr hroom => ?_⟩
    have hcons := h (d :: pre) e post (congrArg (d :: ·) hds) hstr
    rw [widthOf_cons, ← Nat.add_assoc] at hcons
    exact hcons hroom
  · rintro ⟨hhead, htail⟩ pre e post hds hstr hroom
    cases pre with
    | nil =>
        obtain ⟨rfl, -⟩ := List.cons.inj hds
        exact hhead hstr hroom
    | cons p pre =>
        obtain ⟨rfl, hrest⟩ := List.cons.inj hds
        rw [widthOf_cons, ← Nat.add_assoc] at hroom ⊢
        exact htail pre e post hrest hstr hroom

/-- Nothing begins in a full buffer. -/
theorem fitsFrom_full {w : Nat} (h : 511 ≤ w) (ds : List Directive) : FitsFrom w ds := by
  intro pre d post _ _ hroom
  omega

/-! ## Formats that end inside a directive -/

/-- A specifier with no letter: the format ends behind its `%`, or behind the
digits that a zero leads. -/
inductive CutOff : List U8 → Prop where
  | percent : CutOff [chr '%']
  | padded {ds : List U8} (hds : ∀ d ∈ ds, isDigit d = true) :
      CutOff (chr '%' :: chr '0' :: ds)

/-- The format, which its NUL is not part of, is `ds` with `tail` behind, and the
arguments begin with those of `ds`. -/
structure Spells (fmt : List U8) (args : List Arg) (ds : List Directive)
    (tail : List U8) : Prop where
  fmt : fmt = ds.flatMap Directive.fmt ++ tail
  args : ∃ rest, args = argumentsOf ds ++ rest

/-- There is an argument of the right kind for each conversion of the format. -/
def LongEnough (fmt : List U8) (args : List Arg) : Prop :=
  ∃ ds tail, Spells fmt args ds tail ∧ (tail = [] ∨ CutOff tail)

/-- The format ends in a specifier that is cut off, and there is room in the
buffer when the scan comes to it. -/
def CutShort (fmt : List U8) (args : List Arg) : Prop :=
  ∃ ds tail, Spells fmt args ds tail ∧ CutOff tail ∧ widthOf ds < 511

theorem exists_letter {c : U8} (hnul : c ≠ 0) (hzero : c ≠ chr '0') :
    ∃ k : Conversion, k.letter = c := by
  by_cases hother : c ∈ ascii "sdx028c%"
  · have hsome : c = chr 's' ∨ c = chr 'd' ∨ c = chr 'x' ∨ c = chr '0' ∨ c = chr '2' ∨
        c = chr '8' ∨ c = chr 'c' ∨ c = chr '%' := by
      simpa [ascii, chr] using hother
    obtain rfl | rfl | rfl | rfl | rfl | rfl | rfl | rfl := hsome
    · exact ⟨.str [], rfl⟩
    · exact ⟨.dec 0, rfl⟩
    · exact ⟨.hex 0, rfl⟩
    · exact absurd rfl hzero
    · exact ⟨.low2 0, rfl⟩
    · exact ⟨.low8 0, rfl⟩
    · exact ⟨.char 0, rfl⟩
    · exact ⟨.percent, rfl⟩
  · exact ⟨.other c hnul hother, rfl⟩

/-- The `%` of a format with what follows it: a directive, or cut off. -/
theorem percent_split {f : List U8} (hnul : 0 ∉ f) :
    CutOff (chr '%' :: f) ∨ ∃ d g, chr '%' :: f = Directive.fmt d ++ g := by
  cases f with
  | nil => exact Or.inl .percent
  | cons c f =>
      rw [List.mem_cons, not_or] at hnul
      by_cases hc : c = chr '0'
      · subst hc
        have hsplit := List.takeWhile_append_dropWhile (p := isDigit) (l := f)
        have hds : ∀ d ∈ f.takeWhile isDigit, isDigit d = true := fun _ =>
          List.mem_takeWhile_imp
        cases hrest : f.dropWhile isDigit with
        | nil =>
            rw [hrest, List.append_nil] at hsplit
            exact Or.inl (hsplit ▸ .padded hds)
        | cons x g =>
            rw [hrest] at hsplit
            have hx : isDigit x = false := by
              have hhead := List.head?_dropWhile_not isDigit f
              rw [hrest] at hhead
              exact hhead
            have hxnul : x ≠ 0 := by
              rintro rfl
              exact hnul.2 (hsplit ▸ List.mem_append_right _ List.mem_cons_self)
            have hxzero : x ≠ chr '0' := by
              rintro rfl
              exact absurd hx (by decide)
            obtain ⟨k, rfl⟩ := exists_letter hxnul hxzero
            refine Or.inr ⟨.conv _ k (.zero hds hx), g, ?_⟩
            show _ = chr '%' :: chr '0' :: (f.takeWhile isDigit ++ [k.letter] ++ g)
            rw [List.append_assoc, List.singleton_append, hsplit]
      · obtain ⟨k, rfl⟩ := exists_letter (Ne.symm hnul.1) hc
        exact Or.inr ⟨.conv [] k (.none hc), f, rfl⟩

theorem fmt_length_pos (d : Directive) : 0 < d.fmt.length := by
  cases d <;> exact Nat.succ_pos _

theorem flatMap_fmt_length (ds : List Directive) :
    ds.length ≤ (ds.flatMap Directive.fmt).length := by
  induction ds with
  | nil => exact Nat.le_refl 0
  | cons d ds ih =>
      have hpos := fmt_length_pos d
      rw [List.flatMap_cons, List.length_append, List.length_cons]
      omega

/-- Every format can be read, with some arguments. -/
theorem exists_longEnough (fmt : List U8) (hnul : 0 ∉ fmt) : ∃ args, LongEnough fmt args := by
  induction hlen : fmt.length using Nat.strong_induction_on generalizing fmt with
  | _ n ih =>
      have hnext : ∀ d g, fmt = Directive.fmt d ++ g → ∃ args, LongEnough fmt args := by
        rintro d g rfl
        have hpos := fmt_length_pos d
        rw [List.length_append] at hlen
        rw [List.mem_append, not_or] at hnul
        obtain ⟨_, ds, tail, ⟨rfl, -⟩, htail⟩ := ih g.length (by omega) g hnul.2 rfl
        refine ⟨argumentsOf (d :: ds), d :: ds, tail, ⟨?_, [], (List.append_nil _).symm⟩, htail⟩
        rw [List.flatMap_cons, List.append_assoc]
      cases fmt with
      | nil => exact ⟨[], [], [], ⟨rfl, [], rfl⟩, Or.inl rfl⟩
      | cons c f =>
          rw [List.mem_cons, not_or] at hnul
          by_cases hc : c = chr '%'
          · subst hc
            obtain hcut | ⟨d, g, hd⟩ := percent_split hnul.2
            · exact ⟨[], [], _, ⟨rfl, [], rfl⟩, Or.inr hcut⟩
            · exact hnext d g hd
          · exact hnext (.lit c (Ne.symm hnul.1) hc) f rfl

end MicroKernel.Spec
