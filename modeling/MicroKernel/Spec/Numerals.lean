import MicroKernel.Spec.Format

/-!
# Numbers as text

The digits `0` to `9` and `A` to `Z` in the order of their values, the letter
case of a text, and what a text reads back as. A digit has the same value in
either case.
-/

namespace MicroKernel.Spec

open MicroKernel.Core Numeral

def upperDigits : List U8 := ascii "0123456789ABCDEFGHIJKLMNOPQRSTUVWXYZ"

def upperDigit (d : Nat) : U8 := upperDigits.getD d 0

def upperText (b n : Nat) : List U8 := (numeral b n).map upperDigit

def toLower (c : U8) : U8 :=
  if chr 'A' ≤ c ∧ c ≤ chr 'Z' then c + (chr 'a' - chr 'A') else c

def lowerCase (t : List U8) : List U8 := t.map toLower

def digitValue (c : U8) : Nat := (lowerCase upperDigits).idxOf (toLower c)

/-- The number a text denotes to the base `b`. -/
def readNumeral (b : Nat) (t : List U8) : Nat := value b (t.map digitValue)

/-- Leading zeros off, the last digit stays. -/
def trimZeros : List U8 → List U8
  | c :: d :: t => if c = chr '0' then trimZeros (d :: t) else c :: d :: t
  | t => t

/-- `t` is the numeral of `n` to the base `b`, in capitals. -/
structure IsNumeral (b n : Nat) (t : List U8) : Prop where
  nonempty : t ≠ []
  digits : ∀ c ∈ t, c ∈ upperDigits.take b
  lead : t.head? = some (chr '0') → t = [chr '0']
  reads : readNumeral b t = n

/-- `t` is eight hexadecimal digits, in either case, that read back as `n`. -/
structure IsHexWord (n : U32) (t : List U8) : Prop where
  length : t.length = 8
  digits : ∀ c ∈ t, digitValue c < 16
  reads : readNumeral 16 t = n.toNat

/-- What is left of a text without its minus sign. -/
def unsignedText (t : List U8) : List U8 := if t.head? = some (chr '-') then t.tail else t

/-- The number that the longest run of decimal digits denotes, a minus sign before
it left aside. No digit at all denotes zero. -/
def prefixMagnitude (t : List U8) : Nat := readNumeral 10 ((unsignedText t).takeWhile isDigit)

def prefixValue (t : List U8) : Int :=
  if t.head? = some (chr '-') then -(prefixMagnitude t : Int) else prefixMagnitude t

/-! ## Digits -/

theorem digitValue_upperDigit : ∀ d, d < 36 → digitValue (upperDigit d) = d := by
  decide

theorem digitValue_digitText : ∀ d, d < 16 → digitValue (digitText d) = d := by
  decide

theorem toLower_upperDigit : ∀ d, d < 16 → toLower (upperDigit d) = digitText d := by
  decide

theorem toLower_digitText : ∀ d, d < 16 → toLower (digitText d) = digitText d := by
  decide

theorem digitText_decimal : ∀ d, d < 10 → digitText d = upperDigit d := by
  decide

theorem upperDigit_mem {b d : Nat} (hb : b ≤ 36) (hd : d < b) :
    upperDigit d ∈ upperDigits.take b := by
  have hlen : upperDigits.length = 36 := rfl
  have hmem : (upperDigits.take b).getD d 0 ∈ upperDigits.take b := by
    rw [List.getD_eq_getElem _ _ (by rw [List.length_take]; omega)]
    exact List.getElem_mem _
  rwa [List.getD_eq_getElem?_getD, List.getElem?_take_of_lt hd,
    ← List.getD_eq_getElem?_getD] at hmem

/-- A text of digits reads as the digits it was made from. -/
theorem readNumeral_map {b m : Nat} {ds : List Nat} {digit : Nat → U8}
    (hdigit : ∀ d, d < m → digitValue (digit d) = d) (hds : ∀ d ∈ ds, d < m) :
    readNumeral b (ds.map digit) = value b ds := by
  rw [readNumeral, List.map_map]
  congr 1
  exact (List.map_congr_left fun d hd => hdigit d (hds d hd)).trans (List.map_id ds)

theorem upperText_isNumeral {b n : Nat} (hb : 1 < b) (hb' : b ≤ 36) :
    IsNumeral b n (upperText b n) where
  nonempty := by
    intro h
    have hnil : numeral b n = [] := List.map_eq_nil_iff.1 h
    rw [numeral] at hnil
    split at hnil
    · cases hnil
    · next hz => exact Nat.digits_ne_nil_iff_ne_zero.2 hz (List.reverse_eq_nil_iff.1 hnil)
  digits := by
    intro c hc
    obtain ⟨d, hd, rfl⟩ := List.mem_map.1 hc
    exact upperDigit_mem hb' (numeral_lt hb hd)
  lead := by
    intro h
    rw [upperText, List.head?_map] at h
    obtain ⟨d, hd, hzero⟩ := Option.map_eq_some_iff.1 h
    have hlt : d < b := numeral_lt hb (List.mem_of_mem_head? hd)
    have hd0 : d = 0 := by
      have := congrArg digitValue hzero
      rwa [digitValue_upperDigit d (by omega)] at this
    subst hd0
    rw [upperText, numeral_head hd]
    rfl
  reads := by
    have hds : ∀ d ∈ numeral b n, d < 36 := fun d hd =>
      Nat.lt_of_lt_of_le (numeral_lt hb hd) hb'
    rw [upperText, readNumeral_map digitValue_upperDigit hds, value_numeral]

theorem numeralText_decimal (n : Nat) : numeralText 10 n = upperText 10 n :=
  List.map_congr_left fun d hd => digitText_decimal d (numeral_lt (by decide) hd)

theorem lowerCase_upperText (n : Nat) : lowerCase (upperText 16 n) = numeralText 16 n := by
  rw [lowerCase, upperText, List.map_map]
  exact List.map_congr_left fun d hd => toLower_upperDigit d (numeral_lt (by decide) hd)

theorem lowerCase_numeralText (n : Nat) :
    lowerCase (numeralText 16 n) = numeralText 16 n := by
  rw [lowerCase, numeralText, List.map_map]
  exact List.map_congr_left fun d hd => toLower_digitText d (numeral_lt (by decide) hd)

theorem trimZeros_map {ds : List Nat} (hds : ∀ d ∈ ds, d < 16) :
    trimZeros (ds.map digitText) = (trim ds).map digitText := by
  induction ds using trim.induct with
  | case1 e ds ih =>
      have htail : ∀ d ∈ e :: ds, d < 16 := fun d hd => hds d (List.mem_cons_of_mem _ hd)
      exact ih htail
  | case2 d e ds hd =>
      have hchar : digitText d ≠ chr '0' := by
        intro h
        have := congrArg digitValue h
        rw [digitValue_digitText d (hds d List.mem_cons_self)] at this
        exact hd this
      rw [trim, if_neg hd]
      exact if_neg hchar
  | case3 ds h =>
      cases ds with
      | nil => rfl
      | cons d ds =>
          cases ds with
          | nil => rfl
          | cons e ds => exact absurd rfl (h d e ds)

end MicroKernel.Spec
