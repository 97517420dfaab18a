import MicroKernel.Core.Atoi
import MicroKernel.Spec.Numerals

/-!
# The range of `k_atoi`

The accumulator runs through the values of the prefixes of the digits, and these
only grow. So the last one decides whether any of them leaves the range, and the
sign comes too late to matter: the most negative `int` is not read.
-/

namespace MicroKernel.Proofs

open MicroKernel.Core Spec Numeral

/-- No computation of `k_atoi` leaves the range of `int`, and a value that fits
is returned. -/
def ReadsExactly (s : List U8) : Prop :=
  kAtoiExact (s ++ [0]) ≠ .error .overflow ∧
    (FitsInt (prefixValue s) → kAtoiExact (s ++ [0]) = .ok (prefixValue s))

theorem isDigit_iff {c : U8} : isDigit c = true ↔ 48 ≤ c.toNat ∧ c.toNat ≤ 57 := by
  rw [isDigit, Bool.and_eq_true, decide_eq_true_iff, decide_eq_true_iff]
  exact Iff.rfl

theorem digitValue_digit {c : U8} (h : isDigit c = true) : digitValue c = c.toNat - 48 := by
  have hdigit : ∀ d, d < 10 → digitValue (BitVec.ofNat 8 (d + 48)) = d := by decide
  rw [isDigit_iff] at h
  have hc := hdigit (c.toNat - 48) (by omega)
  rwa [Nat.sub_add_cancel h.1, BitVec.ofNat_toNat, BitVec.setWidth_eq] at hc

theorem int_ok {v : Int} (h : FitsInt v) : int v = .ok v := if_pos h

theorem int_overflow {v : Int} (h : ¬ FitsInt v) : int v = .error .overflow := if_neg h

theorem ok_bind (v : Int) (next : Int → Except Fault Int) :
    (Except.ok v >>= next) = next v := rfl

theorem overflow_bind (next : Int → Except Fault Int) :
    (Except.error Fault.overflow >>= next) = .error .overflow := rfl

/-- One round: the tens, the digit and their sum. -/
theorem atoiRound {n d : Nat} (hd : d < 10) (next : Int → Except Fault Int) :
    (do let tens ← int (n * 10)
        let digit ← int d
        let n ← int (tens + digit)
        next n) =
      if n * 10 + d < 2 ^ 31 then next (n * 10 + d : Nat) else .error .overflow := by
  have hdigit : int d = .ok (d : Int) := int_ok ⟨by omega, by omega⟩
  by_cases htens : FitsInt ((n : Int) * 10)
  · rw [int_ok htens, ok_bind, hdigit, ok_bind, Int.natCast_add, Int.natCast_mul]
    split
    · next hfit => rw [int_ok ⟨by omega, by omega⟩, ok_bind, Nat.cast_ofNat]
    · next hover =>
        rw [int_overflow fun h => hover (by have := h.2; omega), overflow_bind]
  · have hover : ¬ n * 10 + d < 2 ^ 31 := fun h => htens ⟨by omega, by omega⟩
    rw [int_overflow htens, overflow_bind, if_neg hover]

/-- Reading on from an accumulator. -/
def readOn (n : Nat) (ds : List U8) : Nat := (ds.map digitValue).foldl (fun n d => n * 10 + d) n

theorem readOn_cons (n : Nat) (c : U8) (ds : List U8) :
    readOn n (c :: ds) = readOn (n * 10 + digitValue c) ds := rfl

theorem le_readOn (n : Nat) (ds : List U8) : n ≤ readOn n ds := by
  induction ds generalizing n with
  | nil => exact Nat.le_refl n
  | cons c ds ih =>
      rw [readOn_cons]
      exact Nat.le_trans (by omega) (ih _)

/-- The digit loop on digits and what stops them. -/
theorem atoiDigitsExact_digits {ds : List U8} (hds : ∀ c ∈ ds, isDigit c = true) {c : U8}
    (hc : isDigit c = false) (s : List U8) {n : Nat} (hn : n < 2 ^ 31) :
    atoiDigitsExact n (ds ++ c :: s) =
      if readOn n ds < 2 ^ 31 then .ok (readOn n ds : Int) else .error .overflow := by
  induction ds generalizing n with
  | nil =>
      have hstop : ¬ isDigit c = true := by rw [hc]; exact Bool.false_ne_true
      show atoiDigitsExact n (c :: s) = if n < 2 ^ 31 then _ else _
      rw [atoiDigitsExact, if_neg hstop, if_pos hn]
      rfl
  | cons x ds ih =>
      rw [List.forall_mem_cons] at hds
      have hval := digitValue_digit hds.1
      have hx := isDigit_iff.1 hds.1
      have hdiff : (x.toNat : Int) - (chr '0').toNat = (digitValue x : Int) := by
        show (x.toNat : Int) - (48 : Nat) = _
        omega
      rw [List.cons_append, atoiDigitsExact, if_pos hds.1, hdiff,
        atoiRound (by omega : digitValue x < 10), readOn_cons]
      split
      · next hfit => exact ih hds.2 hfit
      · next hover =>
          have hle := le_readOn (n * 10 + digitValue x) ds
          rw [if_neg fun h => hover (Nat.lt_of_le_of_lt hle h)]

/-- Where the digits of a string end. -/
theorem digits_stop (s : List U8) : ∃ c r, isDigit c = false ∧
    s ++ [0] = s.takeWhile isDigit ++ c :: r := by
  induction s with
  | nil => exact ⟨0, [], by decide, rfl⟩
  | cons x s ih =>
      cases hx : isDigit x with
      | false =>
          refine ⟨x, s ++ [0], hx, ?_⟩
          rw [List.takeWhile_cons_of_neg (by rw [hx]; exact Bool.false_ne_true)]
          rfl
      | true =>
          obtain ⟨c, r, hc, hs⟩ := ih
          refine ⟨c, r, hc, ?_⟩
          rw [List.takeWhile_cons_of_pos hx, List.cons_append, hs, List.cons_append]

/-- The digit loop on a string: the number fits, or the loop overflows. -/
theorem atoiDigitsExact_text (s : List U8) :
    atoiDigitsExact 0 (s ++ [0]) =
      if readNumeral 10 (s.takeWhile isDigit) < 2 ^ 31 then
        .ok (readNumeral 10 (s.takeWhile isDigit) : Int)
      else .error .overflow := by
  obtain ⟨c, r, hc, hs⟩ := digits_stop s
  rw [hs]
  exact atoiDigitsExact_digits (fun _ => List.mem_takeWhile_imp) hc r (n := 0) (by decide)

/-- The sign is multiplied in last, where it cannot overflow any more. -/
theorem signedResult {m : Nat} {sign v : Int} (hsign : sign = 1 ∨ sign = -1)
    (hv : (m : Int) * sign = v) :
    ((if m < 2 ^ 31 then .ok (m : Int) else .error .overflow : Except Fault Int).bind
        fun n => int (n * sign)) =
      if m < 2 ^ 31 then .ok v else .error .overflow := by
  split
  · next h =>
      show int ((m : Int) * sign) = _
      rw [hv, int_ok]
      obtain rfl | rfl := hsign <;> exact ⟨by omega, by omega⟩
  · rfl

theorem kAtoiExact_eq {s : List U8} :
    kAtoiExact (s ++ [0]) =
      if prefixMagnitude s < 2 ^ 31 then .ok (prefixValue s) else .error .overflow := by
  rw [prefixMagnitude, prefixValue, prefixMagnitude, unsignedText]
  cases s with
  | nil => rfl
  | cons c s =>
      have hhead : (c :: s).head? = some (chr '-') ↔ c = chr '-' := Option.some_inj
      simp only [hhead]
      by_cases hc : c = chr '-'
      · rw [if_pos hc, if_pos hc, List.tail_cons]
        show (if c = chr '-' then (atoiDigitsExact 0 (s ++ [0])).bind fun n => int (n * -1)
          else _) = _
        rw [if_pos hc, atoiDigitsExact_text]
        exact signedResult (Or.inr rfl) (by omega)
      · rw [if_neg hc, if_neg hc]
        show (if c = chr '-' then _
          else (atoiDigitsExact 0 (c :: s ++ [0])).bind fun n => int (n * 1)) = _
        rw [if_neg hc, atoiDigitsExact_text]
        exact signedResult (Or.inl rfl) (by omega)

/-- `k_atoi` is exact where the digits denote a number below 2^31, whether a minus
sign stands before them or not, and overflows on all others. -/
theorem readsExactly_iff (s : List U8) : ReadsExactly s ↔ prefixMagnitude s < 2 ^ 31 := by
  rw [ReadsExactly, kAtoiExact_eq]
  split
  · next h =>
      refine iff_of_true ⟨fun hover => ?_, fun _ => rfl⟩ h
      cases hover
  · next h => exact iff_of_false (fun hexact => hexact.1 rfl) h

/-- A number of the upper half, where the caller's addresses go on. -/
theorem readsExactly_upper_half : ¬ ∀ s, 0 ∉ s → ReadsExactly s := by
  intro h
  have hexact := (h (ascii "4294963200") (by decide)).1
  rw [kAtoiExact_eq] at hexact
  exact hexact (if_neg (by decide))

/-! ## The target's arithmetic -/

theorem int_bind_ok {v m : Int} {next : Int → Except Fault Int}
    (h : (int v >>= next) = .ok m) : next v = .ok m := by
  by_cases hfit : FitsInt v
  · rwa [int_ok hfit] at h
  · rw [int_overflow hfit, overflow_bind] at h
    cases h

theorem digit_ofInt {c : U8} (h : isDigit c = true) :
    (c - chr '0').setWidth 32 = BitVec.ofInt 32 ((c.toNat : Int) - (chr '0').toNat) := by
  have hc := isDigit_iff.1 h
  have hdiff : (c.toNat : Int) - (chr '0').toNat = (c.toNat - 48 : Nat) := by
    show (c.toNat : Int) - (48 : Nat) = _
    omega
  rw [hdiff, BitVec.ofInt_natCast]
  apply BitVec.eq_of_toNat_eq
  have hsub : (c - chr '0').toNat = c.toNat - 48 := BitVec.toNat_sub_of_le hc.1
  rw [BitVec.toNat_setWidth, BitVec.toNat_ofNat, hsub]

theorem atoiDigits_of_exact {s : List U8} {n m : Int} (h : atoiDigitsExact n s = .ok m) :
    atoiDigits (BitVec.ofInt 32 n) s = some (BitVec.ofInt 32 m) := by
  induction s generalizing n with
  | nil => cases h
  | cons c s ih =>
      rw [atoiDigitsExact] at h
      rw [atoiDigits]
      split at h
      · next hc =>
          have hnext := int_bind_ok (int_bind_ok (int_bind_ok h))
          have hten : BitVec.ofInt 32 (n * 10) = BitVec.ofInt 32 n * 10 := BitVec.ofInt_mul ..
          rw [if_pos hc, digit_ofInt hc, ← hten, ← BitVec.ofInt_add]
          exact ih hnext
      · next hc =>
          rw [if_neg hc]
          cases h
          rfl

/-- Where the exact result exists, the target returns it. -/
theorem kAtoi_of_exact {s : List U8} {v : Int} (h : kAtoiExact s = .ok v) :
    kAtoi s = some (BitVec.ofInt 32 v) := by
  have hsigned : ∀ {t : List U8} {sign : Int},
      (do let n ← atoiDigitsExact 0 t; int (n * sign)) = .ok v →
        (atoiDigits 0 t).map (fun n => n * BitVec.ofInt 32 sign) =
          some (BitVec.ofInt 32 v) := by
    intro t sign h
    cases hloop : atoiDigitsExact 0 t with
    | error e =>
        rw [hloop] at h
        cases h
    | ok n =>
        rw [hloop, ok_bind] at h
        have hresult : n * sign = v := by
          by_cases hfit : FitsInt (n * sign)
          · rw [int_ok hfit] at h
            exact Except.ok.inj h
          · rw [int_overflow hfit] at h
            cases h
        have htarget := atoiDigits_of_exact hloop
        have hzero : BitVec.ofInt 32 0 = 0 := rfl
        rw [hzero] at htarget
        rw [htarget, Option.map_some, ← BitVec.ofInt_mul, hresult]
  cases s with
  | nil => cases h
  | cons c s =>
      rw [kAtoiExact] at h
      rw [kAtoi]
      split at h
      · next hc =>
          rw [if_pos hc]
          exact hsigned h
      · next hc =>
          rw [if_neg hc]
          exact hsigned h

end MicroKernel.Proofs
