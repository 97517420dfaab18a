import MicroKernel.Proofs.Printf
import MicroKernel.Proofs.StringFns
import MicroKernel.Spec.Numerals
import MicroKernel.Core.Panic
import MicroKernel.Core.Commands
import MicroKernel.Kernel.Main

/-!
# The number printers

Three pieces of code print a number in decimal and four in hexadecimal, each
with loops of its own. Every one of them is set against the same numeral:
`utoa` and the line number of `kernel_panic` store the digits from the low end
and turn them around, `%d` emits its buffer backwards, `%x` skips leading
zeros, and the two fixed-width printers store all eight digits. The last one,
`hex_to_str`, stores them in the wrong order.
-/

namespace MicroKernel.Proofs

open Kernel MicroKernel.Core Spec Numeral

/-! ## `utoa` -/

theorem utoaChar_upperDigit : ∀ d, d < 36 → utoaChar d = upperDigit d := by
  decide

theorem upperText_length {b : Nat} (hb : 1 < b) (v : U32) :
    (upperText b v.toNat).length ≤ 32 := by
  rw [upperText, List.length_map, numeral_length_le_iff hb (by decide)]
  exact Nat.lt_of_lt_of_le v.isLt (Nat.pow_le_pow_left hb 32)

theorem decimalText_length (v : U32) : (upperText 10 v.toNat).length ≤ 10 := by
  rw [upperText, List.length_map, numeral_length_le_iff (by decide) (by decide)]
  exact Nat.lt_trans v.isLt (by decide)

theorem upperText_nul {b n : Nat} (hb : 1 < b) (hb' : b ≤ 36) : 0 ∉ upperText b n := by
  intro h
  have hmem := List.mem_of_mem_take ((upperText_isNumeral hb hb').digits 0 h)
  revert hmem
  decide

section
variable {n : Nat} {a : CArray U8 n} {str : Nat} {base : Int} {v : U32}

/-- On an array with room, wherever `str` points. -/
theorem utoa_upperText (hb : 2 ≤ base) (hb' : base ≤ 36)
    (hroom : str + (upperText base.toNat v.toNat).length < n) :
    ∃ b, utoa v a str base = some (str, b) ∧
      b.cells = a.cells.take str ++ upperText base.toNat v.toNat ++
        0 :: a.cells.drop (str + (upperText base.toNat v.toNat).length + 1) := by
  obtain ⟨old, o, hlen, hcells⟩ := CArray.cells_split (a := a) hroom
  rw [upperText, List.length_map] at hlen
  obtain ⟨b, hrun, hb⟩ := utoa_spec hb hb' hcells hlen
  have hstr : (a.cells.take str).length = str := by
    rw [List.length_take, a.size]
    omega
  have htext : (numeral base.toNat v.toNat).map utoaChar =
      upperText base.toNat v.toNat :=
    List.map_congr_left fun d hd => utoaChar_upperDigit d
      (Nat.lt_of_lt_of_le (numeral_lt (by omega) hd) (by omega))
  rw [hstr] at hrun
  rw [htext] at hb
  exact ⟨b, hrun, hb⟩

theorem utoa_loadStr (str : Nat) (hb : 2 ≤ base) (hb' : base ≤ 36)
    (hroom : str + (upperText base.toNat v.toNat).length < n) :
    ∃ b, utoa v a str base = some (str, b) ∧
      loadStr b str = some (upperText base.toNat v.toNat) := by
  obtain ⟨b, hrun, hcells⟩ := utoa_upperText (a := a) hb hb' hroom
  have hstr : (a.cells.take str).length = str := by
    rw [List.length_take, a.size]
    omega
  have hload := loadStr_eq (upperText_nul (by omega) (by omega)) hcells
  rw [hstr] at hload
  exact ⟨b, hrun, hload⟩

end

/-- `utoa` writes the numeral of `value` and its terminator where `str` points,
and no other byte; it returns `str`, and no two values give the same string. -/
theorem utoa_canonical {base : Int} (hb : 2 ≤ base) (hb' : base ≤ 36) :
    (∀ v : U32, ∃ t, IsNumeral base.toNat v.toNat t ∧
      t.length + 1 ≤ 33 ∧ (base = 10 → t.length + 1 ≤ 11) ∧
      ∀ (n : Nat) (a : CArray U8 n) (str : Nat), str + (t.length + 1) ≤ n →
        ∃ b, utoa v a str base = some (str, b) ∧
          b.cells = a.cells.take str ++ t ++ 0 :: a.cells.drop (str + t.length + 1)) ∧
    ∀ a : CArray U8 33, Function.Injective fun v : U32 =>
      (utoa v a 0 base).bind fun (str, b) => loadStr b str := by
  have hone : 1 < base.toNat := by omega
  have htop : base.toNat ≤ 36 := by omega
  constructor
  · intro v
    refine ⟨upperText base.toNat v.toNat, upperText_isNumeral hone htop,
      Nat.succ_le_succ (upperText_length hone v), ?_, ?_⟩
    · rintro rfl
      exact Nat.succ_le_succ (decimalText_length v)
    · intro n a str hroom
      exact utoa_upperText hb hb' hroom
  · intro a v w h
    have hstring : ∀ v : U32, ((utoa v a 0 base).bind fun (str, b) => loadStr b str) =
        some (upperText base.toNat v.toNat) := by
      intro v
      have hroom := Nat.lt_succ_of_le (upperText_length hone v)
      obtain ⟨b, hrun, hload⟩ := utoa_loadStr (a := a) 0 hb hb'
        (by rw [Nat.zero_add]; exact hroom)
      rw [hrun]
      exact hload
    simp only [hstring] at h
    have hreads := congrArg (readNumeral base.toNat) (Option.some.inj h)
    rw [(upperText_isNumeral hone htop).reads, (upperText_isNumeral hone htop).reads]
      at hreads
    exact BitVec.eq_of_toNat_eq hreads

theorem utoa_canonical_hex :
    (2 : Int) ≤ 16 ∧ (16 : Int) ≤ 36 ∧
      ∃ t, IsNumeral 16 255 t ∧ t.length + 1 ≤ 33 :=
  ⟨by decide, by decide,
    let ⟨t, ht, hlen, _⟩ := (@utoa_canonical 16 (by decide) (by decide)).1 255
    ⟨t, ht, hlen⟩⟩

/-! ## `%d` and `k_atoi` -/

theorem decimalText_eq (v : U32) :
    decimalText v.toInt =
      (if v.msb then [chr '-'] else []) ++ upperText 10 v.toInt.natAbs := by
  simp only [decimalText, toInt_neg_iff, numeralText_decimal]
  split <;> rfl

theorem decimalText_nul (v : U32) : 0 ∉ decimalText v.toInt := by
  rw [decimalText_eq, List.mem_append, not_or]
  refine ⟨?_, upperText_nul (by decide) (by decide)⟩
  split <;> decide

theorem shellPrintf_decimal (v : U32) :
    shellPrintf (ascii "%d" ++ [0]) [.int v] =
      some (.writeVgaAt (decimalText v.toInt) (-1) (-1) 0x07) := by
  show some (Draw.writeVgaAt (cstr ([] ++ decimalChars v ++ [0])) (-1) (-1) 0x07) = _
  rw [List.nil_append, decimalChars_eq, cstr_append_nul (decimalText_nul v)]

/-- The accumulator reads a text of digits in the arithmetic of the target. -/
theorem atoiDigits_text {ds : List Nat} (hds : ∀ d ∈ ds, d < 10) (n : Nat) :
    atoiDigits (BitVec.ofNat 32 n) (ds.map upperDigit ++ [0]) =
      some (BitVec.ofNat 32 (ds.foldl (fun n d => n * 10 + d) n)) := by
  have hdigit : ∀ d, d < 10 → isDigit (upperDigit d) = true ∧
      (upperDigit d - chr '0').setWidth 32 = BitVec.ofNat 32 d := by
    decide
  induction ds generalizing n with
  | nil => rfl
  | cons d ds ih =>
      obtain ⟨hin, hval⟩ := hdigit d (hds d List.mem_cons_self)
      have hstep : BitVec.ofNat 32 n * 10 + BitVec.ofNat 32 d =
          BitVec.ofNat 32 (n * 10 + d) := by
        rw [BitVec.ofNat_add, BitVec.ofNat_mul]
        rfl
      rw [List.map_cons, List.cons_append, atoiDigits, if_pos hin, hval, hstep]
      exact ih (fun e he => hds e (List.mem_cons_of_mem _ he)) _

theorem atoiDigits_upperText (n : Nat) :
    atoiDigits 0 (upperText 10 n ++ [0]) = some (BitVec.ofNat 32 n) := by
  have hlt : ∀ d ∈ numeral 10 n, d < 10 := fun d hd => numeral_lt (by decide) hd
  have h := atoiDigits_text hlt 0
  rw [← value, value_numeral] at h
  exact h

theorem kAtoi_decimalText (v : U32) : kAtoi (decimalText v.toInt ++ [0]) = some v := by
  rw [decimalText_eq, natAbs_toInt, List.append_assoc]
  have hwrap : ∀ w : U32, BitVec.ofNat 32 w.toNat = w := fun w => by simp
  split
  · next hneg =>
      show (atoiDigits 0 (upperText 10 (-v).toNat ++ [0])).map (fun n => n * -1) = _
      have hsign : -v * -1 = v := by grind
      rw [atoiDigits_upperText, hwrap, Option.map_some, hsign]
  · next hpos =>
      rw [List.nil_append]
      obtain ⟨c, t, ht⟩ := List.exists_cons_of_ne_nil
        (upperText_isNumeral (b := 10) (n := v.toNat) (by decide) (by decide)).nonempty
      have hminus : c ≠ chr '-' := by
        rintro rfl
        have hc := (upperText_isNumeral (b := 10) (n := v.toNat) (by decide)
          (by decide)).digits (chr '-') (by rw [ht]; exact List.mem_cons_self)
        revert hc
        decide
      have hparse := atoiDigits_upperText v.toNat
      rw [ht] at hparse ⊢
      rw [List.cons_append, kAtoi, if_neg hminus, ← List.cons_append, hparse, hwrap]
      simp

/-- A printer that stores a zero itself and leaves the rest to the loop has the
numeral in its buffer, backwards. -/
theorem lowDigits_spec {n : Nat} (uv : U32) (digit : Nat → U8) {a : CArray U8 n}
    (hdigit : ∀ d, d < 10 → digit d = upperDigit d)
    (hroom : (upperText 10 uv.toNat).length ≤ n) :
    ∃ b, (if uv = 0 then (a.store 0 (chr '0')).map fun a => ((1 : Nat), a)
        else DigitBuffer.store digit 10 33 uv.toNat 0 a) =
          some ((upperText 10 uv.toNat).length, b) ∧
      b.cells = (upperText 10 uv.toNat).reverse ++
        a.cells.drop (upperText 10 uv.toNat).length := by
  have hlen : (a.cells.take (upperText 10 uv.toNat).length).length =
      (upperText 10 uv.toNat).length := by
    rw [List.length_take, a.size, Nat.min_eq_left hroom]
  have hbuf : a.cells = [] ++ a.cells.take (upperText 10 uv.toNat).length ++
      a.cells.drop (upperText 10 uv.toNat).length := by
    rw [List.nil_append, List.take_append_drop]
  have htext : (numeral 10 uv.toNat).map digit = upperText 10 uv.toNat :=
    List.map_congr_left fun d hd => hdigit d (numeral_lt (by decide) hd)
  split
  · next hz =>
      have hnum : upperText 10 uv.toNat = [chr '0'] := by
        rw [hz]
        rfl
      rw [hnum] at hbuf hlen ⊢
      obtain ⟨x, hx⟩ := List.length_eq_one_iff.1 hlen
      rw [hx, List.append_assoc] at hbuf
      obtain ⟨b, hstore, hb⟩ := CArray.store_eq hbuf (chr '0')
      exact ⟨b, congrArg (Option.map fun a => ((1 : Nat), a)) hstore, hb⟩
  · next hz =>
      have hnz : uv.toNat ≠ 0 := fun h => hz (BitVec.eq_of_toNat_eq h)
      have hlen' := hlen.trans (List.length_map upperDigit)
      obtain ⟨b, hstore, hb⟩ := DigitBuffer.store_numeral digit (k := 32)
        (by decide) hnz (Nat.lt_trans uv.isLt (by decide)) hbuf hlen'
      rw [hlen, List.length_nil, Nat.zero_add] at hstore
      rw [htext] at hb
      exact ⟨b, hstore, hb⟩

theorem numbufDigits_spec (uv : U32) (numbuf : CArray U8 32) :
    ∃ b, numbufDigits uv numbuf = some ((upperText 10 uv.toNat).length, b) ∧
      b.cells = (upperText 10 uv.toNat).reverse ++
        numbuf.cells.drop (upperText 10 uv.toNat).length := by
  have hroom := Nat.le_trans (decimalText_length uv) (by decide : 10 ≤ 32)
  obtain ⟨b, hrun, hb⟩ := lowDigits_spec (a := numbuf) uv
    (fun d => chr '0' + BitVec.ofNat 8 d) (by decide) hroom
  refine ⟨b, ?_, hb⟩
  rw [← hrun, numbufDigits]
  split
  · next hz =>
      subst hz
      cases numbuf.store 0 (chr '0') <;> rfl
  · rfl

/-- `numbuf` is never overrun, and what is emitted from it backwards is the text. -/
theorem fillNumbuf_spec (v : U32) (numbuf : CArray U8 32) :
    ∃ len b, fillNumbuf v numbuf = some (len, b) ∧ len ≤ 11 ∧
      (b.cells.take len).reverse = decimalText v.toInt := by
  rw [decimalText_eq, natAbs_toInt, fillNumbuf]
  generalize (if v.msb then -v else v) = uv
  have hlen := decimalText_length uv
  obtain ⟨b, hrun, hb⟩ := numbufDigits_spec uv numbuf
  simp only [hrun, Option.bind_some]
  split
  · -- the sign goes behind the digits
    obtain ⟨x, post, hpost⟩ : ∃ x post,
        numbuf.cells.drop (upperText 10 uv.toNat).length = x :: post := by
      refine List.exists_cons_of_ne_nil ?_
      rw [Ne, List.drop_eq_nil_iff, numbuf.size]
      omega
    rw [hpost] at hb
    obtain ⟨c, hstore, hc⟩ := CArray.store_eq hb (chr '-')
    rw [List.length_reverse] at hstore
    refine ⟨_, c, by rw [hstore]; rfl, by omega, ?_⟩
    rw [hc, ← List.length_reverse, List.take_length_add_append]
    simp
  · refine ⟨_, b, rfl, by omega, ?_⟩
    rw [hb, ← List.length_reverse, List.take_left, List.reverse_reverse]
    rfl

/-- What `%d` prints is read back by `k_atoi`. -/
theorem decimal_roundTrip (v : U32) :
    ∃ sign digits,
      shellPrintf (ascii "%d" ++ [0]) [.int v] =
        some (.writeVgaAt (sign ++ digits) (-1) (-1) 0x07) ∧
      kAtoi (sign ++ digits ++ [0]) = some v ∧
      sign = (if v.toInt < 0 then [chr '-'] else []) ∧
      IsNumeral 10 v.toInt.natAbs digits ∧
      ∀ numbuf : CArray U8 32, ∃ len b, fillNumbuf v numbuf = some (len, b) ∧
        len ≤ 11 ∧ (b.cells.take len).reverse = sign ++ digits := by
  have htext := decimalText_eq v
  refine ⟨if v.msb then [chr '-'] else [], upperText 10 v.toInt.natAbs, ?_, ?_, ?_,
    upperText_isNumeral (by decide) (by decide), ?_⟩
  · rw [← htext, shellPrintf_decimal]
  · rw [← htext, kAtoi_decimalText]
  · simp only [toInt_neg_iff]
  · rw [← htext]
    exact fillNumbuf_spec v

/-! ## The line number of `kernel_panic` -/

/-- The two loops that turn a text around swap the same cells. -/
theorem lineReverse_eq (i k j : Nat) (lineBuf : CArray U8 12) :
    lineReverse i k j lineBuf = utoaReverse k j (i - j - 1) lineBuf := by
  induction k generalizing j lineBuf with
  | zero => rfl
  | succ k ih =>
      have hmid : j < i / 2 ↔ j < i - j - 1 := by omega
      rw [lineReverse, utoaReverse]
      by_cases h : j < i / 2
      · have hnext : i - (j + 1) - 1 = i - j - 1 - 1 := by omega
        rw [if_pos h, if_pos (hmid.1 h)]
        simp only [ih, hnext]
        exact CArray.swap_comm (by omega) _
      · rw [if_neg h, if_neg (mt hmid.2 h)]

theorem lineText_spec (v : U32) (lineBuf : CArray U8 12) :
    ∃ b, lineText v lineBuf = some b ∧
      b.cells = upperText 10 v.toNat ++
        0 :: lineBuf.cells.drop ((upperText 10 v.toNat).length + 1) := by
  have hlen := decimalText_length v
  obtain ⟨b, hrun, hb⟩ := lowDigits_spec (a := lineBuf) v
    (fun d => BitVec.ofNat 8 d + chr '0') (by decide)
    (Nat.le_trans hlen (by decide))
  have hdigits : lineDigits v lineBuf = some ((upperText 10 v.toNat).length, b) := hrun
  have hrest : (upperText 10 v.toNat).length < lineBuf.cells.length := by
    rw [lineBuf.size]
    omega
  rw [List.drop_eq_getElem_cons hrest] at hb
  obtain ⟨c, hstore, hc⟩ := CArray.store_eq hb 0
  rw [List.length_reverse] at hstore
  have hfuel : (upperText 10 v.toNat).reverse.length <
      (upperText 10 v.toNat).length + 1 := by
    rw [List.length_reverse]
    exact Nat.lt_succ_self _
  rw [← List.nil_append (upperText 10 v.toNat).reverse] at hc
  obtain ⟨e, hreverse, he⟩ := utoaReverse_spec _ hfuel hc
  rw [List.length_reverse, List.length_nil, Nat.zero_add] at hreverse
  have hswaps := (lineReverse_eq _ _ 0 c).trans hreverse
  refine ⟨e, ?_, ?_⟩
  · simp only [lineText, hdigits, hstore, hswaps, Option.bind_eq_bind, Option.bind_some]
  · rw [he, List.reverse_reverse, List.nil_append]

/-- The three decimal printers write one text. -/
theorem decimalTexts_agree (v : U32) (lineBuf : CArray U8 12) {n : Nat}
    (buf : CArray U8 n) (str : Nat) (hroom : str + 11 ≤ n) :
    ∃ t b c, lineText v lineBuf = some b ∧ loadStr b 0 = some t ∧ t.length + 1 ≤ 12 ∧
      utoa v buf str 10 = some (str, c) ∧ loadStr c str = some t ∧
      (v.toNat < 2 ^ 31 → shellPrintf (ascii "%d" ++ [0]) [.int v] =
        some (.writeVgaAt t (-1) (-1) 0x07)) := by
  have hlen := decimalText_length v
  have hnul : 0 ∉ upperText 10 v.toNat := upperText_nul (by decide) (by decide)
  obtain ⟨b, hline, hb⟩ := lineText_spec v lineBuf
  obtain ⟨c, hutoa, hc⟩ := @utoa_loadStr _ buf 10 v str
    (by decide) (by decide) (by show str + (upperText 10 v.toNat).length < n; omega)
  refine ⟨upperText 10 v.toNat, b, c, hline, loadStr_eq (q := []) hnul hb, by omega,
    hutoa, hc, fun hsmall => ?_⟩
  have hpos : v.msb = false := by
    rw [BitVec.msb_eq_false_iff_two_mul_lt]
    omega
  rw [shellPrintf_decimal, decimalText_eq, natAbs_toInt, hpos]
  rfl

theorem decimalTexts_agree_line :
    0 + 11 ≤ 12 ∧ ∃ t b c, lineText 205 (CArray.fill 12 0) = some b ∧
      loadStr b 0 = some t ∧ utoa 205 (CArray.fill 12 0) 0 10 = some (0, c) ∧
      loadStr c 0 = some t :=
  ⟨by decide,
    let ⟨t, b, c, hline, hb, _, hutoa, hc, _⟩ :=
      decimalTexts_agree 205 (CArray.fill 12 0) (CArray.fill 12 0) 0 (by decide)
    ⟨t, b, c, hline, hb, hutoa, hc⟩⟩

end MicroKernel.Proofs
