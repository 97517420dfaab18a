import MicroKernel.Spec.Format

/-!
# What `shell_printf` prints

Each digit loop prints the numeral it is meant to print. The width in `%02x`
and `%08x` is lost between the place that parses it and the place that prints:
the digits after the zero are skipped, and the `switch` sees the `x` alone. So
a padded conversion prints the bare numeral, and the text is the reference text
exactly where no padding was due.
-/

namespace MicroKernel.Proofs

open MicroKernel.Core Spec Numeral

/-! ## Digits -/

theorem hexChar_ofNat : ∀ d, d < 16 → hexTable.getD d 0 = digitText d := by
  decide

theorem decimalChar_ofNat : ∀ d, d < 10 →
    chr '0' + BitVec.ofNat 8 d = digitText d := by
  decide

theorem nibble_toNat (v : U32) (i : Nat) :
    (nibble v i).toNat = v.toNat / 16 ^ i % 16 := by
  have hpow : 2 ^ (i * 4) = 16 ^ i := by
    rw [Nat.mul_comm, Nat.pow_mul]
  rw [nibble, BitVec.toNat_and, BitVec.toNat_ushiftRight, Nat.shiftRight_eq_div_pow,
    hpow]
  exact Nat.and_two_pow_sub_one_eq_mod _ 4

theorem hexChar_nibble (v : U32) (i : Nat) :
    hexChar (nibble v i) = digitText (v.toNat / 16 ^ i % 16) := by
  rw [hexChar, nibble_toNat]
  exact hexChar_ofNat _ (Nat.mod_lt _ (by decide))

theorem hexChars_started (v : U32) (w : Nat) :
    hexChars v w true = (fixed 16 w v.toNat).map digitText := by
  induction w with
  | zero => rfl
  | succ w ih =>
      rw [hexChars, if_pos (Or.inr (Or.inl rfl)), ih, hexChar_nibble, fixed,
        List.map_cons]

theorem hexChars_eq {v : U32} {w : Nat} (h : v.toNat < 16 ^ (w + 1)) :
    hexChars v (w + 1) false = numeralText 16 v.toNat := by
  induction w with
  | zero =>
      rw [Nat.zero_add, Nat.pow_one] at h
      rw [hexChars, if_pos (Or.inr (Or.inr rfl)), hexChar_nibble, numeralText,
        numeral_small h]
      simp [hexChars, Nat.mod_eq_of_lt h]
  | succ w ih =>
      have hnib : nibble v (w + 1) ≠ 0 ↔ 16 ^ (w + 1) ≤ v.toNat := by
        rw [Ne, ← BitVec.toNat_inj, nibble_toNat, Nat.mod_eq_of_lt
          (Nat.div_lt_of_lt_mul (by rw [← Nat.pow_succ]; exact h))]
        show ¬ v.toNat / 16 ^ (w + 1) = 0 ↔ _
        rw [Nat.div_eq_zero_iff_lt (Nat.pow_pos (by decide)), Nat.not_lt]
      rw [hexChars]
      split
      · next hstart =>
          have hlow : 16 ^ (w + 1) ≤ v.toNat := hnib.1 (by simpa using hstart)
          rw [numeralText, numeral_eq_fixed (by decide) hlow h, hexChars_started,
            hexChar_nibble, ← List.map_cons]
          rfl
      · next hskip =>
          have hhigh : v.toNat < 16 ^ (w + 1) :=
            Nat.lt_of_not_le fun hle => hnib.2 hle (by simpa using hskip)
          exact ih hhigh

theorem hexChars_word (v : U32) : hexChars v 8 false = numeralText 16 v.toNat :=
  hexChars_eq (w := 7) (Nat.lt_of_lt_of_eq v.isLt (by decide))

theorem decimalDigits_eq (uv : U32) :
    (if uv = 0 then [chr '0'] else (divLoop 10 32 uv.toNat).map
      fun d => chr '0' + BitVec.ofNat 8 d).reverse = numeralText 10 uv.toNat := by
  have hlt : uv.toNat < 10 ^ 32 := Nat.lt_trans uv.isLt (by decide)
  rw [numeralText]
  split
  · next hz =>
      rw [hz]
      rfl
  · next hz =>
      have hnz : uv.toNat ≠ 0 := fun h => hz (BitVec.eq_of_toNat_eq h)
      rw [divLoop_eq_numeral (by decide) hnz hlt, List.map_reverse, List.reverse_reverse]
      exact List.map_congr_left fun d hd => decimalChar_ofNat d (numeral_lt (by decide) hd)

theorem natAbs_toInt (v : U32) : v.toInt.natAbs = (if v.msb then -v else v).toNat := by
  have hv := v.isLt
  rw [BitVec.toInt_eq_msb_cond]
  split
  · next h =>
      rw [BitVec.msb_eq_true_iff_two_mul_ge] at h
      rw [BitVec.toNat_neg, Nat.mod_eq_of_lt (by omega)]
      omega
  · rfl

theorem toInt_neg_iff (v : U32) : v.toInt < 0 ↔ v.msb = true := by
  rw [BitVec.toInt_neg_iff, BitVec.msb_eq_true_iff_two_mul_ge]

theorem decimalChars_eq (v : U32) : decimalChars v = decimalText v.toInt := by
  simp only [decimalChars, decimalText, natAbs_toInt, toInt_neg_iff]
  split
  · rw [List.reverse_append, decimalDigits_eq]
    rfl
  · rw [decimalDigits_eq]

/-! ## The scan -/

/-- What a piece makes `shell_printf` print: no padding. -/
def printed : Piece → List U8
  | .hex02 v | .hex08 v => numeralText 16 v.toNat
  | p => p.text

def printedOf (ps : List Piece) : List U8 := ps.flatMap printed

theorem printedOf_cons (p : Piece) (ps : List Piece) :
    printedOf (p :: ps) = printed p ++ printedOf ps := rfl

theorem printfLoop_stop {n : Nat} {st : Printf} {c : U8} {f : List U8}
    (hf : st.f = c :: f) (hstop : c = 0 ∨ bufLast ≤ st.buf.length) :
    printfLoop (n + 1) st = some st := by
  rw [printfLoop, hf]
  exact if_pos hstop

theorem printfLoop_lit {n : Nat} {c : U8} {f buf : List U8} {args : List Arg}
    (h0 : c ≠ 0) (hp : c ≠ chr '%') (hroom : buf.length < bufLast) :
    printfLoop (n + 1) ⟨c :: f, args, buf⟩ = printfLoop n ⟨f, args, buf ++ [c]⟩ := by
  have hgo : ¬ (c = 0 ∨ bufLast ≤ buf.length) := by
    rw [not_or, Nat.not_le]
    exact ⟨h0, hroom⟩
  rw [printfLoop]
  simp only [if_neg hgo, if_pos hp]
  rfl

theorem printfLoop_conversion {n : Nat} {c : U8} {f g buf : List U8}
    {args : List Arg} (hpad : skipPad g = c :: f) (hroom : buf.length < bufLast) :
    printfLoop (n + 1) ⟨chr '%' :: g, args, buf⟩ =
      (convert c ⟨f, args, buf⟩).bind (printfLoop n) := by
  have hgo : ¬ (chr '%' = 0 ∨ bufLast ≤ buf.length) := by
    rw [not_or, Nat.not_le]
    exact ⟨by decide, hroom⟩
  rw [printfLoop]
  simp only [if_neg hgo, ne_eq, not_true_eq_false, if_false, hpad]

theorem printfLoop_hex {n : Nat} {f g buf : List U8} {args : List Arg} {v : U32}
    (hpad : skipPad g = chr 'x' :: f) (hroom : buf.length < bufLast) :
    printfLoop (n + 1) ⟨chr '%' :: g, .int v :: args, buf⟩ =
      printfLoop n ⟨f, args, buf ++ numeralText 16 v.toNat⟩ := by
  refine (printfLoop_conversion hpad hroom).trans ?_
  show printfLoop n ⟨f, args, buf ++ hexChars v 8 false⟩ = _
  rw [hexChars_word]

theorem printfLoop_piece (p : Piece) {n : Nat} {f buf : List U8} {args : List Arg}
    (hfit : (buf ++ printed p).length ≤ bufLast) (hroom : buf.length < bufLast)
    (hnul : 0 ∉ p.text) :
    printfLoop (n + 1) ⟨p.fmt ++ f, p.args ++ args, buf⟩ =
      printfLoop n ⟨f, args, buf ++ printed p⟩ := by
  cases p with
  | lit c h0 hp => exact printfLoop_lit h0 hp hroom
  | str s =>
      refine (printfLoop_conversion (c := chr 's') rfl hroom).trans ?_
      have hall : (cstr s).take (bufLast - buf.length) = s := by
        rw [cstr_eq_self (show 0 ∉ s from hnul)]
        refine List.take_of_length_le ?_
        rw [List.length_append] at hfit
        exact Nat.le_sub_of_add_le (Nat.add_comm _ _ ▸ hfit)
      show printfLoop n ⟨f, args, buf ++ (cstr s).take (bufLast - buf.length)⟩ = _
      rw [hall]
      rfl
  | dec v =>
      refine (printfLoop_conversion (c := chr 'd') rfl hroom).trans ?_
      show printfLoop n ⟨f, args, buf ++ decimalChars v⟩ = _
      rw [decimalChars_eq]
      rfl
  | hex v => exact printfLoop_hex rfl hroom
  | hex02 v =>
      -- the width is gone: the `switch` sees `x`
      exact printfLoop_hex rfl hroom
  | hex08 v => exact printfLoop_hex rfl hroom
  | char v => exact printfLoop_conversion (c := chr 'c') rfl hroom
  | percent => exact printfLoop_conversion (c := chr '%') rfl hroom

theorem fmt_cons (p : Piece) : ∃ c f, p.fmt = c :: f := by
  cases p <;> exact ⟨_, _, rfl⟩

theorem fmtOf_length (ps : List Piece) : ps.length < (fmtOf ps).length := by
  induction ps with
  | nil => decide
  | cons p ps ih =>
      obtain ⟨c, f, hf⟩ := fmt_cons p
      rw [fmtOf_cons, hf, List.length_append, List.length_cons, List.length_cons]
      omega

theorem printfLoop_pieces (ps : List Piece) :
    ∀ (n : Nat) (buf : List U8), ps.length < n →
      (buf ++ printedOf ps).length ≤ bufLast → 0 ∉ textOf ps →
      ∃ st, printfLoop n ⟨fmtOf ps, argsOf ps, buf⟩ = some st ∧
        st.buf = buf ++ printedOf ps := by
  induction ps with
  | nil =>
      intro n buf hn _ _
      obtain ⟨n, rfl⟩ : ∃ k, n = k + 1 := ⟨n - 1, by omega⟩
      refine ⟨_, printfLoop_stop rfl (Or.inl rfl), ?_⟩
      exact (List.append_nil buf).symm
  | cons p ps ih =>
      intro n buf hn hfit hnul
      rw [List.length_cons] at hn
      obtain ⟨n, rfl⟩ : ∃ k, n = k + 1 := ⟨n - 1, by omega⟩
      rw [textOf_cons, List.mem_append, not_or] at hnul
      rw [printedOf_cons] at hfit ⊢
      rw [fmtOf_cons, argsOf_cons]
      by_cases hroom : buf.length < bufLast
      · have hassoc := List.append_assoc buf (printed p) (printedOf ps)
        rw [← hassoc] at hfit ⊢
        have hone : (buf ++ printed p).length ≤ bufLast := by
          rw [List.length_append] at hfit
          omega
        rw [printfLoop_piece p hone hroom hnul.1]
        exact ih n _ (by omega) hfit hnul.2
      · -- the buffer is full, so nothing that is left prints anything
        have hnil : printed p ++ printedOf ps = [] := by
          rw [List.length_append] at hfit
          exact List.eq_nil_of_length_eq_zero (by omega)
        obtain ⟨c, f, hf⟩ := fmt_cons p
        rw [hf, hnil]
        refine ⟨_, printfLoop_stop rfl (Or.inr (Nat.le_of_not_lt hroom)), ?_⟩
        exact (List.append_nil buf).symm

/-! ## Against the reference -/

theorem printed_suffix (p : Piece) : printed p <:+ p.text := by
  cases p with
  | hex02 v => exact List.suffix_append _ _
  | hex08 v => exact List.suffix_append _ _
  | _ => exact List.suffix_rfl

theorem printedOf_suffix (ps : List Piece) :
    (printedOf ps).length ≤ (textOf ps).length ∧
      (0 ∉ textOf ps → 0 ∉ printedOf ps) := by
  induction ps with
  | nil => exact ⟨Nat.le_refl _, id⟩
  | cons p ps ih =>
      have hp := printed_suffix p
      rw [printedOf_cons, textOf_cons, List.length_append, List.length_append]
      refine ⟨Nat.add_le_add hp.length_le ih.1, fun hnul hmem => ?_⟩
      rw [List.mem_append, not_or] at hnul
      obtain h | h := List.mem_append.1 hmem
      · exact hnul.1 (hp.subset h)
      · exact ih.2 hnul.2 h

theorem printed_eq_iff (p : Piece) : printed p = p.text ↔ p.Fills := by
  cases p with
  | hex02 v => exact paddedHex_eq_iff (w := 1) (by decide)
  | hex08 v => exact paddedHex_eq_iff (w := 7) (by decide)
  | _ => exact iff_of_true rfl trivial

/-- No piece makes up for what another one lacks: each prints at most its own
text. -/
theorem printedOf_eq_iff (ps : List Piece) :
    printedOf ps = textOf ps ↔ ∀ p ∈ ps, p.Fills := by
  induction ps with
  | nil => exact iff_of_true rfl fun p hp => absurd hp List.not_mem_nil
  | cons p ps ih =>
      rw [printedOf_cons, textOf_cons, List.forall_mem_cons, ← printed_eq_iff, ← ih]
      refine ⟨fun h => ?_, fun h => by rw [h.1, h.2]⟩
      have hp := (printed_suffix p).length_le
      have hps := (printedOf_suffix ps).1
      have hlen := congrArg List.length h
      rw [List.length_append, List.length_append] at hlen
      exact List.append_inj h (by omega)

/-- The text on the screen is the reference text exactly where every padded
number fills its width. -/
theorem shellPrintf_iff (ps : List Piece) (hlen : (textOf ps).length ≤ 511)
    (hnul : 0 ∉ textOf ps) :
    shellPrintf (fmtOf ps) (argsOf ps) =
        some (.writeVgaAt (textOf ps) (-1) (-1) 0x07) ↔
      ∀ p ∈ ps, p.Fills := by
  obtain ⟨hle, hnul'⟩ := printedOf_suffix ps
  obtain ⟨st, hrun, hbuf⟩ := printfLoop_pieces ps (fmtOf ps).length [] (fmtOf_length ps)
    (Nat.le_trans hle hlen) hnul
  rw [← printedOf_eq_iff, shellPrintf, hrun, Option.map_some, hbuf,
    List.nil_append, cstr_append_nul (hnul' hnul)]
  simp

/-- The head of a row of a memory dump, as far as its first byte. -/
def dumpRow : List Piece :=
  [.hex08 0x100b8000, .lit (chr ':') (by decide) (by decide), .hex02 0x4d]

theorem shellPrintf_dumpRow :
    shellPrintf (fmtOf dumpRow) (argsOf dumpRow) =
      some (.writeVgaAt (textOf dumpRow) (-1) (-1) 0x07) := by
  refine (shellPrintf_iff dumpRow (by decide) (by decide)).2 ?_
  intro p hp
  simp only [dumpRow, List.mem_cons, List.not_mem_nil, or_false] at hp
  obtain rfl | rfl | rfl := hp <;> simp [Piece.Fills]

/-- `%02x` prints the byte 5 as `5`. -/
theorem shellPrintf_unpadded :
    (textOf [.hex02 5]).length ≤ 511 ∧ 0 ∉ textOf [.hex02 5] ∧
      shellPrintf (fmtOf [.hex02 5]) (argsOf [.hex02 5]) ≠
        some (.writeVgaAt (textOf [.hex02 5]) (-1) (-1) 0x07) := by
  decide

end MicroKernel.Proofs
