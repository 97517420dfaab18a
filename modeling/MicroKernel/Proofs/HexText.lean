import MicroKernel.Proofs.Numerals

/-!
# The hexadecimal printers

`panic_vga_print_hex` puts the digit of position `i` nine minus `i` cells in,
`hex_to_str` puts it `i` plus two cells in: its least significant digit comes
first. The text reads back as the number exactly where the eight digits are
the same in both directions.
-/

namespace MicroKernel.Proofs

open Kernel MicroKernel.Core Spec Numeral

theorem text_nul {ds : List Nat} {digit : Nat → U8}
    (hdigit : ∀ d, d < 16 → digit d ≠ 0) (hds : ∀ d ∈ ds, d < 16) :
    0 ∉ ds.map digit := by
  rw [List.mem_map]
  rintro ⟨d, hd, hzero⟩
  exact hdigit d (hds d hd) hzero

/-! ## `panic_vga_print_hex` -/

theorem panicHexBuffer_eq (n : U32) :
    ∃ c, panicHexBuffer n = some c ∧
      c.cells = ascii "0x" ++ (fixed 16 8 n.toNat).map digitText ++ [0] := by
  have hdigits : (fixed 16 8 n.toNat).map digitText =
      [7, 6, 5, 4, 3, 2, 1, 0].map fun i => hexChar (nibble n i) := by
    simp only [fixed, List.map_cons, List.map_nil, hexChar_nibble]
  rw [hdigits]
  exact ⟨_, rfl, rfl⟩

/-! ## `hex_to_str` -/

theorem upperHexTable_eq : ∀ d, d < 16 → upperHexTable.getD d 0 = upperDigit d := by
  decide

theorem upperHex_nibble (n : U32) (i : Nat) :
    upperHexTable.getD ((n >>> (i * 4)) &&& 0xF).toNat 0 =
      upperDigit (n.toNat / 16 ^ i % 16) := by
  have hnib : ((n >>> (i * 4)) &&& 0xF).toNat = n.toNat / 16 ^ i % 16 := nibble_toNat n i
  rw [hnib]
  exact upperHexTable_eq _ (Nat.mod_lt _ (by decide))

section
variable {k : Nat} {a : CArray U8 k} {out : Nat}

/-- The digit of each position goes two cells behind its index. -/
theorem hexToStrLoop_spec (n : U32) (w : Nat) {q old post : List U8}
    (hq : q.length = out + 2) (hlen : old.length = w)
    (hbuf : a.cells = q ++ old ++ post) :
    ∃ b, hexToStrLoop n out w a = some b ∧
      b.cells = q ++ ((fixed 16 w n.toNat).map upperDigit).reverse ++ post := by
  induction w generalizing a old post with
  | zero =>
      obtain rfl := List.eq_nil_of_length_eq_zero hlen
      exact ⟨a, rfl, hbuf⟩
  | succ w ih =>
      have hne : old ≠ [] := by
        rintro rfl
        cases hlen
      have hold := List.dropLast_append_getLast hne
      have hinit : old.dropLast.length = w := by
        rw [List.length_dropLast, hlen, Nat.add_sub_cancel]
      rw [← hold] at hbuf
      have hbuf' : a.cells = (q ++ old.dropLast) ++ old.getLast hne :: post := by
        rw [hbuf]
        simp
      obtain ⟨b, hstore, hb⟩ := CArray.store_eq hbuf' (upperDigit (n.toNat / 16 ^ w % 16))
      have hindex : (q ++ old.dropLast).length = out + (w + 2) := by
        rw [List.length_append, hq, hinit]
        omega
      obtain ⟨c, hrun, hc⟩ := ih hinit hb
      refine ⟨c, ?_, ?_⟩
      · rw [hexToStrLoop, upperHex_nibble, ← hindex, hstore]
        exact hrun
      · rw [hc, fixed]
        simp

theorem hexToStr_spec (n : U32) (hroom : out + 10 < k) :
    ∃ b, hexToStr n a out = some b ∧
      loadStr b out = some (ascii "0x" ++
        ((fixed 16 8 n.toNat).map upperDigit).reverse) := by
  have hnul : 0 ∉ ascii "0x" ++ ((fixed 16 8 n.toNat).map upperDigit).reverse := by
    rw [List.mem_append, not_or, List.mem_reverse]
    exact ⟨by decide, text_nul (by decide) fun d hd => fixed_lt (by decide) hd⟩
  obtain ⟨old, o, hlen, hcells⟩ := CArray.cells_split (a := a) hroom
  obtain ⟨x, old, rfl⟩ := List.exists_cons_of_length_eq_add_one hlen
  obtain ⟨y, old, rfl⟩ := List.exists_cons_of_length_eq_add_one
    (Nat.succ.inj hlen : old.length = 8 + 1)
  have hout : (a.cells.take out).length = out := by
    rw [List.length_take, a.size]
    omega
  have hold : old.length = 8 := by simpa using hlen
  generalize a.cells.take out = q at hcells hout
  generalize a.cells.drop (out + 10 + 1) = post at hcells
  rw [List.append_assoc] at hcells
  obtain ⟨b, hb, hbc⟩ := CArray.store_eq hcells (chr '0')
  have hbuf : b.cells = (q ++ [chr '0']) ++ y :: (old ++ o :: post) := by
    rw [hbc]
    simp
  obtain ⟨c, hc, hcc⟩ := CArray.store_eq hbuf (chr 'x')
  have hbuf : c.cells = (q ++ ascii "0x") ++ old ++ (o :: post) := by
    rw [hcc, List.append_assoc, List.append_assoc, List.append_assoc]
    rfl
  have hprefix : (q ++ ascii "0x").length = out + 2 := by
    rw [List.length_append, hout]
    rfl
  obtain ⟨d, hd, hdc⟩ := hexToStrLoop_spec n 8 hprefix hold hbuf
  obtain ⟨e, he, hec⟩ := CArray.store_eq hdc 0
  have hsecond : (q ++ [chr '0']).length = out + 1 := by
    rw [List.length_append, hout]
    rfl
  have hend : (q ++ ascii "0x" ++ ((fixed 16 8 n.toNat).map upperDigit).reverse).length =
      out + 10 := by
    rw [List.length_append, hprefix, List.length_reverse, List.length_map, fixed_length]
  rw [hout] at hb
  rw [hsecond] at hc
  rw [hend] at he
  refine ⟨e, ?_, ?_⟩
  · simp only [hexToStr, hb, hc, hd, he, Option.bind_eq_bind, Option.bind_some]
  · rw [List.append_assoc q] at hec
    rw [← hout]
    exact loadStr_eq hnul hec

end

/-! ## `%x` -/

theorem shellPrintf_hex (n : U32) :
    shellPrintf (ascii "%x" ++ [0]) [.int n] =
      some (.writeVgaAt (numeralText 16 n.toNat) (-1) (-1) 0x07) := by
  have hnul : 0 ∉ numeralText 16 n.toNat :=
    text_nul (by decide) fun d hd => numeral_lt (by decide) hd
  show some (Draw.writeVgaAt (cstr ([] ++ hexChars n 8 false ++ [0])) (-1) (-1) 0x07) = _
  rw [List.nil_append, hexChars_word, cstr_append_nul hnul]

/-! ## The digits in both directions -/

theorem fixed_isHexWord (n : U32) {digit : Nat → U8}
    (hdigit : ∀ d, d < 16 → digitValue (digit d) = d) :
    IsHexWord n ((fixed 16 8 n.toNat).map digit) where
  length := by rw [List.length_map, fixed_length]
  digits := by
    intro c hc
    obtain ⟨d, hd, rfl⟩ := List.mem_map.1 hc
    have hlt := fixed_lt (by decide) hd
    rw [hdigit d hlt]
    exact hlt
  reads := by
    rw [readNumeral_map hdigit fun d hd => fixed_lt (by decide) hd]
    exact value_fixed (Nat.lt_of_lt_of_eq n.isLt (by decide))

/-- The eight digits turned around denote the number where they are the same. -/
theorem reverse_reads_iff (n : U32) :
    value 16 (fixed 16 8 n.toNat).reverse = n.toNat ↔
      (fixed 16 8 n.toNat).reverse = fixed 16 8 n.toNat := by
  have hreads : value 16 (fixed 16 8 n.toNat) = n.toNat :=
    value_fixed (Nat.lt_of_lt_of_eq n.isLt (by decide))
  constructor
  · intro h
    have hlt : ∀ d ∈ fixed 16 8 n.toNat, d < 16 := fun d hd => fixed_lt (by decide) hd
    have hlt' : ∀ d ∈ (fixed 16 8 n.toNat).reverse, d < 16 := fun d hd =>
      hlt d (List.mem_reverse.1 hd)
    refine (Nat.ofDigits_inj_of_len_eq (by decide : 1 < 16) List.length_reverse.symm
      hlt hlt' ?_).symm
    rw [← value_reverse, ← value_reverse, List.reverse_reverse, h, hreads]
  · intro h
    rw [h, hreads]

theorem palindrome_iff (n : U32) :
    (fixed 16 8 n.toNat).reverse = fixed 16 8 n.toNat ↔
      ∀ i < 8, nibble n i = nibble n (7 - i) := by
  have hup : fixed 16 8 n.toNat =
      (List.range 8).map fun i => (nibble n (7 - i)).toNat := by
    simp only [nibble_toNat]
    rfl
  have hdown : (fixed 16 8 n.toNat).reverse =
      (List.range 8).map fun i => (nibble n i).toNat := by
    simp only [nibble_toNat]
    rfl
  rw [hdown, hup, List.map_inj_left]
  simp only [List.mem_range, BitVec.toNat_inj]

/-! ## All four -/

/-- On arrays with room, the renderers make of `n` what each other makes of it. -/
def HexTextsAgree (n : U32) : Prop :=
  ∀ {k m : Nat} (a : CArray U8 k) (out : Nat) (buf : CArray U8 m) (str : Nat),
    out + 11 ≤ k → str + 9 ≤ m →
    ∃ b c d upper lower x u,
      hexToStr n a out = some b ∧ loadStr b out = some (ascii "0x" ++ upper) ∧
      IsHexWord n upper ∧
      panicHexBuffer n = some c ∧ loadStr c 0 = some (ascii "0x" ++ lower) ∧
      IsHexWord n lower ∧ lowerCase upper = lowerCase lower ∧
      shellPrintf (ascii "%x" ++ [0]) [.int n] = some (.writeVgaAt x (-1) (-1) 0x07) ∧
      utoa n buf str 16 = some (str, d) ∧ loadStr d str = some u ∧
      lowerCase x = lowerCase u ∧ lowerCase x = trimZeros (lowerCase lower)

theorem lowerCase_fixed (n w : Nat) {digit : Nat → U8}
    (hdigit : ∀ d, d < 16 → toLower (digit d) = digitText d) :
    lowerCase ((fixed 16 w n).map digit) = (fixed 16 w n).map digitText := by
  rw [lowerCase, List.map_map]
  exact List.map_congr_left fun d hd => hdigit d (fixed_lt (by decide) hd)

theorem upperText_hex_length (n : U32) : (upperText 16 n.toNat).length ≤ 8 := by
  rw [upperText, List.length_map, numeral_length_le_iff (by decide) (by decide)]
  exact Nat.lt_of_lt_of_eq n.isLt (by decide)

theorem HexTextsAgree.palindrome {n : U32} (h : HexTextsAgree n) :
    (fixed 16 8 n.toNat).reverse = fixed 16 8 n.toNat := by
  obtain ⟨b, c, d, upper, lower, x, u, hrun, hload, hword, _⟩ :=
    h (CArray.fill 11 0) 0 (CArray.fill 9 0) 0 (by decide) (by decide)
  obtain ⟨b', hrun', hload'⟩ := @hexToStr_spec _ (CArray.fill 11 0) 0 n
    (by decide)
  obtain rfl := Option.some.inj (hrun.symm.trans hrun')
  have htext := List.append_cancel_left (Option.some.inj (hload.symm.trans hload'))
  have hreads := hword.reads
  rw [htext, ← List.map_reverse, readNumeral_map (m := 16)
    (fun d hd => digitValue_upperDigit d (by omega))
    fun d hd => fixed_lt (by decide) (List.mem_reverse.1 hd)] at hreads
  exact (reverse_reads_iff n).1 hreads

/-- All but `hex_to_str` agree; its text is the others' where its digits are
the same in both directions. -/
theorem hexTextsAgree_iff (n : U32) :
    HexTextsAgree n ↔ ∀ i < 8, nibble n i = nibble n (7 - i) := by
  have hread : ∀ d, d < 16 → digitValue (upperDigit d) = d := fun d hd =>
    digitValue_upperDigit d (by omega)
  rw [← palindrome_iff]
  constructor
  · exact HexTextsAgree.palindrome
  · intro hpal k m a out buf str hroom hroom'
    have hlen := upperText_hex_length n
    obtain ⟨b, hb, hbt⟩ := @hexToStr_spec _ a out n (by omega)
    obtain ⟨c, hc, hcc⟩ := panicHexBuffer_eq n
    obtain ⟨d, hd, hdt⟩ := @utoa_loadStr _ buf 16 n str
      (by decide) (by decide) (by show str + (upperText 16 n.toNat).length < m; omega)
    have hnul : 0 ∉ ascii "0x" ++ (fixed 16 8 n.toNat).map digitText := by
      rw [List.mem_append, not_or]
      exact ⟨by decide, text_nul (by decide) fun d hd => fixed_lt (by decide) hd⟩
    rw [← List.map_reverse, hpal] at hbt
    refine ⟨b, c, d, (fixed 16 8 n.toNat).map upperDigit,
      (fixed 16 8 n.toNat).map digitText, numeralText 16 n.toNat, upperText 16 n.toNat,
      hb, hbt, fixed_isHexWord n hread, hc, loadStr_eq (q := []) hnul hcc,
      fixed_isHexWord n digitValue_digitText, ?_, shellPrintf_hex n, hd, hdt, ?_, ?_⟩
    · rw [lowerCase_fixed _ _ toLower_upperDigit, lowerCase_fixed _ _ toLower_digitText]
    · rw [lowerCase_numeralText, lowerCase_upperText]
    · rw [lowerCase_numeralText, lowerCase_fixed _ _ toLower_digitText,
        trimZeros_map fun d hd => fixed_lt (by decide) hd,
        trim_fixed (by decide) (Nat.lt_of_lt_of_eq n.isLt (by decide))]
      rfl

/-- The number 1 is printed as `0x10000000`. -/
theorem hexToStr_one : ¬ HexTextsAgree 1 := fun h => absurd h.palindrome (by decide)

end MicroKernel.Proofs
