import MicroKernel.Core.Shown
import MicroKernel.Proofs.HexDump
import MicroKernel.Proofs.Printf
import MicroKernel.Spec.DumpText

/-!
# `hexdump` on the screen

`cmd_hexdump` writes its format strings for numbers of a fixed width, and
`shell_printf` prints `%08x` and `%02x` without zeros on the left. What stands on
the screen is the dump as it was meant where every number has all its digits
anyway: a row that lacks one cannot gain it from another row, as all that is
missing is missing.
-/

namespace MicroKernel.Proofs

open MicroKernel.Core Spec Numeral

/-! ## Calls that are written as pieces -/

/-- The argument of a piece, as `cmd_hexdump` passes it. -/
def operands : Piece → List Operand
  | .str s => [.chars (s.map some ++ [some 0])]
  | .dec v | .hex v | .hex02 v | .hex08 v | .char v => [.int v]
  | .lit .. | .percent => []

def printOf (ps : List Piece) : Print := ⟨ps.flatMap Piece.fmt, ps.flatMap operands⟩

theorem readCells_text {s : List U8} (h : 0 ∉ s) :
    readCells (s.map some ++ [some 0]) = some s := by
  induction s with
  | nil => rfl
  | cons c s ih =>
      rw [List.mem_cons, not_or] at h
      rw [List.map_cons, List.cons_append, readCells, if_neg (Ne.symm h.1), ih h.2]
      rfl

theorem operands_args (p : Piece) (h : 0 ∉ p.text) :
    (operands p).mapM Operand.arg = some p.args := by
  cases p with
  | str s =>
      have hread : Operand.arg (.chars (s.map some ++ [some 0])) = some (.str s) := by
        rw [Operand.arg, readCells_text (s := s) h]
        rfl
      rw [operands, List.mapM_cons, hread]
      rfl
  | _ => rfl

theorem printOf_args {ps : List Piece} (h : 0 ∉ textOf ps) :
    (printOf ps).args.mapM Operand.arg = some (argsOf ps) := by
  induction ps with
  | nil => rfl
  | cons p ps ih =>
      rw [textOf_cons, List.mem_append, not_or] at h
      have htail : (ps.flatMap operands).mapM Operand.arg = some (argsOf ps) := ih h.2
      simp [printOf, argsOf_cons, operands_args p h.1, htail]

/-- A call that fits the buffer prints its pieces. -/
theorem printOf_draw {ps : List Piece} (hlen : (textOf ps).length ≤ 511) (hnul : 0 ∉ textOf ps) :
    (printOf ps).draw = some (.writeVgaAt (printedOf ps) (-1) (-1) 0x07) := by
  obtain ⟨hle, hnul'⟩ := printedOf_suffix ps
  obtain ⟨st, hrun, hbuf⟩ := printfLoop_pieces ps (fmtOf ps).length [] (fmtOf_length ps)
    (Nat.le_trans hle hlen) hnul
  have hfmt : (printOf ps).fmt ++ [0] = fmtOf ps := rfl
  rw [Print.draw, printOf_args hnul, Option.bind_some, hfmt, shellPrintf, hrun, Option.map_some,
    hbuf, List.nil_append, cstr_append_nul (hnul' hnul)]

theorem printedOf_append (ps qs : List Piece) :
    printedOf (ps ++ qs) = printedOf ps ++ printedOf qs := List.flatMap_append

theorem shownText_pieces {pss : List (List Piece)}
    (h : ∀ ps ∈ pss, (textOf ps).length ≤ 511 ∧ 0 ∉ textOf ps) :
    shownText (pss.map printOf) = some (printedOf pss.flatten) := by
  induction pss with
  | nil => rfl
  | cons ps pss ih =>
      obtain ⟨hps, hrest⟩ := List.forall_mem_cons.1 h
      obtain ⟨ds, hds, htext⟩ := Option.map_eq_some_iff.1 (ih hrest)
      rw [shownText, List.map_cons, List.mapM_cons, printOf_draw hps.1 hps.2, hds,
        List.flatten_cons, printedOf_append, ← htext]
      rfl

/-! ## The dump as pieces -/

def letter (c : U8) (h : c ≠ 0 ∧ c ≠ chr '%') : Piece := .lit c h.1 h.2

def space : Piece := letter (chr ' ') (by decide)

section
variable (mem : U32 → U8) (addr : U32)

def addressPieces (r : Nat) : List Piece :=
  [letter (chr '0') (by decide), letter (chr 'x') (by decide),
    .hex08 (rowAddress addr r), letter (chr ':') (by decide), space]

def bytePieces (k : Nat) : List Piece := [.hex02 ((byteAt mem addr k).setWidth 32), space]

def columnPieces (r n : Nat) : List Piece :=
  [space, space, letter (chr '|') (by decide), .str (columnOf mem addr r n),
    letter (chr '|') (by decide), letter (chr '\n') (by decide)]

/-- The calls for row `r`, with `n` bytes. -/
def rowPieces (r n : Nat) : List (List Piece) :=
  addressPieces addr r :: (List.range n).map (fun j => bytePieces mem addr (16 * r + j)) ++
    List.replicate (16 - n) [space, space, space] ++ [columnPieces mem addr r n]

def dumpPieces (len : Nat) : List (List Piece) :=
  (List.range ((len + 15) / 16)).flatMap fun r => rowPieces mem addr r (min 16 (len - 16 * r))

end

section
variable {mem : U32 → U8} {addr : U32}

theorem rowOf_pieces (r n : Nat) : rowOf mem addr r n = (rowPieces mem addr r n).map printOf := by
  have hbytes : bytesOf mem addr r n =
      ((List.range n).map fun j => bytePieces mem addr (16 * r + j)).map printOf := by
    rw [List.map_map]
    rfl
  rw [rowPieces, List.map_append, List.map_append, List.map_cons, List.map_replicate, ← hbytes]
  rfl

theorem dumpOf_pieces (len : Nat) :
    dumpOf mem addr len = (dumpPieces mem addr len).map printOf := by
  rw [dumpOf, dumpPieces, List.map_flatMap]
  exact List.flatMap_congr fun r _ => rowOf_pieces r _

section
variable {g : Piece → List U8} {hex : Nat → Nat → List U8}

theorem flatMap_flatten (pss : List (List Piece)) :
    pss.flatten.flatMap g = pss.flatMap fun ps => ps.flatMap g := by
  rw [List.flatten_eq_flatMap, List.flatMap_assoc]
  rfl

variable (hlit : ∀ c h h', g (.lit c h h') = [c]) (hstr : ∀ s, g (.str s) = s)
  (hshort : ∀ v, g (.hex02 v) = hex 2 v.toNat) (hlong : ∀ v, g (.hex08 v) = hex 8 v.toNat)
include hlit hstr hshort hlong

theorem rowText_pieces (r n : Nat) :
    (rowPieces mem addr r n).flatten.flatMap g = rowText hex mem addr r n := by
  have haddress : (addressPieces addr r).flatMap g =
      ascii "0x" ++ (hex 8 (rowAddress addr r).toNat ++ ascii ": ") := by
    simp only [addressPieces, space, letter, List.flatMap_cons, List.flatMap_nil, hlit, hlong]
    rfl
  have hbyte (k : Nat) : (bytePieces mem addr k).flatMap g =
      hex 2 (byteAt mem addr k).toNat ++ ascii " " := by
    simp only [bytePieces, space, letter, List.flatMap_cons, List.flatMap_nil, hlit, hshort]
    rw [BitVec.toNat_setWidth_of_le (by decide)]
    rfl
  have hbytes : ((List.range n).map fun j => bytePieces mem addr (16 * r + j)).flatMap
        (fun ps => ps.flatMap g) =
      (List.range n).flatMap fun j =>
        hex 2 (byteAt mem addr (16 * r + j)).toNat ++ ascii " " := by
    rw [List.flatMap_map]
    exact List.flatMap_congr fun j _ => hbyte _
  have hblank : [space, space, space].flatMap g = ascii "   " := by
    simp only [space, letter, List.flatMap_cons, List.flatMap_nil, hlit]
    rfl
  have hblanks : (List.replicate (16 - n) [space, space, space]).flatMap
      (fun ps => ps.flatMap g) = (List.replicate (16 - n) (ascii "   ")).flatten := by
    rw [List.flatMap, List.map_replicate, hblank]
  have hcolumn : (columnPieces mem addr r n).flatMap g =
      ascii "  |" ++ (columnOf mem addr r n ++ ascii "|\n") := by
    simp only [columnPieces, space, letter, List.flatMap_cons, List.flatMap_nil, hlit, hstr]
    rfl
  rw [flatMap_flatten, rowPieces, List.flatMap_append, List.flatMap_append, List.flatMap_cons,
    hbytes, hblanks, List.flatMap_singleton, haddress, hcolumn]
  simp only [rowText, List.append_assoc]

theorem dumpText_pieces (len : Nat) :
    (dumpPieces mem addr len).flatten.flatMap g = dumpText hex mem addr len := by
  rw [flatMap_flatten, dumpPieces, List.flatMap_assoc, dumpText]
  refine List.flatMap_congr fun r _ => ?_
  rw [← flatMap_flatten, rowText_pieces hlit hstr hshort hlong]

end

/-! ## Every call fits -/

structure Fits (n : Nat) (s : List U8) : Prop where
  length : s.length ≤ n
  nul : 0 ∉ s

theorem Fits.append {n m : Nat} {s t : List U8} (h : Fits n s) (h' : Fits m t) :
    Fits (n + m) (s ++ t) := by
  refine ⟨?_, fun hz => (List.mem_append.1 hz).elim h.nul h'.nul⟩
  rw [List.length_append]
  exact Nat.add_le_add h.length h'.length

theorem fits_paddedHex (w : Nat) (v : U32) : Fits (w + 8) (paddedHex w v.toNat) := by
  have hlen : (numeral 16 v.toNat).length ≤ 8 :=
    (numeral_length_le_iff (by decide) (by decide)).2 (Nat.lt_of_lt_of_eq v.isLt (by decide))
  have hdigit : ∀ d, d < 16 → digitText d ≠ 0 := by decide
  constructor
  · rw [paddedHex, List.length_leftpad, numeralText, List.length_map]
    omega
  · rw [paddedHex, List.leftpad, List.mem_append, not_or]
    refine ⟨fun h => absurd (List.eq_of_mem_replicate h) (by decide), fun h => ?_⟩
    obtain ⟨d, hd, hz⟩ := List.mem_map.1 h
    exact hdigit d (numeral_lt (by decide) hd) hz

theorem fits_columnOf (r n : Nat) : Fits 16 (columnOf mem addr r n) := by
  refine ⟨by rw [columnOf, List.length_map, List.length_range], fun h => ?_⟩
  obtain ⟨j, -, hz⟩ := List.mem_map.1 h
  split at hz
  · dsimp only at hz
    split at hz
    · next hin =>
        rw [hz] at hin
        exact absurd hin.1 (by decide)
    · exact absurd hz (by decide)
  · exact absurd hz (by decide)

theorem fits_rowPieces {r n : Nat} {ps : List Piece} (h : ps ∈ rowPieces mem addr r n) :
    ∃ k ≤ 511, Fits k (textOf ps) := by
  simp only [rowPieces, List.mem_append, List.mem_cons, List.mem_map, List.mem_replicate,
    List.not_mem_nil, or_false] at h
  obtain ((rfl | ⟨j, -, rfl⟩) | ⟨-, rfl⟩) | rfl := h
  · have hhead : Fits 2 (ascii "0x") := ⟨by decide, by decide⟩
    have htail : Fits 2 (ascii ": ") := ⟨by decide, by decide⟩
    exact ⟨_, by decide, hhead.append ((fits_paddedHex 8 _).append htail)⟩
  · have htail : Fits 1 (ascii " ") := ⟨by decide, by decide⟩
    exact ⟨_, by decide, (fits_paddedHex 2 _).append htail⟩
  · exact ⟨3, by decide, by decide, by decide⟩
  · have hhead : Fits 3 (ascii "  |") := ⟨by decide, by decide⟩
    have htail : Fits 2 (ascii "|\n") := ⟨by decide, by decide⟩
    exact ⟨_, by decide, hhead.append ((fits_columnOf r n).append htail)⟩

theorem fits_dumpPieces (len : Nat) :
    ∀ ps ∈ dumpPieces mem addr len, (textOf ps).length ≤ 511 ∧ 0 ∉ textOf ps := by
  intro ps hps
  obtain ⟨r, -, hrow⟩ := List.mem_flatMap.1 hps
  obtain ⟨k, hk, hfits⟩ := fits_rowPieces hrow
  exact ⟨Nat.le_trans hfits.length hk, hfits.nul⟩

/-! ## Where the zeros are missed -/

/-- Row `r` needs no zero on the left. -/
theorem rowPieces_fill (r n : Nat) :
    (∀ p ∈ (rowPieces mem addr r n).flatten, p.Fills) ↔
      0x10000000 ≤ (rowAddress addr r).toNat ∧
        ∀ j < n, 0x10 ≤ (byteAt mem addr (16 * r + j)).toNat := by
  have haddress : (∀ p ∈ addressPieces addr r, p.Fills) ↔
      0x10000000 ≤ (rowAddress addr r).toNat := by
    simp [addressPieces, space, letter, Piece.Fills]
  have hbyte (k : Nat) : (∀ p ∈ bytePieces mem addr k, p.Fills) ↔
      0x10 ≤ (byteAt mem addr k).toNat := by
    rw [bytePieces, List.forall_mem_cons, List.forall_mem_singleton, Piece.Fills,
      BitVec.toNat_setWidth_of_le (by decide)]
    exact and_iff_left trivial
  have hblank : ∀ p ∈ [space, space, space], p.Fills := by simp [space, letter, Piece.Fills]
  have hcolumn : ∀ p ∈ columnPieces mem addr r n, p.Fills := by
    simp [columnPieces, space, letter, Piece.Fills]
  have hrow : (∀ ps ∈ rowPieces mem addr r n, ∀ p ∈ ps, p.Fills) ↔
      0x10000000 ≤ (rowAddress addr r).toNat ∧
        ∀ j < n, 0x10 ≤ (byteAt mem addr (16 * r + j)).toNat := by
    simp only [rowPieces, List.forall_mem_append, List.forall_mem_cons, List.forall_mem_map,
      List.mem_range, haddress, hbyte]
    exact ⟨fun h => h.1.1, fun h => ⟨⟨h, fun ps hps => List.eq_of_mem_replicate hps ▸ hblank⟩,
      hcolumn, fun _ h => absurd h List.not_mem_nil⟩⟩
  rw [← hrow]
  exact List.forall_mem_flatten

theorem dumpPieces_fill (len : Nat) :
    (∀ p ∈ (dumpPieces mem addr len).flatten, p.Fills) ↔
      (∀ r, 16 * r < len → 0x10000000 ≤ (rowAddress addr r).toNat) ∧
        ∀ k < len, 0x10 ≤ (byteAt mem addr k).toNat := by
  have hrows : (∀ p ∈ (dumpPieces mem addr len).flatten, p.Fills) ↔
      ∀ r, r < (len + 15) / 16 → 0x10000000 ≤ (rowAddress addr r).toNat ∧
        ∀ j < min 16 (len - 16 * r), 0x10 ≤ (byteAt mem addr (16 * r + j)).toNat := by
    simp only [← rowPieces_fill, dumpPieces, List.forall_mem_flatten, List.forall_mem_flatMap,
      List.mem_range]
  rw [hrows]
  constructor
  · intro h
    refine ⟨fun r hr => (h r (by omega)).1, fun k hk => ?_⟩
    have hbyte := (h (k / 16) (by omega)).2 (k % 16) (by omega)
    rwa [Nat.div_add_mod] at hbyte
  · rintro ⟨haddress, hbytes⟩ r hr
    exact ⟨haddress r (by omega), fun j hj => hbytes _ (by omega)⟩

/-! ## The command -/

theorem printedOf_dumpPieces (len : Nat) : printedOf (dumpPieces mem addr len).flatten =
    dumpText (fun _ n => numeralText 16 n) mem addr len :=
  dumpText_pieces (fun _ _ _ => rfl) (fun _ => rfl) (fun _ => rfl) (fun _ => rfl) len

theorem textOf_dumpPieces (len : Nat) :
    textOf (dumpPieces mem addr len).flatten = dumpText paddedHex mem addr len :=
  dumpText_pieces (fun _ _ _ => rfl) (fun _ => rfl) (fun _ => rfl) (fun _ => rfl) len

theorem shownText_dump (len : Nat) : shownText (dumpOf mem addr len) =
    some (dumpText (fun _ n => numeralText 16 n) mem addr len) := by
  rw [dumpOf_pieces, shownText_pieces (fits_dumpPieces len), printedOf_dumpPieces]

theorem dumpText_eq_iff (len : Nat) :
    dumpText (fun _ n => numeralText 16 n) mem addr len = dumpText paddedHex mem addr len ↔
      (∀ r, 16 * r < len → 0x10000000 ≤ (rowAddress addr r).toNat) ∧
        ∀ k < len, 0x10 ≤ (byteAt mem addr k).toNat := by
  rw [← dumpPieces_fill, ← printedOf_eq_iff, printedOf_dumpPieces, textOf_dumpPieces]

theorem shownText_empty : shownText
    [⟨ascii "  |%s|\n", [.chars (List.replicate 16 none ++ [some 0])]⟩] = none := rfl

end

/-- With a byte to dump, all calls go through, and the text on the screen has every
number with as many digits as it needs. It is the dump in columns exactly where every
row is at 0x10000000 or above and every byte is 0x10 or more. -/
theorem hexdump_text (mem : U32 → U8) {argc : Int} {argv : List (List U8)} {addr len : U32}
    (hargc : 3 ≤ argc) (haddr : argv[1]?.bind atoi = some addr)
    (hlen : argv[2]?.bind atoi = some len) :
    let shown := (cmdHexdump mem argc argv).bind fun r => shownText r.1
    shown = (if len = 0 then none
      else some (dumpText (fun _ n => numeralText 16 n) mem addr len.toNat)) ∧
    (shown = some (dumpText paddedHex mem addr len.toNat) ↔
      len ≠ 0 ∧ (∀ r, 16 * r < len.toNat → 0x10000000 ≤ (rowAddress addr r).toNat) ∧
        ∀ k < len.toNat, 0x10 ≤ (byteAt mem addr k).toNat) := by
  have hbody : cmdHexdump mem argc argv = (dump mem addr len).map fun out => (out, 0) := by
    rw [cmdHexdump, if_neg (by omega), haddr, hlen]
    cases h : dump mem addr len <;> simp [h]
  intro shown
  have hshown : shown = (if len = 0 then none
      else some (dumpText (fun _ n => numeralText 16 n) mem addr len.toNat)) := by
    show (cmdHexdump mem argc argv).bind (fun r => shownText r.1) = _
    rw [hbody]
    split
    · next hzero => rw [hzero, dump_zero, Option.map_some, Option.bind_some, shownText_empty]
    · next hsome =>
        rw [dump_eq hsome, Option.map_some, Option.bind_some, shownText_dump]
  refine ⟨hshown, ?_⟩
  rw [hshown, ← dumpText_eq_iff]
  split
  · next hzero => exact iff_of_false (fun h => by cases h) fun h => h.1 hzero
  · next hsome => rw [Option.some_inj, and_iff_right hsome]

/-- `hexdump 1048576 20` does not come out in columns, and at 0x10000000 the letters of
a text do. -/
theorem hexdump_text_image :
    let shown := (cmdHexdump (fun a => a.setWidth 8) 3
      [ascii "hexdump" ++ [0], ascii "1048576" ++ [0], ascii "20" ++ [0]]).bind
        fun r => shownText r.1
    let letters := (cmdHexdump (fun a => 0x40 ||| a.setWidth 8) 3
      [ascii "hexdump" ++ [0], ascii "268435456" ++ [0], ascii "20" ++ [0]]).bind
        fun r => shownText r.1
    shown = some (dumpText (fun _ n => numeralText 16 n) (fun a => a.setWidth 8) 0x100000 20) ∧
      shown ≠ some (dumpText paddedHex (fun a => a.setWidth 8) 0x100000 20) ∧
      letters = some (dumpText paddedHex (fun a => 0x40 ||| a.setWidth 8) 0x10000000 20) := by
  obtain ⟨hshown, hcolumns⟩ := @hexdump_text (fun a => a.setWidth 8) 3
    [ascii "hexdump" ++ [0], ascii "1048576" ++ [0], ascii "20" ++ [0]] 0x100000 20 (by decide)
    rfl rfl
  obtain ⟨-, hletters⟩ := @hexdump_text (fun a => 0x40 ||| a.setWidth 8) 3
    [ascii "hexdump" ++ [0], ascii "268435456" ++ [0], ascii "20" ++ [0]] 0x10000000 20 (by decide)
    rfl rfl
  refine ⟨hshown.trans (if_neg (by decide)), fun h => ?_, hletters.2 ⟨by decide, ?_, ?_⟩⟩
  · have hfirst := (hcolumns.1 h).2.1 0 (by decide)
    revert hfirst
    decide
  · intro r hr
    have hrows : ∀ r < 2, 0x10000000 ≤ (rowAddress 0x10000000 r).toNat := by decide
    have hlen : (20 : U32).toNat = 20 := rfl
    exact hrows r (by omega)
  · decide

end MicroKernel.Proofs
