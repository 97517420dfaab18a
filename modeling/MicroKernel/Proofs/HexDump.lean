import MicroKernel.Spec.HexDump

/-!
# `cmd_hexdump` prints the dump

The column of a row is printed when the next row begins, or after the loop. So
what has been printed is, up to the start of a row, all rows before it but the
last column: the invariant counts that column as printed, and says that
`ascii_buf` still holds it. With no byte at all there is no row and no column,
and the call after the loop prints what was never assigned.
-/

namespace MicroKernel.Proofs

open MicroKernel.Core Spec

section
variable {mem : U32 → U8} {addr : U32}

/-! ## The loops -/

/-- The characters before the terminator fill `ascii_buf`. -/
theorem column_length {d : Dump} {cells : List (Option U8)}
    (h : d.asciiBuf.cells = cells ++ [some 0]) : cells.length = 16 := by
  have hsize := d.asciiBuf.size
  rw [h, List.length_append] at hsize
  exact Nat.add_right_cancel hsize

theorem assign_eq {d : Dump} {q rest : List (Option U8)} {x : Option U8}
    (h : d.asciiBuf.cells = q ++ x :: rest) (c : U8) :
    ∃ e, d.assign q.length c = some e ∧ e.out = d.out ∧
      e.asciiBuf.cells = q ++ some c :: rest := by
  obtain ⟨b, hstore, hb⟩ := CArray.store_eq h (some c)
  refine ⟨{ d with asciiBuf := b }, ?_, rfl, hb⟩
  rw [Dump.assign, hstore]
  rfl

/-- The column of the row before row `r`, which is still to be printed. -/
def pending (r : Nat) (cells : List (Option U8)) : List Print :=
  if r = 0 then [] else [⟨ascii "  |%s|\n", [.chars cells]⟩]

/-- What is printed before the byte `m` of row `r`. -/
def opening (addr : U32) (r m : Nat) (cells : List (Option U8)) : List Print :=
  if m = 0 then pending r cells ++ [addressOf addr r] else []

/-- The characters of the first `n` bytes of row `r`. -/
def charsOf (mem : U32 → U8) (addr : U32) (r n : Nat) : List (Option U8) :=
  (List.range n).map fun j => some (asciiChar (byteAt mem addr (16 * r + j)))

theorem charsOf_length (r n : Nat) : (charsOf mem addr r n).length = n := by
  rw [charsOf, List.length_map, List.length_range]

theorem charsOf_succ (r n : Nat) :
    charsOf mem addr r (n + 1) =
      charsOf mem addr r n ++ [some (asciiChar (byteAt mem addr (16 * r + n)))] := by
  rw [charsOf, List.range_succ, List.map_append]
  rfl

theorem bytesOf_succ (r n : Nat) :
    bytesOf mem addr r (n + 1) = bytesOf mem addr r n ++
      [⟨ascii "%02x ", [.int ((byteAt mem addr (16 * r + n)).setWidth 32)]⟩] := by
  rw [bytesOf, List.range_succ, List.map_append]
  rfl

section
variable {r m : Nat}

theorem index_toNat (hk : 16 * r + m < 2 ^ 32) :
    (BitVec.ofNat 32 (16 * r + m)).toNat = 16 * r + m := by
  rw [BitVec.toNat_ofNat, Nat.mod_eq_of_lt hk]

theorem index_mod (hm : m < 16) (hk : 16 * r + m < 2 ^ 32) :
    (BitVec.ofNat 32 (16 * r + m) % 16).toNat = m := by
  rw [BitVec.toNat_umod, index_toNat hk]
  show (16 * r + m) % 16 = m
  omega

/-- What a new row begins with: it leaves `ascii_buf` alone. -/
theorem dumpByte_opening (addr : U32) (hm : m < 16) (hk : 16 * r + m < 2 ^ 32) (d : Dump) :
    ∃ d', (if BitVec.ofNat 32 (16 * r + m) % 16 = 0 then
        (if 0 < BitVec.ofNat 32 (16 * r + m) then d.printColumn else d).print "0x%08x: "
          [.int (addr + BitVec.ofNat 32 (16 * r + m))]
      else d) = d' ∧ d'.out = d.out ++ opening addr r m d.asciiBuf.cells ∧
        d'.asciiBuf = d.asciiBuf := by
  have hstart : BitVec.ofNat 32 (16 * r + m) % 16 = 0 ↔ m = 0 := by
    rw [← BitVec.toNat_inj, index_mod hm hk]
    exact Iff.rfl
  have hlater : 0 < BitVec.ofNat 32 (16 * r + m) ↔ 0 < 16 * r + m := by
    rw [BitVec.lt_def, index_toNat hk]
    exact Iff.rfl
  refine ⟨_, rfl, ?_⟩
  simp only [hstart, hlater, opening, pending]
  split
  · next hm0 =>
      subst hm0
      by_cases hr : r = 0
      · subst hr
        exact ⟨rfl, rfl⟩
      · rw [if_pos (by omega), if_neg hr]
        exact ⟨List.append_assoc _ _ _, rfl⟩
  · exact ⟨(List.append_nil _).symm, rfl⟩

/-- One round of the loop, at byte `m` of row `r`. -/
theorem dumpByte_eq (mem : U32 → U8) (addr : U32) (hm : m < 16)
    (hk : 16 * r + m < 2 ^ 32) {d : Dump}
    {q rest : List (Option U8)} {x : Option U8} (hq : q.length = m)
    (hbuf : d.asciiBuf.cells = q ++ x :: rest) :
    ∃ e, dumpByte mem addr (BitVec.ofNat 32 (16 * r + m)) d = some e ∧
      e.out = d.out ++ opening addr r m d.asciiBuf.cells ++
        [⟨ascii "%02x ", [.int ((byteAt mem addr (16 * r + m)).setWidth 32)]⟩] ∧
      e.asciiBuf.cells =
        q ++ some (asciiChar (byteAt mem addr (16 * r + m))) :: rest := by
  obtain ⟨d', hd', hout, hcells⟩ := dumpByte_opening addr hm hk d
  rw [← hcells] at hbuf
  obtain ⟨e, hassign, heout, hecells⟩ := assign_eq
    (d := d'.print "%02x " [.int ((byteAt mem addr (16 * r + m)).setWidth 32)]) hbuf
    (asciiChar (byteAt mem addr (16 * r + m)))
  rw [hq] at hassign
  refine ⟨e, ?_, ?_, hecells⟩
  · rw [← hassign, ← hd', dumpByte, index_mod hm hk]
    rfl
  · rw [heout, ← hout]
    rfl

end

/-- The loop over the bytes of one row. -/
theorem dumpRow_run (mem : U32 → U8) (addr : U32) {r n : Nat} (hn : n ≤ 16)
    (hk : 16 * r + n ≤ 2 ^ 32) {d : Dump}
    {old rest : List (Option U8)} (hold : old.length = n)
    (hbuf : d.asciiBuf.cells = old ++ rest) :
    ∃ e, ((List.range n).map (16 * r + ·)).foldlM
        (fun d k => dumpByte mem addr (BitVec.ofNat 32 k) d) d = some e ∧
      e.out = d.out ++ (if n = 0 then [] else
        pending r d.asciiBuf.cells ++ [addressOf addr r]) ++ bytesOf mem addr r n ∧
      e.asciiBuf.cells = charsOf mem addr r n ++ rest := by
  induction n generalizing old rest with
  | zero =>
      obtain rfl := List.eq_nil_of_length_eq_zero hold
      refine ⟨d, rfl, ?_, hbuf⟩
      simp [bytesOf]
  | succ n ih =>
      have hne : old ≠ [] := by
        rintro rfl
        cases hold
      have hlast := List.dropLast_append_getLast hne
      have hinit : old.dropLast.length = n := by
        rw [List.length_dropLast, hold, Nat.add_sub_cancel]
      have hbuf' : d.asciiBuf.cells = old.dropLast ++ old.getLast hne :: rest := by
        rw [hbuf, ← List.singleton_append, ← List.append_assoc, hlast]
      obtain ⟨e, hrun, hout, hcells⟩ := ih (by omega) (by omega) hinit hbuf'
      obtain ⟨f, hstep, hfout, hfcells⟩ := dumpByte_eq mem addr
        (r := r) (by omega) (by omega) (charsOf_length r n) hcells
      refine ⟨f, ?_, ?_, ?_⟩
      · rw [List.range_succ, List.map_append, List.foldlM_append, hrun]
        show (dumpByte mem addr (BitVec.ofNat 32 (16 * r + n)) e >>= pure) = _
        rw [hstep]
        rfl
      · rw [hfout, hout, bytesOf_succ, opening, if_neg (Nat.succ_ne_zero n)]
        split
        · next hz =>
            subst hz
            have hsame : e.asciiBuf.cells = d.asciiBuf.cells := by
              rw [hcells, hbuf', List.eq_nil_of_length_eq_zero hinit]
              rfl
            simp [hsame, bytesOf]
        · simp
      · rw [hfcells, charsOf_succ]
        simp

/-- The fold is the loop. -/
theorem dumpLoop_eq (mem : U32 → U8) (addr len : U32) (n : Nat) :
    ∀ (k : Nat) (d : Dump), k + n = len.toNat →
      dumpLoop mem addr len (n + 1) (BitVec.ofNat 32 k) d =
        ((List.range n).map (k + ·)).foldlM
          (fun d k => dumpByte mem addr (BitVec.ofNat 32 k) d) d := by
  have hlt : ∀ k, k ≤ len.toNat → (BitVec.ofNat 32 k < len ↔ k < len.toNat) := by
    intro k hk
    rw [BitVec.lt_def, BitVec.toNat_ofNat, Nat.mod_eq_of_lt (Nat.lt_of_le_of_lt hk len.isLt)]
  induction n with
  | zero =>
      intro k d hk
      rw [dumpLoop, if_neg (mt (hlt k (by omega)).1 (by omega))]
      rfl
  | succ n ih =>
      intro k d hk
      have hnext : BitVec.ofNat 32 k + 1 = BitVec.ofNat 32 (k + 1) := by
        rw [BitVec.ofNat_add]
        rfl
      have hshift : (List.range (n + 1)).map (k + ·) =
          k :: (List.range n).map (k + 1 + ·) := by
        rw [List.range_succ_eq_map, List.map_cons, List.map_map]
        congr 2
        funext j
        show k + (j + 1) = k + 1 + j
        omega
      rw [dumpLoop, if_pos ((hlt k (by omega)).2 (by omega)), hshift, List.foldlM_cons,
        hnext]
      exact congrArg _ (funext fun e => ih (k + 1) e (by omega))

theorem columnOf_eq {r n : Nat} (hn : n ≤ 16) :
    (columnOf mem addr r n).map some =
      charsOf mem addr r n ++ List.replicate (16 - n) (some (chr ' ')) := by
  have hsplit : List.range 16 = List.range n ++ (List.range (16 - n)).map (n + ·) := by
    rw [← List.range_add]
    congr 1
    omega
  rw [columnOf, hsplit, List.map_append, List.map_append, List.map_map, List.map_map,
    List.map_map]
  congr 1
  · refine List.map_congr_left fun j hj => ?_
    simp only [Function.comp_apply, if_pos (List.mem_range.1 hj)]
    rfl
  · refine List.eq_replicate_iff.2 ⟨by simp, fun c hc => ?_⟩
    obtain ⟨j, -, rfl⟩ := List.mem_map.1 hc
    simp

/-- All rows before row `R`, the last column counted as printed. -/
theorem dumpRows_run (mem : U32 → U8) (addr : U32) (R : Nat) (hk : 16 * R ≤ 2 ^ 32) {d : Dump}
    (hout : d.out = [])
    (hbuf : ∃ cells, d.asciiBuf.cells = cells ++ [some 0]) :
    ∃ e, (List.range (16 * R)).foldlM
        (fun d k => dumpByte mem addr (BitVec.ofNat 32 k) d) d = some e ∧
      e.out ++ pending R e.asciiBuf.cells =
        (List.range R).flatMap (fun r => rowOf mem addr r 16) ∧
      ∃ cells, e.asciiBuf.cells = cells ++ [some 0] := by
  induction R with
  | zero => exact ⟨d, rfl, by rw [hout]; rfl, hbuf⟩
  | succ R ih =>
      obtain ⟨e, hrun, heout, cells, hcells⟩ := ih (by omega)
      obtain ⟨f, hrow, hfout, hfcells⟩ := dumpRow_run mem addr
        (r := R) (n := 16) (Nat.le_refl _) (by omega) (column_length hcells) hcells
      refine ⟨f, ?_, ?_, _, hfcells⟩
      · rw [Nat.mul_succ, List.range_add, List.foldlM_append, hrun]
        exact hrow
      · rw [hfout, hfcells, List.range_succ, List.flatMap_append, ← heout,
          List.flatMap_singleton, rowOf, columnOf_eq (Nat.le_refl _)]
        simp [pending]

/-- The blanks of the last row. -/
theorem dumpFill_run (m fuel : Nat) {i : Nat} (hfuel : m < fuel) (hi : i + m = 16)
    {d : Dump} {q old : List (Option U8)} (hq : q.length = i) (hold : old.length = m)
    (hbuf : d.asciiBuf.cells = q ++ old ++ [some 0]) :
    ∃ e, dumpFill fuel i d = some e ∧
      e.out = d.out ++ List.replicate m ⟨ascii "   ", []⟩ ∧
      e.asciiBuf.cells = q ++ List.replicate m (some (chr ' ')) ++ [some 0] := by
  induction m generalizing fuel i d q old with
  | zero =>
      obtain ⟨fuel, rfl⟩ : ∃ k, fuel = k + 1 := ⟨fuel - 1, by omega⟩
      obtain rfl := List.eq_nil_of_length_eq_zero hold
      exact ⟨d, if_neg (by omega), (List.append_nil _).symm, hbuf⟩
  | succ m ih =>
      obtain ⟨fuel, rfl⟩ : ∃ k, fuel = k + 1 := ⟨fuel - 1, by omega⟩
      obtain ⟨x, old, rfl⟩ := List.exists_cons_of_length_eq_add_one hold
      rw [List.append_assoc] at hbuf
      obtain ⟨e, hassign, heout, hecells⟩ := assign_eq (d := d.print "   " []) hbuf (chr ' ')
      have hecells' : e.asciiBuf.cells = (q ++ [some (chr ' ')]) ++ old ++ [some 0] := by
        rw [hecells]
        simp
      obtain ⟨f, hrun, hfout, hfcells⟩ := ih fuel (i := i + 1) (by omega)
        (by omega) (by simp [hq]) (Nat.succ.inj hold) hecells'
      rw [hq] at hassign
      refine ⟨f, ?_, ?_, ?_⟩
      · rw [dumpFill, if_pos (by omega), hassign]
        exact hrun
      · rw [hfout, heout, List.replicate_succ]
        exact List.append_assoc _ _ _
      · rw [hfcells, List.replicate_succ]
        simp

/-! ## The whole command -/

/-- The rows with nothing missing. -/
theorem rows_full {R len : Nat} (h : 16 * R ≤ len) :
    ((List.range R).flatMap fun r => rowOf mem addr r (min 16 (len - 16 * r))) =
      (List.range R).flatMap fun r => rowOf mem addr r 16 := by
  refine List.flatMap_congr fun r hr => ?_
  have hlt := List.mem_range.1 hr
  congr 1
  omega

theorem dumpOf_full (R : Nat) :
    dumpOf mem addr (16 * R + 0) =
      (List.range R).flatMap fun r => rowOf mem addr r 16 := by
  have hrows : (16 * R + 0 + 15) / 16 = R := by omega
  rw [dumpOf, hrows]
  exact rows_full (Nat.le_refl (16 * R))

theorem dumpOf_partial {R n : Nat} (hn : n ≠ 0) (hn' : n < 16) :
    dumpOf mem addr (16 * R + n) =
      (List.range R).flatMap (fun r => rowOf mem addr r 16) ++ rowOf mem addr R n := by
  have hrows : (16 * R + n + 15) / 16 = R + 1 := by omega
  have hlast : min 16 (16 * R + n - 16 * R) = n := by omega
  rw [dumpOf, hrows, List.range_succ, List.flatMap_append, List.flatMap_singleton, hlast,
    rows_full (Nat.le_add_right (16 * R) n)]

/-- What follows the loop: the blanks of a row that is not full, and its column. -/
theorem dump_of_loop {len : U32} {b : CArray (Option U8) 17} {R n : Nat} {f : Dump}
    (hstore : (CArray.fill 17 (none : Option U8)).store 16 (some 0) = some b)
    (hsplit : len.toNat = 16 * R + n) (hn : n < 16)
    (hloop : dumpLoop mem addr len (16 * R + n + 1) 0 { out := [], asciiBuf := b } = some f) :
    dump mem addr len =
      (if n ≠ 0 then dumpFill 17 n f else some f).bind fun d => some d.printColumn.out := by
  have hrem : (len % 16).toNat = n := by
    rw [BitVec.toNat_umod, hsplit]
    show (16 * R + n) % 16 = n
    omega
  simp only [dump, hstore, hsplit, hrem, hloop, Option.bind_eq_bind, Option.bind_some]
  split <;> rfl

theorem dump_eq {len : U32} (hlen : len ≠ 0) :
    dump mem addr len = some (dumpOf mem addr len.toNat) := by
  have hsize := len.isLt
  have hpos : len.toNat ≠ 0 := fun h => hlen (BitVec.eq_of_toNat_eq h)
  obtain ⟨b, hstore, hb⟩ := CArray.store_eq (a := CArray.fill 17 (none : Option U8))
    (q := List.replicate 16 none) (r := []) rfl (some 0)
  have hloop := dumpLoop_eq mem addr len len.toNat 0
    { out := [], asciiBuf := b } (Nat.zero_add _)
  have hzero : (List.range len.toNat).map (0 + ·) = List.range len.toNat := by
    simp
  obtain ⟨R, n, hn, hsplit⟩ : ∃ R n, n < 16 ∧ len.toNat = 16 * R + n :=
    ⟨len.toNat / 16, len.toNat % 16, Nat.mod_lt _ (by decide), by omega⟩
  obtain ⟨e, hrows, heout, cells, hecells⟩ := dumpRows_run mem addr R
    (by omega) (d := { out := [], asciiBuf := b }) rfl ⟨_, hb⟩
  rw [hzero, hsplit, List.range_add, List.foldlM_append, hrows] at hloop
  have hrun : ∀ f, ((List.range n).map (16 * R + ·)).foldlM
      (fun d k => dumpByte mem addr (BitVec.ofNat 32 k) d) e = some f →
      dump mem addr len =
        (if n ≠ 0 then dumpFill 17 n f else some f).bind fun d => some d.printColumn.out :=
    fun f hf => dump_of_loop hstore hsplit hn (hloop.trans hf)
  by_cases hn0 : n = 0
  · -- whole rows: the call after the loop prints the last column
    subst hn0
    have hR : R ≠ 0 := by
      rintro rfl
      exact hpos hsplit
    rw [hrun e rfl, hsplit, dumpOf_full, ← heout, pending, if_neg hR]
    rfl
  · have hlen := column_length hecells
    rw [← List.take_append_drop n cells, List.append_assoc] at hecells
    obtain ⟨f, hrow, hfout, hfcells⟩ := dumpRow_run mem addr (r := R)
      (n := n) (by omega) (by omega) (by rw [List.length_take]; omega) hecells
    rw [← List.append_assoc] at hfcells
    obtain ⟨g, hfill, hgout, hgcells⟩ := dumpFill_run (16 - n) 17 (i := n)
      (by omega) (by omega) (charsOf_length R n) (by rw [List.length_drop, hlen]) hfcells
    rw [hrun f hrow, if_pos hn0, hfill, hsplit, dumpOf_partial hn0 hn, ← heout]
    simp only [Option.bind_some, Dump.printColumn, Dump.print, hgout, hfout, hgcells, rowOf,
      columnOf_eq (Nat.le_of_lt hn), if_neg hn0]
    simp

/-- Without a byte, the column printed is one that nothing assigned. -/
theorem dump_zero :
    dump mem addr 0 = some
      [⟨ascii "  |%s|\n", [.chars (List.replicate 16 none ++ [some 0])]⟩] := rfl

end

/-- The calls the command makes are those of the dump, where there is a byte. -/
theorem cmdHexdump_iff (mem : U32 → U8) {argc : Int} {argv : List (List U8)}
    {addr len : U32} (hargc : 3 ≤ argc) (haddr : argv[1]?.bind atoi = some addr)
    (hlen : argv[2]?.bind atoi = some len) :
    cmdHexdump mem argc argv = some (dumpOf mem addr len.toNat, 0) ↔ len ≠ 0 := by
  have hbody : cmdHexdump mem argc argv = (dump mem addr len).map fun out => (out, 0) := by
    rw [cmdHexdump, if_neg (by omega), haddr, hlen]
    cases h : dump mem addr len <;> simp [h]
  rw [hbody]
  constructor
  · rintro h rfl
    rw [dump_zero] at h
    cases h
  · intro hne
    rw [dump_eq hne]
    rfl

/-- `hexdump 1048576 20`, of bytes that count up. -/
theorem cmdHexdump_image :
    (3 : Int) ≤ 3 ∧ cmdHexdump (fun a => a.setWidth 8) 3
        [ascii "hexdump" ++ [0], ascii "1048576" ++ [0], ascii "20" ++ [0]] =
      some (dumpOf (fun a => a.setWidth 8) 0x100000 20, 0) :=
  ⟨by decide, (@cmdHexdump_iff (fun a => a.setWidth 8) 3 _ 0x100000 20 (by decide) rfl rfl).2
    (by decide)⟩

/-- `hexdump 753664 0` prints a column that was never assigned. -/
theorem cmdHexdump_empty :
    cmdHexdump (fun _ => 0x41) 3
        [ascii "hexdump" ++ [0], ascii "753664" ++ [0], ascii "0" ++ [0]] ≠
      some (dumpOf (fun _ => 0x41) 0xb8000 0, 0) := by
  decide

end MicroKernel.Proofs
