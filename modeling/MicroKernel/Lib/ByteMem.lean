import Mathlib.Algebra.Group.Nat.Defs
import Mathlib.Data.List.GetD

/-!
# Byte memory

A memory is a total function from `w`-bit addresses to bytes, so an access
that runs past the top address comes back at address zero, as it does on the
bus. Three notions carry everything built on it: the little-endian number some
bytes spell (`readLE`), the bytes of such a number (`leBytes`), and the
statement that a list of bytes lies in memory from an address on (`Holds`).
`Holds` is the one that composes: it splits along an append, it survives a
store that does not reach it, and a store establishes it.
-/

namespace ByteMem

/-- Memory addressed by `w`-bit words, one byte to a cell. -/
abbrev Mem (w : Nat) := BitVec w → BitVec 8

variable {w : Nat}

/-- The number spelled by the `n` bytes from `a` on, lowest byte first. -/
def readLE (m : Mem w) (a : BitVec w) : Nat → Nat
  | 0 => 0
  | n + 1 => (m a).toNat + 256 * readLE m (a + 1) n

/-- The `n` lowest bytes of `v`, lowest first. -/
def leBytes : Nat → Nat → List (BitVec 8)
  | 0, _ => []
  | n + 1, v => BitVec.ofNat 8 v :: leBytes n (v / 256)

/-- The bytes `bs` lie in memory from `a` on. -/
def Holds (m : Mem w) (a : BitVec w) : List (BitVec 8) → Prop
  | [] => True
  | b :: bs => m a = b ∧ Holds m (a + 1) bs

/-- Store `bs` from `a` on. Where the list is longer than the address space
the first byte to reach a cell wins, which no caller depends on. -/
def write (m : Mem w) (a : BitVec w) (bs : List (BitVec 8)) : Mem w :=
  fun x => bs.getD (x - a).toNat (m x)

@[simp] theorem leBytes_length (n v : Nat) : (leBytes n v).length = n := by
  induction n generalizing v with
  | zero => rfl
  | succ n ih => simp only [leBytes, List.length_cons, ih]

theorem add_one_ofNat (a : BitVec w) (i : Nat) :
    a + 1 + BitVec.ofNat w i = a + BitVec.ofNat w (i + 1) := by
  rw [BitVec.add_assoc, Nat.add_comm i, BitVec.ofNat_add]
  rfl

theorem holds_append {m : Mem w} {a : BitVec w} {bs cs : List (BitVec 8)} :
    Holds m a (bs ++ cs) ↔
      Holds m a bs ∧ Holds m (a + BitVec.ofNat w bs.length) cs := by
  induction bs generalizing a with
  | nil => simp [Holds]
  | cons b bs ih =>
      have hlen : a + 1 + BitVec.ofNat w bs.length =
          a + BitVec.ofNat w (b :: bs).length := add_one_ofNat a bs.length
      simp only [List.cons_append, Holds, ih, hlen, and_assoc]

theorem holds_iff {m : Mem w} {a : BitVec w} {bs : List (BitVec 8)} :
    Holds m a bs ↔ ∀ i (hi : i < bs.length), m (a + BitVec.ofNat w i) = bs[i] := by
  induction bs generalizing a with
  | nil => simp [Holds]
  | cons b bs ih =>
      rw [Holds, ih]
      constructor
      · rintro ⟨h0, hrest⟩ i hi
        cases i with
        | zero => simpa using h0
        | succ i =>
            rw [← add_one_ofNat, List.getElem_cons_succ]
            exact hrest i (by simpa using hi)
      · intro h
        have h0 := h 0 (Nat.succ_pos _)
        rw [List.getElem_cons_zero, BitVec.add_zero] at h0
        refine ⟨h0, fun i hi => ?_⟩
        rw [add_one_ofNat]
        exact h (i + 1) (Nat.succ_lt_succ hi)

theorem readLE_of_holds {m : Mem w} {n v : Nat} {a : BitVec w}
    (h : Holds m a (leBytes n v)) : readLE m a n = v % 256 ^ n := by
  induction n generalizing a v with
  | zero => simp [readLE, Nat.mod_one]
  | succ n ih =>
      obtain ⟨h0, hrest⟩ := h
      rw [readLE, h0, ih hrest, BitVec.toNat_ofNat, Nat.pow_succ 256,
        Nat.mul_comm (256 ^ n), Nat.mod_mul]

/-! ## Stores

A store is described by the distance `(x - a).toNat` of a cell from the start
of the stored range, so a range that wraps needs no separate treatment. -/

theorem write_of_le {m : Mem w} {a x : BitVec w} {bs : List (BitVec 8)}
    (h : bs.length ≤ (x - a).toNat) : write m a bs x = m x := by
  rw [write, List.getD_eq_default _ _ h]

theorem write_at {m : Mem w} {a : BitVec w} {bs : List (BitVec 8)} {i : Nat}
    (hi : i < bs.length) (hw : i < 2 ^ w) :
    write m a bs (a + BitVec.ofNat w i) = bs[i] := by
  have hd : (a + BitVec.ofNat w i - a).toNat = i := by
    rw [BitVec.add_comm, BitVec.add_sub_cancel, BitVec.toNat_ofNat,
      Nat.mod_eq_of_lt hw]
  rw [write, hd, List.getD_eq_getElem _ _ hi]

theorem holds_write {m : Mem w} {a : BitVec w} {bs : List (BitVec 8)}
    (h : bs.length ≤ 2 ^ w) : Holds (write m a bs) a bs :=
  holds_iff.2 fun _ hi => write_at hi (Nat.lt_of_lt_of_le hi h)

/-- Two stores, the second where the first ends. -/
theorem write_append {m : Mem w} {a b : BitVec w} {bs cs : List (BitVec 8)}
    (hb : b = a + BitVec.ofNat w bs.length) (hfit : bs.length + cs.length ≤ 2 ^ w) :
    write (write m a bs) b cs = write m a (bs ++ cs) := by
  funext x
  have hx := (x - a).isLt
  have hdist : (x - b).toNat = (2 ^ w - bs.length % 2 ^ w + (x - a).toNat) % 2 ^ w := by
    rw [hb, ← BitVec.sub_sub, BitVec.toNat_sub, BitVec.toNat_ofNat]
  by_cases hin : (x - a).toNat < bs.length
  · have hpast : cs.length ≤ (x - b).toNat := by
      obtain hlen | hlen := Nat.lt_or_ge bs.length (2 ^ w)
      · rw [hdist, Nat.mod_eq_of_lt hlen, Nat.mod_eq_of_lt (by omega)]
        omega
      · omega
    rw [write_of_le hpast, write, write, List.getD_append _ _ _ _ hin]
  · have hback : (x - b).toNat = (x - a).toNat - bs.length := by
      have hsum : 2 ^ w - bs.length + (x - a).toNat = (x - a).toNat - bs.length + 2 ^ w := by
        omega
      rw [hdist, Nat.mod_eq_of_lt (by omega : bs.length < 2 ^ w), hsum, Nat.add_mod_right,
        Nat.mod_eq_of_lt (by omega)]
    have hle := Nat.le_of_not_lt hin
    rw [write, write_of_le hle, write, hback, List.getD_append_right _ _ _ _ hle]

/-- The bytes `bs` from `a` on and `cs` from `b` on are the same wherever both lie. -/
def Agree (a b : BitVec w) (bs cs : List (BitVec 8)) : Prop :=
  ∀ i j (hi : i < bs.length) (hj : j < cs.length),
    a + BitVec.ofNat w i = b + BitVec.ofNat w j → bs[i] = cs[j]

/-- What a store leaves of held bytes. -/
theorem holds_write_iff {m : Mem w} {a b : BitVec w} {bs cs : List (BitVec 8)}
    (h : Holds m b cs) (hbs : bs.length ≤ 2 ^ w) :
    Holds (write m a bs) b cs ↔ Agree a b bs cs := by
  rw [holds_iff] at h ⊢
  constructor
  · intro hkept i j hi hj haddr
    rw [← hkept j hj, ← haddr, write_at hi (Nat.lt_of_lt_of_le hi hbs)]
  · intro hsame j hj
    by_cases hd : (b + BitVec.ofNat w j - a).toNat < bs.length
    · have haddr : a + BitVec.ofNat w (b + BitVec.ofNat w j - a).toNat =
          b + BitVec.ofNat w j := by
        rw [BitVec.ofNat_toNat, BitVec.setWidth_eq, BitVec.add_comm, BitVec.sub_add_cancel]
      rw [← haddr, write_at hd (Nat.lt_of_lt_of_le hd hbs)]
      exact hsame _ j hd hj haddr
    · rw [write_of_le (Nat.le_of_not_lt hd), h j hj]

/-- A store ends where the held bytes begin, and both fit the address space
together: the bytes are still there. -/
theorem Holds.write_below {m : Mem w} {a b : BitVec w}
    {bs cs : List (BitVec 8)} (h : Holds m b cs)
    (hb : b = a + BitVec.ofNat w bs.length)
    (hfit : bs.length + cs.length ≤ 2 ^ w) : Holds (write m a bs) b cs := by
  rw [holds_iff] at h ⊢
  intro i hi
  rw [write_of_le, h i hi]
  have hd : b + BitVec.ofNat w i - a = BitVec.ofNat w (bs.length + i) := by
    rw [hb, BitVec.ofNat_add, BitVec.add_assoc, BitVec.add_comm a,
      BitVec.add_sub_cancel]
  rw [hd, BitVec.toNat_ofNat, Nat.mod_eq_of_lt (by omega)]
  exact Nat.le_add_right _ _

/-- A store that begins where the held bytes end extends them. -/
theorem Holds.write_after {m : Mem w} {a b : BitVec w}
    {bs cs : List (BitVec 8)} (h : Holds m a bs)
    (hb : b = a + BitVec.ofNat w bs.length)
    (hfit : bs.length + cs.length ≤ 2 ^ w) :
    Holds (write m b cs) a (bs ++ cs) := by
  refine holds_append.2 ⟨?_, hb ▸ holds_write (by omega)⟩
  rw [holds_iff] at h ⊢
  intro i hi
  rw [write_of_le, h i hi]
  have hd : a + BitVec.ofNat w i - b = BitVec.ofNat w (2 ^ w - (bs.length - i)) := by
    rw [BitVec.sub_eq_iff_eq_add, hb, BitVec.add_comm a, BitVec.add_comm a,
      ← BitVec.add_assoc, ← BitVec.ofNat_add]
    congr 1
    have hw : 2 ^ w - (bs.length - i) + bs.length = i + 2 ^ w := by omega
    apply BitVec.eq_of_toNat_eq
    rw [hw, BitVec.toNat_ofNat, BitVec.toNat_ofNat, Nat.add_mod_right]
  rw [hd, BitVec.toNat_ofNat, Nat.mod_eq_of_lt (by omega)]
  omega

/-- A store inside held bytes takes the place of some of them. -/
theorem Holds.splice {m : Mem w} {a b : BitVec w} (bs cs es ds : List (BitVec 8))
    (h : Holds m a (bs ++ cs ++ ds)) (hb : b = a + BitVec.ofNat w bs.length)
    (hlen : es.length = cs.length) (hfit : bs.length + cs.length + ds.length ≤ 2 ^ w) :
    Holds (write m b es) a (bs ++ es ++ ds) := by
  obtain ⟨hfront, hback⟩ := holds_append.1 h
  obtain ⟨hbs, -⟩ := holds_append.1 hfront
  refine holds_append.2 ⟨hbs.write_after hb (by omega), ?_⟩
  rw [List.length_append, ← hlen, ← List.length_append] at hback
  refine hback.write_below ?_ (by omega)
  rw [hb, List.length_append, BitVec.ofNat_add, BitVec.add_assoc]

/-- Two memories that agree on a range hold the same bytes there. -/
theorem Holds.congr {m m' : Mem w} {a : BitVec w} {bs : List (BitVec 8)}
    (h : Holds m a bs)
    (heq : ∀ i, i < bs.length →
      m' (a + BitVec.ofNat w i) = m (a + BitVec.ofNat w i)) :
    Holds m' a bs := by
  rw [holds_iff] at h ⊢
  intro i hi
  rw [heq i hi, h i hi]

end ByteMem
