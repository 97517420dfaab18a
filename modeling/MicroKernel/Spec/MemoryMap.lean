import Mathlib.Data.List.MinMax
import MicroKernel.Kernel.Multiboot

/-!
# What a memory map is

The loader's memory map, before any code reads it: a list of entries, each
with a size field that counts the bytes after it, laid end to end in memory.
`MapEntry` carries the one well-formedness condition the format has, so an
entry whose size field lies cannot be written down, and `LaidOut` says that a
range of memory is exactly the concatenation of some entries.

The region an allocator wants from a map is the first of the largest usable
ones. That is Mathlib's `argmax` on the usable entries, and it names no code.
-/

namespace MicroKernel.Spec

open MicroKernel.Kernel

/-- An entry as the loader writes it. `rest` is whatever follows the four
fields the format defines. -/
structure MapEntry where
  size : U32
  baseAddr : U64
  length : U64
  type : U32
  rest : List U8
  size_eq : size.toNat = 20 + rest.length

def MapEntry.bytes (e : MapEntry) : List U8 :=
  bytes32 e.size ++ (bytes64 e.baseAddr ++ (bytes64 e.length ++
    (bytes32 e.type ++ e.rest)))

/-- The four defined fields, which is what a reader of the map sees. -/
def MapEntry.header (e : MapEntry) : MemoryMap :=
  ⟨e.size, e.baseAddr, e.length, e.type⟩

def MapEntry.usable (e : MapEntry) : Bool := e.type = 1 ∧ e.length ≠ 0

def mapBytes (es : List MapEntry) : List U8 := es.flatMap MapEntry.bytes

def entryAddrs : U32 → List MapEntry → List U32
  | _, [] => []
  | a, e :: es => a :: entryAddrs (a + (e.size + 4)) es

/-- The range the information record describes is exactly the map `es`, and
its end does not wrap past the top address. -/
structure LaidOut (m : PhysMem) (mbd : MultibootInfo)
    (es : List MapEntry) : Prop where
  held : ByteMem.Holds m mbd.mmapAddr (mapBytes es)
  length_eq : (mapBytes es).length = mbd.mmapLength.toNat
  noWrap : mbd.mmapAddr.toNat + mbd.mmapLength.toNat < 2 ^ 32

/-- The first of the longest usable entries. -/
def largest (es : List MapEntry) : Option MapEntry :=
  (es.filter MapEntry.usable).argmax fun e => e.length.toNat

/-- Base and length of the chosen entry, or two zeros when there is none. -/
def bestRegion : Option MapEntry → U64 × U64
  | none => (0, 0)
  | some e => (e.baseAddr, e.length)

/-- The end of the chosen region, in the 32 bits the kernel keeps of it. -/
def regionEnd (es : List MapEntry) : Nat :=
  ((bestRegion (largest es)).1.toNat + (bestRegion (largest es)).2.toNat) %
    2 ^ 32

/-- The first page frame at or after the kernel's end, again modulo `2 ^ 32`:
a kernel that ends in the last page has none, and the value is zero. -/
def firstPage (kernelEnd : Nat) : Nat :=
  (kernelEnd + 4095) / 4096 * 4096 % 2 ^ 32

/-- The page frame at `q` lies inside one usable entry, as integers. -/
def UsablePage (es : List MapEntry) (q : Nat) : Prop :=
  ∃ e ∈ es, e.type = 1 ∧ e.baseAddr.toNat ≤ q ∧
    q + 4096 ≤ e.baseAddr.toNat + e.length.toNat

/-- A pair is the first region of greatest length: no usable entry before it
is as long and none after it is longer. With no usable entry at all it is the
pair of zeros. -/
inductive FirstLargest (es : List MapEntry) : U64 × U64 → Prop
  | found (pre : List MapEntry) (e : MapEntry) (post : List MapEntry) :
      es = pre ++ e :: post → e.usable = true →
      (∀ x ∈ pre, x.usable = true → x.length < e.length) →
      (∀ x ∈ post, x.usable = true → x.length ≤ e.length) →
      FirstLargest es (e.baseAddr, e.length)
  | absent : (∀ e ∈ es, ¬ e.usable = true) → FirstLargest es (0, 0)

/-! ## Chains of records

What a walk needs of memory it cannot trust: wherever it stands, the 24 bytes
of a header fit below the end, and the stride, the size field plus four modulo
`2 ^ 32`, takes it strictly forward without passing the top address. The size
fields need not describe anything. -/

def stride (m : PhysMem) (c : Nat) : Nat :=
  (m.read32 (BitVec.ofNat 32 c) + 4).toNat

/-- The records from `c` on form a finite chain that reaches `stop`. -/
inductive Chained (m : PhysMem) (stop : Nat) : Nat → Prop
  | done {c : Nat} : stop ≤ c → Chained m stop c
  | record {c : Nat} : c + 24 ≤ stop → 0 < stride m c →
      c + stride m c < 2 ^ 32 → Chained m stop (c + stride m c) →
      Chained m stop c

theorem MapEntry.usable_iff {e : MapEntry} :
    e.usable = true ↔ e.type = 1 ∧ e.length ≠ 0 := by
  rw [usable, decide_eq_true_eq]

@[simp] theorem MapEntry.bytes_length (e : MapEntry) :
    e.bytes.length = e.size.toNat + 4 := by
  have := e.size_eq
  simp only [MapEntry.bytes, List.length_append, bytes32_length, bytes64_length]
  omega

@[simp] theorem mapBytes_cons (e : MapEntry) (es : List MapEntry) :
    mapBytes (e :: es) = e.bytes ++ mapBytes es := by
  rw [mapBytes, List.flatMap_cons, mapBytes]

theorem load_of_holds {m : PhysMem} {p : U32} {e : MapEntry}
    (h : ByteMem.Holds m p e.bytes) : MemoryMap.load m p = e.header := by
  obtain ⟨hsize, h⟩ := ByteMem.holds_append.1 h
  obtain ⟨hbase, h⟩ := ByteMem.holds_append.1 h
  obtain ⟨hlen, h⟩ := ByteMem.holds_append.1 h
  obtain ⟨htype, -⟩ := ByteMem.holds_append.1 h
  simp only [bytes32_length, bytes64_length, BitVec.add_assoc] at hbase hlen htype
  have h4 : m.read64 (p + 4) = e.baseAddr := read64_of_holds hbase
  have h12 : m.read64 (p + 12) = e.length := read64_of_holds hlen
  have h20 : m.read32 (p + 20) = e.type := read32_of_holds htype
  rw [MemoryMap.load, MapEntry.header, read32_of_holds hsize, h4, h12, h20]

/-! ## The choice, one entry at a time -/

/-- One step of the choice: an unusable entry is passed over, a usable one
replaces a shorter one. -/
def choose (o : Option MapEntry) (e : MapEntry) : Option MapEntry :=
  if e.usable then
    List.argAux (fun b c : MapEntry => c.length.toNat < b.length.toNat) o e
  else o

theorem largest_eq_foldl (es : List MapEntry) :
    largest es = es.foldl choose none := by
  rw [largest, List.argmax, List.foldl_filter]
  rfl

theorem largest_concat (es : List MapEntry) (e : MapEntry) :
    largest (es ++ [e]) = choose (largest es) e := by
  rw [largest_eq_foldl, largest_eq_foldl, List.foldl_append]
  rfl

theorem choose_unusable {o : Option MapEntry} {e : MapEntry}
    (h : ¬ e.usable = true) : choose o e = o := if_neg h

theorem choose_usable {o : Option MapEntry} {e : MapEntry}
    (h : e.usable = true) : choose o e =
      if (bestRegion o).2.toNat < e.length.toNat then some e else o := by
  rw [choose, if_pos h]
  cases o with
  | none =>
      have hne := (MapEntry.usable_iff.1 h).2
      have hpos : 0 < e.length.toNat :=
        Nat.pos_of_ne_zero fun hz => hne (BitVec.eq_of_toNat_eq hz)
      exact (if_pos hpos).symm
  | some c => rfl

/-- An entry that is not longer goes behind the choice. -/
theorem FirstLargest.pass {es : List MapEntry} {b : U64 × U64}
    (h : FirstLargest es b) {e : MapEntry}
    (he : e.usable = true → e.length ≤ b.2) : FirstLargest (es ++ [e]) b := by
  cases h with
  | found pre c post hes hc hpre hpost =>
      refine .found pre c (post ++ [e]) (by simp [hes]) hc hpre ?_
      intro x hx hux
      rcases List.mem_append.1 hx with hx | hx
      · exact hpost x hx hux
      · obtain rfl := List.mem_singleton.1 hx
        exact he hux
  | absent hnone =>
      refine .absent fun x hx hux => ?_
      rcases List.mem_append.1 hx with hx | hx
      · exact hnone x hx hux
      · obtain rfl := List.mem_singleton.1 hx
        -- not longer than zero, so not usable after all
        have hzero : x.length = 0 := BitVec.le_zero_iff.1 (he hux)
        exact (MapEntry.usable_iff.1 hux).2 hzero

/-- A longer one is longer than every entry before it. -/
theorem FirstLargest.replace {es : List MapEntry} {b : U64 × U64}
    (h : FirstLargest es b) {e : MapEntry} (husable : e.usable = true)
    (hlt : b.2 < e.length) : FirstLargest (es ++ [e]) (e.baseAddr, e.length) := by
  refine .found es e [] rfl husable (fun x hx hux => ?_) (by simp)
  cases h with
  | found pre c post hes hc hpre hpost =>
      have hle : x.length ≤ c.length := by
        rw [hes, List.mem_append, List.mem_cons] at hx
        rcases hx with hx | rfl | hx
        · exact BitVec.le_of_lt (hpre x hx hux)
        · exact BitVec.le_refl _
        · exact hpost x hx hux
      exact BitVec.lt_def.2 (Nat.lt_of_le_of_lt (BitVec.le_def.1 hle) hlt)
  | absent hnone => exact absurd hux (hnone x hx)

/-- The choice is the first region of greatest length. The induction is from
the end of the map, where one more entry is one more comparison. -/
theorem firstLargest_largest (es : List MapEntry) :
    FirstLargest es (bestRegion (largest es)) := by
  induction es using List.reverseRecOn with
  | nil => exact .absent (by simp)
  | append_singleton es e ih =>
      rw [largest_concat]
      by_cases husable : e.usable = true
      · rw [choose_usable husable]
        split
        · next hlt => exact ih.replace husable (BitVec.lt_def.2 hlt)
        · next hle =>
            exact ih.pass fun _ => BitVec.le_def.2 (Nat.le_of_not_lt hle)
      · rw [choose_unusable husable]
        exact ih.pass fun h => absurd h husable

/-! ## Maps the loader can leave

Any list of entries that fits below the top address is laid out by storing it,
so the hypotheses above exclude no map. -/

def plainEntry (baseAddr length : U64) (type : U32) : MapEntry :=
  ⟨20, baseAddr, length, type, [], rfl⟩

/-- Memory with the map `es` at `a` and zeros elsewhere. -/
def storedMap (a : U32) (es : List MapEntry) : PhysMem :=
  ByteMem.write (fun _ => 0) a (mapBytes es)

/-- The information record that points at it. -/
def infoOf (a : U32) (es : List MapEntry) : MultibootInfo :=
  ⟨mbootFlagMmap, BitVec.ofNat 32 (mapBytes es).length, a⟩

theorem laidOut_storedMap {a : U32} {es : List MapEntry}
    (h : a.toNat + (mapBytes es).length < 2 ^ 32) :
    LaidOut (storedMap a es) (infoOf a es) es where
  held := ByteMem.holds_write (by omega)
  length_eq := by
    rw [infoOf, BitVec.toNat_ofNat, Nat.mod_eq_of_lt (by omega)]
  noWrap := by
    rw [infoOf, BitVec.toNat_ofNat, Nat.mod_eq_of_lt (by omega)]
    exact h

end MicroKernel.Spec
