import MicroKernel.Core.Detect
import MicroKernel.Machine.Calls

/-!
# Asking for the memory map

`detect_memory` is followed over the replies of the BIOS. A reply is counted
where the loop goes on, or where it stops because the table is full; the entry
of the last reply is stored like the others, but the loop leaves before it is
counted. The status is put into EAX before `popa`, which puts the caller's EAX
over it.
-/

namespace MicroKernel.Proofs

open ByteMem X86 MicroKernel.Core

/-! ## What the BIOS says -/

/-- The carry flag is set, or the signature is not there. -/
def Reply.Bad (r : Reply) : Prop := flag r.eflags 0 = true ∨ r.eax ≠ smap

/-- The entry is counted. -/
def Reply.Counted (r : Reply) : Prop := ¬ Reply.Bad r ∧ r.ebx ≠ 0

instance (r : Reply) : Decidable (Reply.Bad r) := inferInstanceAs (Decidable (_ ∨ _))

instance (r : Reply) : Decidable (Reply.Counted r) := inferInstanceAs (Decidable (_ ∧ _))

/-- After `i` entries the loop asks for these replies and no more, and ends well
or badly. -/
inductive Served : Nat → List Reply → Bool → Prop where
  | bad {i : Nat} {r : Reply} (h : Reply.Bad r) : Served i [r] false
  | last {i : Nat} {r : Reply} (h : ¬ Reply.Bad r) (hz : r.ebx = 0) : Served i [r] true
  | full {i : Nat} {r : Reply} (h : Reply.Counted r) (hi : i + 1 = e820MaxEntries) :
      Served i [r] true
  | more {i : Nat} {r : Reply} {replies : List Reply} {b : Bool} (h : Reply.Counted r)
      (hi : i + 1 ≠ e820MaxEntries) (hrest : Served (i + 1) replies b) :
      Served i (r :: replies) b

theorem Served.status {i : Nat} {replies : List Reply} {b : Bool} (h : Served i replies b) :
    b = false ↔ ∃ r ∈ replies, Reply.Bad r := by
  induction h with
  | bad h => exact iff_of_true rfl ⟨_, List.mem_singleton_self _, h⟩
  | last h hz | full h hi =>
      refine iff_of_false Bool.noConfusion ?_
      rintro ⟨r, hr, hbad⟩
      rw [List.mem_singleton] at hr
      subst hr
      first | exact h hbad | exact h.1 hbad
  | more h hi hrest ih =>
      rw [ih]
      constructor
      · rintro ⟨r, hr, hbad⟩
        exact ⟨r, List.mem_cons_of_mem _ hr, hbad⟩
      · rintro ⟨r, hr, hbad⟩
        obtain rfl | hr := List.mem_cons.1 hr
        · exact absurd hbad h.1
        · exact ⟨r, hr, hbad⟩

section
variable {e820Map : U32}

/-! ## Where things are -/

def recordAddr (e820Map : U32) (i : Nat) : U32 := e820Map + BitVec.ofNat 32 (20 * i)

/-- The bytes of the map. -/
def InMap (e820Map : U32) (a : U32) : Prop :=
  Within e820Map.toNat (e820Map.toNat + 20 * 128) a

/-- What the routine stores to: the map, the counter, and `n` bytes of stack. -/
def DetectRegion (e820Map sp : U32) (n : Nat) (a : U32) : Prop :=
  Within e820Map.toNat (e820Map.toNat + (20 * 128 + 4)) a ∨
    Within (sp.toNat - n) sp.toNat a

/-- The map and its counter are in memory, and apart from the stack. -/
structure MapPlaced (e820Map sp : U32) (n : Nat) : Prop extends Room sp n where
  fits : e820Map.toNat + (20 * 128 + 4) ≤ 2 ^ 32
  apart : sp.toNat + 4 ≤ e820Map.toNat ∨ e820Map.toNat + (20 * 128 + 4) ≤ sp.toNat - n

theorem recordAddr_toNat {sp : U32} {n i : Nat} (h : MapPlaced e820Map sp n) (hi : i < 128) :
    (recordAddr e820Map i).toNat = e820Map.toNat + 20 * i :=
  offset_toNat (n := 20 * 128 + 4) (by omega) h.fits

theorem e820MapCount_toNat {sp : U32} {n : Nat} (h : MapPlaced e820Map sp n) :
    (e820MapCount e820Map).toNat = e820Map.toNat + 20 * 128 :=
  offset_toNat (i := 20 * 128) (n := 20 * 128 + 4) (by decide) h.fits

/-- `n` bytes from `a` on, as a store logs them. -/
def bytesFrom (a : U32) (n : Nat) : List U32 := (List.range n).map fun k => a + BitVec.ofNat 32 k

/-- What the loop stores for the replies after `i` others: each entry at its
place, and the counter. -/
def detectLog (e820Map : U32) : Nat → List Reply → List U32
  | _, [] => []
  | i, r :: replies =>
      bytesFrom (recordAddr e820Map i) r.entry.length ++
        (if Reply.Counted r then bytesFrom (e820MapCount e820Map) 4 else []) ++
        detectLog e820Map (i + 1) replies

theorem detectLog_append (i : Nat) (pre replies : List Reply) :
    detectLog e820Map i (pre ++ replies) =
      detectLog e820Map i pre ++ detectLog e820Map (i + pre.length) replies := by
  induction pre generalizing i with
  | nil => rfl
  | cons r pre ih =>
      have hnext : i + 1 + pre.length = i + (r :: pre).length := by
        rw [List.length_cons]
        omega
      rw [List.cons_append, detectLog, detectLog, ih, hnext]
      simp only [List.append_assoc]

/-! ## One call -/

section
variable {s : Sys} {r : Reply}

/-- What the replies have left, in a routine entered in `s`. -/
structure Gathered (e820Map : U32) (s : Sys) (replies : List Reply) (u : Sys) : Prop where
  esp : u.esp = (pushad s.toCpu).esp
  count : u.mem.read32 (e820MapCount e820Map) =
    BitVec.ofNat 32 (replies.countP fun r => Reply.Counted r)
  records : ∀ j (hj : j < replies.length),
    Holds u.mem (recordAddr e820Map j) (replies.get ⟨j, hj⟩).entry
  touches : Touches (DetectRegion e820Map (pushad s.toCpu).esp 4) (pushad s.toCpu).mem u.mem
  stored : u.stored = s.stored ++ bytesFrom (e820MapCount e820Map) 4 ++
    detectLog e820Map 0 replies

/-- At the top of the loop. -/
structure Asking (e820Map : U32) (s : Sys) (pre : List Reply) (u : Sys) : Prop
    extends Gathered e820Map s pre u where
  counted : ∀ r ∈ pre, Reply.Counted r
  edi : u.edi = recordAddr e820Map pre.length

/-- EDI is saved over the call. -/
theorem ask_spec {u : Sys} {n : Nat} (hp : MapPlaced e820Map u.esp (n + 4)) {i : Nat}
    (hi : i < 128) (hedi : u.edi = recordAddr e820Map i) (hsize : r.entry.length ≤ 20) :
    ∃ v, run [cpu (movImm .eax 0xE820), cpu (movImm .edx smap), cpu (movImm .ecx 20),
        cpu (push .edi), int15 r, cpu (pop .edi)] u = v ∧
      v.esp = u.esp ∧ v.edi = u.edi ∧ v.eax = r.eax ∧ v.ebx = r.ebx ∧ v.eflags = r.eflags ∧
      (∃ m, v.mem = ByteMem.write m (recordAddr e820Map i) r.entry ∧
        Touches (Within (u.esp.toNat - 4) u.esp.toNat) u.mem m) ∧
      v.stored = u.stored ++ bytesFrom (recordAddr e820Map i) r.entry.length := by
  have hpush : Touches (Within (u.esp.toNat - 4) u.esp.toNat) u.mem
      (cpu (pushVal u.edi) u).mem :=
    touches_pushDwords rfl (Nat.le_trans (Nat.le_add_left 4 n) hp.below)
  have htop := pushVal_read u.edi u
  have hdown : (cpu (pushVal u.edi) u).esp = u.esp - BitVec.ofNat 32 4 := rfl
  have haddr := recordAddr_toNat hp hi
  obtain ⟨-, hsp⟩ := hp.toRoom.sub (Nat.le_refl 4)
  have hwrite : Touches (Within (recordAddr e820Map i).toNat
      ((recordAddr e820Map i).toNat + r.entry.length)) (cpu (pushVal u.edi) u).mem
      (ByteMem.write (cpu (pushVal u.edi) u).mem (recordAddr e820Map i) r.entry) :=
    touches_write (by have := hp.fits; omega)
  have hback : PhysMem.read32
      (ByteMem.write (cpu (pushVal u.edi) u).mem (recordAddr e820Map i) r.entry)
      (cpu (pushVal u.edi) u).esp = u.edi := by
    refine (read32_touches hwrite ?_ fun x hx hin => ?_).trans htop
    · rw [hdown, hsp]
      have := hp.above
      have := hp.below
      omega
    · rw [hdown, Within, hsp] at hx
      rw [Within] at hin
      have := hp.apart
      have := hp.below
      omega
  rw [← hedi] at hback ⊢
  refine ⟨_, rfl, ?_, hback, rfl, rfl, rfl, ⟨_, rfl, hpush⟩, rfl⟩
  exact BitVec.sub_add_cancel u.esp 4

/-- What a call may change, after `i` entries. -/
def EntryRegion (e820Map sp : U32) (i : Nat) (a : U32) : Prop :=
  Within (e820Map.toNat + 20 * i) (e820Map.toNat + 20 * i + 20) a ∨
    Within (sp.toNat - 4) sp.toNat a

theorem detectRegion_of_entry {sp : U32} {i : Nat} (hi : i < 128) {a : U32}
    (h : EntryRegion e820Map sp i a) : DetectRegion e820Map sp 4 a := by
  rw [EntryRegion, Within, Within] at h
  rw [DetectRegion, Within, Within]
  omega

theorem count_of_entry {sp : U32} {i : Nat} {m m' : PhysMem} (hp : MapPlaced e820Map sp 4)
    (hi : i < 128) (h : Touches (EntryRegion e820Map sp i) m m') :
    m'.read32 (e820MapCount e820Map) = m.read32 (e820MapCount e820Map) := by
  have hcount := e820MapCount_toNat hp
  have hfits := hp.fits
  have hapart := hp.apart
  refine read32_touches h (by omega) fun x hx hin => ?_
  rw [Within, hcount] at hx
  rw [EntryRegion, Within, Within] at hin
  omega

/-- The entry of one more reply, at its place after the others. -/
theorem Gathered.entry {pre : List Reply} {u v : Sys} (hp : MapPlaced e820Map u.esp 4)
    (h : Gathered e820Map s pre u) (hi : pre.length < 128) (hsize : r.entry.length ≤ 20)
    (hold : ∀ q ∈ pre, q.entry.length ≤ 20)
    (hmem : ∃ m, v.mem = ByteMem.write m (recordAddr e820Map pre.length) r.entry ∧
      Touches (Within (u.esp.toNat - 4) u.esp.toNat) u.mem m) :
    Touches (EntryRegion e820Map u.esp pre.length) u.mem v.mem ∧
      ∀ j (hj : j < (pre ++ [r]).length),
        Holds v.mem (recordAddr e820Map j) ((pre ++ [r]).get ⟨j, hj⟩).entry := by
  obtain ⟨m, hv, hm⟩ := hmem
  have haddr := recordAddr_toNat hp hi
  have hfits := hp.fits
  have hapart := hp.apart
  have htouch : Touches (EntryRegion e820Map u.esp pre.length) u.mem v.mem := by
    rw [hv]
    refine (hm.mono fun x hx => Or.inr hx).write (by omega) fun x hx => Or.inl ?_
    rw [Within] at hx ⊢
    omega
  refine ⟨htouch, fun j hj => ?_⟩
  obtain hlt | rfl : j < pre.length ∨ j = pre.length := by
    rw [List.length_append, List.length_singleton] at hj
    omega
  · have hget : (pre ++ [r]).get ⟨j, hj⟩ = pre.get ⟨j, hlt⟩ := List.getElem_append_left hlt
    have hlen := hold _ (List.get_mem pre ⟨j, hlt⟩)
    have hj' := recordAddr_toNat hp (i := j) (by omega)
    rw [hget]
    refine (h.records j hlt).touches htouch (by omega) fun x hx hin => ?_
    rw [Within] at hx
    rw [EntryRegion, Within, Within] at hin
    omega
  · have hget : (pre ++ [r]).get ⟨pre.length, hj⟩ = r := by
      rw [List.get_eq_getElem, List.getElem_append_right (Nat.le_refl _)]
      simp
    rw [hget, hv]
    exact holds_write (by omega)

/-- An entry that is not counted. -/
theorem Asking.stopped {pre : List Reply} {u v : Sys} (hp : MapPlaced e820Map u.esp 4)
    (h : Asking e820Map s pre u) (hi : pre.length < 128) (hsize : r.entry.length ≤ 20)
    (hold : ∀ q ∈ pre, q.entry.length ≤ 20) (hesp : v.esp = u.esp)
    (hmem : ∃ m, v.mem = ByteMem.write m (recordAddr e820Map pre.length) r.entry ∧
      Touches (Within (u.esp.toNat - 4) u.esp.toNat) u.mem m)
    (hstored : v.stored = u.stored ++ bytesFrom (recordAddr e820Map pre.length) r.entry.length)
    (hr : ¬ Reply.Counted r) : Gathered e820Map s (pre ++ [r]) v := by
  obtain ⟨htouch, hrecords⟩ := h.toGathered.entry hp hi hsize hold hmem
  have hcountP : (pre ++ [r]).countP (fun r => Reply.Counted r) =
      pre.countP fun r => Reply.Counted r := by
    rw [List.countP_append, List.countP_singleton, decide_eq_false hr, if_neg Bool.false_ne_true,
      Nat.add_zero]
  refine ⟨hesp.trans h.esp, ?_, hrecords, ?_, ?_⟩
  · rw [count_of_entry hp hi htouch, hcountP, h.count]
  · rw [h.esp] at htouch
    exact h.touches.trans (htouch.mono fun _ => detectRegion_of_entry hi)
  · rw [hstored, h.stored, detectLog_append, Nat.zero_add, detectLog, if_neg hr, detectLog,
      List.append_nil, List.append_nil]
    simp only [List.append_assoc]

theorem countP_counted {replies : List Reply} (h : ∀ r ∈ replies, Reply.Counted r) :
    (replies.countP fun r => Reply.Counted r) = replies.length :=
  List.countP_eq_length.2 fun r hr => decide_eq_true (h r hr)

/-- A store to the counter, after the map. -/
theorem touches_count {sp : U32} {n : Nat} {m : PhysMem} (hp : MapPlaced e820Map sp n)
    (c : U32) :
    Touches (Within (e820Map.toNat + 20 * 128) (e820Map.toNat + (20 * 128 + 4))) m
      (ByteMem.write m (e820MapCount e820Map) (bytes32 c)) := by
  have hcount := e820MapCount_toNat hp
  have hfits := hp.fits
  have hone := touches_write (m := m) (a := e820MapCount e820Map) (b := bytes32 c)
    (by rw [bytes32_length]; omega)
  rwa [bytes32_length, hcount] at hone

theorem countEntry_regs (e820Map : U32) (v : Sys) :
    ∃ w, run [cpu (add .edi 20), incMem (e820MapCount e820Map),
        cmpMem (e820MapCount e820Map) (BitVec.ofNat 32 e820MaxEntries)] v = w ∧
      w.esp = v.esp ∧ w.edi = v.edi + 20 ∧
      w.mem = ByteMem.write v.mem (e820MapCount e820Map)
        (bytes32 (v.mem.read32 (e820MapCount e820Map) + 1)) ∧
      w.stored = v.stored ++ bytesFrom (e820MapCount e820Map) 4 ∧
      w.zf = decide (w.mem.read32 (e820MapCount e820Map) =
        BitVec.ofNat 32 e820MaxEntries) := by
  obtain ⟨⟨⟩⟩ := v
  exact ⟨_, rfl, rfl, rfl, rfl, rfl, zf_cmpFlags ..⟩

/-- An entry that is counted, and the comparison of the counter. -/
theorem Asking.advanced {pre : List Reply} {u v : Sys} (hp : MapPlaced e820Map u.esp 4)
    (h : Asking e820Map s pre u) (hi : pre.length < 128) (hsize : r.entry.length ≤ 20)
    (hold : ∀ q ∈ pre, q.entry.length ≤ 20) (hesp : v.esp = u.esp) (hedi : v.edi = u.edi)
    (hmem : ∃ m, v.mem = ByteMem.write m (recordAddr e820Map pre.length) r.entry ∧
      Touches (Within (u.esp.toNat - 4) u.esp.toNat) u.mem m)
    (hstored : v.stored = u.stored ++ bytesFrom (recordAddr e820Map pre.length) r.entry.length)
    (hr : Reply.Counted r) :
    ∃ w, run [cpu (add .edi 20), incMem (e820MapCount e820Map),
        cmpMem (e820MapCount e820Map) (BitVec.ofNat 32 e820MaxEntries)] v = w ∧
      Asking e820Map s (pre ++ [r]) w ∧ w.zf = decide (pre.length + 1 = e820MaxEntries) := by
  obtain ⟨htouch, hrecords⟩ := h.toGathered.entry hp hi hsize hold hmem
  have hcounted : ∀ q ∈ pre ++ [r], Reply.Counted q :=
    List.forall_mem_append.2 ⟨h.counted, List.forall_mem_singleton.2 hr⟩
  have hsizes : ∀ q ∈ pre ++ [r], q.entry.length ≤ 20 :=
    List.forall_mem_append.2 ⟨hold, List.forall_mem_singleton.2 hsize⟩
  have hlen : (pre ++ [r]).length = pre.length + 1 := List.length_append
  have hval : v.mem.read32 (e820MapCount e820Map) + 1 = BitVec.ofNat 32 (pre.length + 1) := by
    rw [count_of_entry hp hi htouch, h.count, countP_counted h.counted, BitVec.ofNat_add]
    rfl
  have hfits := hp.fits
  have hread := read32_write v.mem (e820MapCount e820Map) (BitVec.ofNat 32 (pre.length + 1))
  have hwrite := touches_count (m := v.mem) hp (BitVec.ofNat 32 (pre.length + 1))
  obtain ⟨w, hw, hwesp, hwedi, hwmem, hwstored, hzf⟩ := countEntry_regs e820Map v
  rw [hval] at hwmem
  refine ⟨w, hw, ⟨⟨(hwesp.trans hesp).trans h.esp, ?_, ?_, ?_, ?_⟩, hcounted, ?_⟩, ?_⟩
  · rw [hwmem, countP_counted hcounted, hlen]
    exact hread
  · intro j hj
    rw [hwmem]
    have hj' : j < 128 := by omega
    have haddr := recordAddr_toNat hp hj'
    have hsize' := hsizes _ (List.get_mem (pre ++ [r]) ⟨j, hj⟩)
    refine (hrecords j hj).touches hwrite (by omega) fun x hx hin => ?_
    rw [Within] at hx hin
    omega
  · rw [h.esp] at htouch
    rw [hwmem]
    refine (h.touches.trans (htouch.mono fun _ => detectRegion_of_entry hi)).trans
      (hwrite.mono fun x hx => Or.inl ?_)
    rw [Within] at hx ⊢
    omega
  · rw [hwstored, hstored, h.stored, detectLog_append, Nat.zero_add, detectLog, if_pos hr,
      detectLog, List.append_nil]
    simp only [List.append_assoc]
  · rw [hwedi, hedi, h.edi, hlen, recordAddr, recordAddr, Nat.mul_succ, BitVec.ofNat_add,
      BitVec.add_assoc]
    rfl
  · rw [hzf, hwmem, hread, decide_eq_decide]
    exact ofNat_inj_iff (by omega) (by decide)

/-! ## The loop -/

theorem Gathered.plain {replies : List Reply} {v w : Sys} (h : Gathered e820Map s replies v)
    (hw : Plain v w) : Gathered e820Map s replies w :=
  ⟨hw.esp.trans h.esp, hw.mem ▸ h.count, hw.mem ▸ h.records, hw.mem ▸ h.touches,
    hw.stored.trans h.stored⟩

/-- One round. -/
theorem detectLoop_round {pre : List Reply} (replies : List Reply) {u : Sys}
    (hp : MapPlaced e820Map u.esp 4) (h : Asking e820Map s pre u) (hi : pre.length < 128)
    (hsize : r.entry.length ≤ 20) (hold : ∀ q ∈ pre, q.entry.length ≤ 20) :
    (Reply.Bad r → ∃ v, detectLoop e820Map (r :: replies) u = some (run (detectExit 0) v) ∧
      Gathered e820Map s (pre ++ [r]) v) ∧
    (¬ Reply.Bad r → r.ebx = 0 →
      ∃ v, detectLoop e820Map (r :: replies) u = some (run (detectExit 1) v) ∧
        Gathered e820Map s (pre ++ [r]) v) ∧
    (Reply.Counted r → ∃ w, Asking e820Map s (pre ++ [r]) w ∧
      detectLoop e820Map (r :: replies) u =
        if pre.length + 1 = e820MaxEntries then some (run (detectExit 1) w)
        else detectLoop e820Map replies w) := by
  obtain ⟨v, hv, hesp, hedi, heax, hebx, hflags, hmem, hstored⟩ :=
    ask_spec (n := 0) hp hi h.edi hsize
  have hcf : v.cf = flag r.eflags 0 := congrArg (flag · 0) hflags
  have hcmp : Plain v (cmpImm .eax smap v) := plain_cmpImm smap v
  have hzf : (cmpImm .eax smap v).zf = decide (r.eax = smap) := heax ▸ zf_cmpFlags ..
  have hkept : (cmpImm .eax smap v).edi = v.edi ∧ (cmpImm .eax smap v).ebx = v.ebx := ⟨rfl, rfl⟩
  have hcode : detectLoop e820Map (r :: replies) u =
      if v.cf then some (run (detectExit 0) v)
      else if !(cmpImm .eax smap v).zf then some (run (detectExit 0) (cmpImm .eax smap v))
      else if (testSelf .ebx (cmpImm .eax smap v)).zf then
        some (run (detectExit 1) (testSelf .ebx (cmpImm .eax smap v)))
      else
        let w := run [cpu (add .edi 20), incMem (e820MapCount e820Map),
          cmpMem (e820MapCount e820Map) (BitVec.ofNat 32 e820MaxEntries)]
          (testSelf .ebx (cmpImm .eax smap v))
        if w.zf then some (run (detectExit 1) w) else detectLoop e820Map replies w := by
    rw [detectLoop, hv]
  rw [hcode, hcf, hzf]
  generalize cmpImm .eax smap v = x at *
  have htest : Plain x (testSelf .ebx x) := plain_testSelf x
  have hzf' : (testSelf .ebx x).zf = decide (x.ebx = 0) := zf_logicFlags ..
  have hkept' : (testSelf .ebx x).edi = x.edi := rfl
  rw [hkept.2, hebx] at hzf'
  generalize testSelf .ebx x = y at *
  have hvy := hcmp.trans htest
  refine ⟨fun hbad => ?_, fun hgood hzero => ?_, fun hcounted => ?_⟩
  · have hr : ¬ Reply.Counted r := fun hc => hc.1 hbad
    have hend := h.stopped hp hi hsize hold hesp hmem hstored hr
    obtain hcarry | hsign := hbad
    · exact ⟨v, if_pos hcarry, hend⟩
    · by_cases hcarry : flag r.eflags 0 = true
      · exact ⟨v, if_pos hcarry, hend⟩
      · refine ⟨x, ?_, hend.plain hcmp⟩
        rw [if_neg hcarry, decide_eq_false hsign]
        rfl
  · have hr : ¬ Reply.Counted r := fun hc => hc.2 hzero
    have hend := h.stopped hp hi hsize hold hesp hmem hstored hr
    refine ⟨y, ?_, hend.plain hvy⟩
    rw [if_neg fun hcarry => hgood (Or.inl hcarry),
      decide_eq_true (Decidable.of_not_not fun hsign => hgood (Or.inr hsign)), hzf',
      decide_eq_true hzero]
    rfl
  · obtain ⟨hgood, hmore⟩ := hcounted
    obtain ⟨w, hw, hasking, hfull⟩ := h.advanced hp hi hsize hold (hvy.esp.trans hesp)
      (hkept'.trans (hkept.1.trans hedi)) (hvy.mem ▸ hmem) (hvy.stored.trans hstored)
      ⟨hgood, hmore⟩
    refine ⟨w, hasking, ?_⟩
    rw [if_neg fun hcarry => hgood (Or.inl hcarry),
      decide_eq_true (Decidable.of_not_not fun hsign => hgood (Or.inr hsign)), hzf',
      decide_eq_false hmore, hw]
    show (if w.zf then some (run (detectExit 1) w) else detectLoop e820Map replies w) = _
    simp only [hfull, decide_eq_true_eq]

/-- What the comment above the routine promises in EAX. -/
def statusOf (replies : List Reply) : U32 := if ∃ r ∈ replies, Reply.Bad r then 0 else 1

theorem Served.statusOf_eq {i : Nat} {replies : List Reply} {b : Bool}
    (h : Served i replies b) : statusOf replies = if b then 1 else 0 := by
  rw [statusOf]
  split
  · next hbad =>
      rw [h.status.2 hbad]
      rfl
  · next hgood =>
      rw [(Bool.not_eq_false b).mp (mt h.status.1 hgood)]
      rfl

theorem detectLoop_served {pre replies : List Reply} {b : Bool} {u : Sys} {i : Nat}
    (hs : Served i replies b) (hp : MapPlaced e820Map (pushad s.toCpu).esp 4)
    (h : Asking e820Map s pre u) (hpre : pre.length = i) (hi : i < 128)
    (hsize : ∀ q ∈ pre ++ replies, q.entry.length ≤ 20) (rest : List Reply) :
    ∃ v, detectLoop e820Map (replies ++ rest) u = some (run (detectExit (if b then 1 else 0)) v) ∧
      Gathered e820Map s (pre ++ replies) v := by
  have hold : ∀ q ∈ pre, q.entry.length ≤ 20 := fun q hq => hsize q (List.mem_append_left _ hq)
  have hnew : ∀ q ∈ replies, q.entry.length ≤ 20 := fun q hq =>
    hsize q (List.mem_append_right _ hq)
  have hpu : MapPlaced e820Map u.esp 4 := h.esp ▸ hp
  induction hs generalizing pre u with
  | @bad i r hbad =>
      exact (detectLoop_round _ hpu h (hpre ▸ hi) (hnew r List.mem_cons_self) hold).1 hbad
  | @last i r hgood hz =>
      exact (detectLoop_round _ hpu h (hpre ▸ hi) (hnew r List.mem_cons_self) hold).2.1 hgood hz
  | @full i r hc hfull =>
      obtain ⟨w, hw, hloop⟩ :=
        (detectLoop_round rest hpu h (hpre ▸ hi) (hnew r List.mem_cons_self)
          hold).2.2 hc
      exact ⟨w, hloop.trans (if_pos (hpre ▸ hfull)), hw.toGathered⟩
  | @more i r replies b hc hfull hrest ih =>
      obtain ⟨w, hw, hloop⟩ :=
        (detectLoop_round (replies ++ rest) hpu h (hpre ▸ hi)
          (hnew r List.mem_cons_self) hold).2.2 hc
      have hlen : (pre ++ [r]).length = i + 1 := by
        rw [List.length_append, hpre, List.length_singleton]
      have hall : pre ++ [r] ++ replies = pre ++ r :: replies := by simp
      have hnext : i + 1 < 128 := Nat.lt_of_le_of_ne hi hfull
      obtain ⟨v, hv, hend⟩ := ih hw hlen hnext (hall ▸ hsize)
        (fun q hq => hsize q (hall ▸ List.mem_append_left _ hq))
        (fun q hq => hnew q (List.mem_cons_of_mem _ hq)) (hw.esp ▸ hp)
      refine ⟨v, ?_, hall ▸ hend⟩
      rw [List.cons_append, hloop, if_neg (hpre ▸ hfull), hv]

/-- Replies after which the loop still asks. -/
structure Pending (i : Nat) (replies : List Reply) : Prop where
  counted : ∀ r ∈ replies, Reply.Counted r
  room : i + replies.length < e820MaxEntries

theorem served_or_pending {i : Nat} (hi : i < e820MaxEntries) (replies : List Reply) :
    (∃ used rest b, replies = used ++ rest ∧ Served i used b) ∨ Pending i replies := by
  induction replies generalizing i with
  | nil => exact Or.inr ⟨fun _ hr => absurd hr List.not_mem_nil, hi⟩
  | cons r replies ih =>
      by_cases hc : Reply.Counted r
      · by_cases hfull : i + 1 = e820MaxEntries
        · exact Or.inl ⟨[r], replies, true, rfl, Served.full hc hfull⟩
        · obtain ⟨used, rest, b, heq, hserved⟩ | hpending := ih (i := i + 1) (by omega)
          · exact Or.inl ⟨r :: used, rest, b, congrArg (r :: ·) heq, Served.more hc hfull hserved⟩
          · refine Or.inr ⟨List.forall_mem_cons.2 ⟨hc, hpending.counted⟩, ?_⟩
            have := hpending.room
            rw [List.length_cons]
            omega
      · left
        by_cases hbad : Reply.Bad r
        · exact ⟨[r], replies, false, rfl, Served.bad hbad⟩
        · exact ⟨[r], replies, true, rfl,
            Served.last hbad (Decidable.of_not_not fun hz => hc ⟨hbad, hz⟩)⟩

theorem detectLoop_pending {pre replies : List Reply} {u : Sys}
    (hpending : Pending pre.length replies) (hp : MapPlaced e820Map (pushad s.toCpu).esp 4)
    (h : Asking e820Map s pre u) (hsize : ∀ q ∈ pre ++ replies, q.entry.length ≤ 20) :
    detectLoop e820Map replies u = none := by
  induction replies generalizing pre u with
  | nil => rfl
  | cons r replies ih =>
      have hroom : pre.length + (replies.length + 1) < 128 := hpending.room
      have hlen : (pre ++ [r]).length = pre.length + 1 := List.length_append
      have hall : pre ++ [r] ++ replies = pre ++ r :: replies := by simp
      obtain ⟨w, hw, hloop⟩ :=
        (detectLoop_round replies (h.esp ▸ hp) h (by omega)
          (hsize r (List.mem_append_right _ List.mem_cons_self))
          fun q hq => hsize q (List.mem_append_left _ hq)).2.2
          (hpending.counted r List.mem_cons_self)
      have hnext : Pending (pre ++ [r]).length replies :=
        ⟨fun q hq => hpending.counted q (List.mem_cons_of_mem _ hq), by
          rw [hlen]
          show pre.length + 1 + replies.length < 128
          omega⟩
      have hfull : pre.length + 1 ≠ e820MaxEntries :=
        Nat.ne_of_lt (show pre.length + 1 < 128 by omega)
      rw [hloop, if_neg hfull]
      exact ih hnext hw (hall ▸ hsize)

/-! ## The routine -/

theorem MapPlaced.sub {sp : U32} {n k : Nat} (h : MapPlaced e820Map sp (n + k)) (hk : 4 ≤ k) :
    MapPlaced e820Map (sp - BitVec.ofNat 32 k) n := by
  obtain ⟨hroom, hsub⟩ := h.toRoom.sub hk
  have := h.below
  refine ⟨hroom, h.fits, ?_⟩
  rw [hsub]
  exact h.apart.imp (by omega) (by omega)

/-- Up to the loop. -/
theorem detectMemory_asking (hp : MapPlaced e820Map s.esp 36) :
    MapPlaced e820Map (pushad s.toCpu).esp 4 ∧
      ∃ u, (∀ replies, detectMemory e820Map replies s = detectLoop e820Map replies u) ∧
        Asking e820Map s [] u := by
  have hdown : (pushad s.toCpu).esp = s.esp - BitVec.ofNat 32 32 := pushad_esp s.toCpu
  have hentry : MapPlaced e820Map (pushad s.toCpu).esp 4 :=
    hdown ▸ MapPlaced.sub (n := 4) hp (by decide)
  refine ⟨hentry, _, fun _ => rfl, ⟨rfl, ?_, fun j hj => absurd hj (Nat.not_lt_zero j), ?_, ?_⟩,
    fun _ hr => absurd hr List.not_mem_nil, ?_⟩
  · exact read32_write _ _ 0
  · refine (touches_count hentry 0).mono fun x hx => Or.inl ?_
    rw [Within] at hx ⊢
    omega
  · exact (List.append_nil _).symm
  · exact (BitVec.add_zero e820Map).symm

/-- `.exit`, which puts the caller's registers back. -/
theorem detectExit_returned {replies : List Reply} {v : Sys} (hp : MapPlaced e820Map s.esp 36)
    (h : Gathered e820Map s replies v) (status : U32) :
    run (detectExit status) v = s.returned v := by
  have hdown : (pushad s.toCpu).esp = s.esp - BitVec.ofNat 32 32 := pushad_esp s.toCpu
  obtain ⟨-, hsp⟩ := Room.sub (n := 4) hp.toRoom (show 4 ≤ 32 by decide)
  have hesp : (cpu (movImm .eax status) v).esp = (pushad s.toCpu).esp := h.esp
  have htouch : Touches (DetectRegion e820Map (pushad s.toCpu).esp 4) (pushad s.toCpu).mem
    (cpu (movImm .eax status) v).mem := h.touches
  refine popad_ret (hp.toRoom.mono (by decide)) hesp htouch fun x hx hin => ?_
  have := hp.apart
  have := hp.below
  rw [hdown, DetectRegion, Within, Within, hsp] at hin
  rw [Within] at hx
  omega

theorem detectMemory_served {replies : List Reply} {b : Bool} (hs : Served 0 replies b)
    (hp : MapPlaced e820Map s.esp 36) (hsize : ∀ q ∈ replies, q.entry.length ≤ 20)
    (rest : List Reply) :
    ∃ v, detectMemory e820Map (replies ++ rest) s = some (run (detectExit (statusOf replies)) v) ∧
      run (detectExit (statusOf replies)) v = s.returned v ∧ Gathered e820Map s replies v := by
  obtain ⟨hentry, u, hcode, hu⟩ := detectMemory_asking hp
  obtain ⟨v, hv, hend⟩ := detectLoop_served hs hentry hu rfl (by decide) hsize rest
  rw [← hs.statusOf_eq] at hv
  exact ⟨v, (hcode _).trans hv, detectExit_returned hp hend _, hend⟩

/-- A call of it. -/
theorem detectCall_served (ra : U32) {replies : List Reply} {b : Bool} (hs : Served 0 replies b)
    (hp : MapPlaced e820Map s.esp 40) (hsize : ∀ q ∈ replies, q.entry.length ≤ 20)
    (rest : List Reply) :
    ∃ v, callTo ra (detectMemory e820Map (replies ++ rest)) s =
        some { v.withRegs s with eip := ra } ∧
      Gathered e820Map (cpu (pushVal ra) s) replies v := by
  have hentry : MapPlaced e820Map (cpu (pushVal ra) s).esp 36 := hp.sub (Nat.le_refl 4)
  obtain ⟨v, hv, hback, hend⟩ := detectMemory_served hs hentry hsize rest
  exact ⟨v, callTo_returned (hv.trans (congrArg some hback)), hend⟩

theorem detectCall_pending {replies : List Reply} {ra : U32} (h : Pending 0 replies)
    (hp : MapPlaced e820Map s.esp 40) (hsize : ∀ q ∈ replies, q.entry.length ≤ 20) :
    callTo ra (detectMemory e820Map replies) s = none := by
  have hentry : MapPlaced e820Map (cpu (pushVal ra) s).esp 36 := hp.sub (Nat.le_refl 4)
  obtain ⟨hbody, u, hcode, hu⟩ := detectMemory_asking hentry
  rw [callTo, hcode, @detectLoop_pending _ _ [] _ _ h hbody hu hsize, Option.bind_none]

/-! ## The status -/

/-- With these replies the call returns, and it asks for all of them. -/
def Finishes (e820Map ra : U32) (replies : List Reply) (s t : Sys) : Prop :=
  callTo ra (detectMemory e820Map replies) s = some t ∧
    callTo ra (detectMemory e820Map replies.dropLast) s = none

/-- What the caller is promised. -/
structure StatusReturned (replies : List Reply) (s t : Sys) : Prop where
  eax : t.eax = statusOf replies
  ecx : t.ecx = s.ecx
  edx : t.edx = s.edx
  ebx : t.ebx = s.ebx
  esp : t.esp = s.esp
  ebp : t.ebp = s.ebp
  esi : t.esi = s.esi
  edi : t.edi = s.edi

theorem Finishes.registers {ra : U32} {replies : List Reply} {t : Sys}
    (h : Finishes e820Map ra replies s t) (hp : MapPlaced e820Map s.esp 40)
    (hsize : ∀ q ∈ replies, q.entry.length ≤ 20) :
    ∃ v : Sys, t = { v.withRegs s with eip := ra } := by
  obtain ⟨used, rest, b, heq, hserved⟩ | hpending :=
    served_or_pending (i := 0) (by decide) replies
  · obtain ⟨v, hv, -⟩ := detectCall_served ra hserved hp
      (fun q hq => hsize q (heq ▸ List.mem_append_left _ hq)) rest
    exact ⟨v, Option.some.inj (h.1.symm.trans (heq ▸ hv))⟩
  · exact absurd (h.1.symm.trans (detectCall_pending hpending hp hsize)) (by simp)

/-- The caller's own EAX comes back. -/
theorem detectMemory_status {ra : U32} {replies : List Reply} {t : Sys}
    (hp : MapPlaced e820Map s.esp 40) (hsize : ∀ q ∈ replies, q.entry.length ≤ 20)
    (h : Finishes e820Map ra replies s t) :
    StatusReturned replies s t ↔ s.eax = statusOf replies := by
  obtain ⟨v, rfl⟩ := h.registers hp hsize
  exact ⟨fun h => h.eax, fun h => ⟨h, rfl, rfl, rfl, rfl, rfl, rfl, rfl⟩⟩

/-! ## The map -/

/-- The BIOS has the entries of `init` and, at the end, that of `last`. -/
structure BiosMap (init : List Reply) (last : Reply) : Prop where
  carry : ∀ r ∈ init ++ [last], flag r.eflags 0 = false
  signature : ∀ r ∈ init ++ [last], r.eax = smap
  size : ∀ r ∈ init ++ [last], r.entry.length = 20
  more : ∀ r ∈ init, r.ebx ≠ 0
  done : last.ebx = 0

/-- The map and its counter are what they are for, and the entries have been
stored inside the map. -/
structure Detected (e820Map : U32) (replies : List Reply) (s t : Sys) : Prop where
  count : (t.mem.read32 (e820MapCount e820Map)).toNat = min replies.length 128
  records : ∀ j (hj : j < replies.length), j < 128 →
    Holds t.mem (recordAddr e820Map j) (replies.get ⟨j, hj⟩).entry
  stored : t.stored = s.stored ++ bytesFrom (e820MapCount e820Map) 4 ++
    detectLog e820Map 0 (replies.take 128)
  inside : ∀ j < min replies.length 128, ∀ a ∈ bytesFrom (recordAddr e820Map j) 20,
    InMap e820Map a
  mem : Touches (DetectRegion e820Map s.esp 40) s.mem t.mem

theorem BiosMap.good {init : List Reply} {last r : Reply} (h : BiosMap init last)
    (hr : r ∈ init ++ [last]) : ¬ Reply.Bad r := by
  rintro (hcarry | hsign)
  · rw [h.carry r hr] at hcarry
    cases hcarry
  · exact hsign (h.signature r hr)

theorem BiosMap.tail {init : List Reply} {q last : Reply} (h : BiosMap (q :: init) last) :
    BiosMap init last :=
  ⟨fun r hr => h.carry r (List.mem_cons_of_mem _ hr),
    fun r hr => h.signature r (List.mem_cons_of_mem _ hr),
    fun r hr => h.size r (List.mem_cons_of_mem _ hr),
    fun r hr => h.more r (List.mem_cons_of_mem _ hr), h.done⟩

/-- As many replies as there is room for, or all of them. -/
theorem BiosMap.served {init : List Reply} {last : Reply} (h : BiosMap init last) {i : Nat}
    (hi : i < 128) : Served i ((init ++ [last]).take (128 - i)) true := by
  induction init generalizing i with
  | nil =>
      have htake : ([] ++ [last]).take (128 - i) = [last] :=
        List.take_of_length_le (show 1 ≤ 128 - i by omega)
      rw [htake]
      exact Served.last (h.good (List.mem_singleton_self _)) h.done
  | cons r init ih =>
      have hc : Reply.Counted r := ⟨h.good List.mem_cons_self, h.more r List.mem_cons_self⟩
      have hroom : 128 - i = 128 - (i + 1) + 1 := by omega
      rw [hroom, List.cons_append, List.take_succ_cons]
      by_cases hfull : i + 1 = 128
      · rw [hfull, Nat.sub_self, List.take_zero]
        exact Served.full hc hfull
      · exact Served.more hc hfull (ih h.tail (by omega))

theorem BiosMap.countP {init : List Reply} {last : Reply} (h : BiosMap init last) :
    (((init ++ [last]).take 128).countP fun r => Reply.Counted r) = min init.length 128 := by
  have hinit : ((init.take 128).countP fun r => Reply.Counted r) = (init.take 128).length :=
    countP_counted fun r hr => ⟨h.good (List.mem_append_left _ (List.mem_of_mem_take hr)),
      h.more r (List.mem_of_mem_take hr)⟩
  have hlast : (([last].take (128 - init.length)).countP fun r => Reply.Counted r) = 0 := by
    refine List.countP_eq_zero.2 fun r hr hcounted => ?_
    rw [List.mem_singleton.1 (List.mem_of_mem_take hr)] at hcounted
    exact (of_decide_eq_true hcounted).2 h.done
  rw [List.take_append, List.countP_append, hinit, hlast, List.length_take, Nat.add_zero,
    Nat.min_comm]

theorem inMap_of_record {sp : U32} {n j : Nat} (hp : MapPlaced e820Map sp n) (hj : j < 128)
    {a : U32} (ha : a ∈ bytesFrom (recordAddr e820Map j) 20) : InMap e820Map a := by
  obtain ⟨k, hk, rfl⟩ := List.mem_map.1 ha
  have hk20 := List.mem_range.1 hk
  have haddr := recordAddr_toNat hp hj
  have hfits := hp.fits
  rw [InMap, Within, offset_toNat hk20 (by omega)]
  omega

/-- The stack of the call, and what the routine stores to. -/
theorem Gathered.mem {ra : U32} {replies : List Reply} {v : Sys}
    (hp : MapPlaced e820Map s.esp 40) (h : Gathered e820Map (cpu (pushVal ra) s) replies v) :
    Touches (DetectRegion e820Map s.esp 40) s.mem v.mem := by
  have hbelow := hp.below
  have hentry : MapPlaced e820Map (cpu (pushVal ra) s).esp 36 := hp.sub (Nat.le_refl 4)
  have hsp : (cpu (pushVal ra) s).esp.toNat = s.esp.toNat - 4 :=
    (Room.sub (n := 36) hp.toRoom (Nat.le_refl 4)).2
  have hbody : (pushad (cpu (pushVal ra) s).toCpu).esp =
    (cpu (pushVal ra) s).esp - BitVec.ofNat 32 32 := pushad_esp _
  have hsp' := (Room.sub (n := 4) (k := 32) hentry.toRoom (by decide)).2
  have hcall : Touches (Within (s.esp.toNat - 4) s.esp.toNat) s.mem
      (cpu (pushVal ra) s).mem := touches_pushDwords rfl (by omega)
  have hsaved : Touches (Within ((cpu (pushVal ra) s).esp.toNat - 32)
      (cpu (pushVal ra) s).esp.toNat) (cpu (pushVal ra) s).mem
      (pushad (cpu (pushVal ra) s).toCpu).mem := touches_pushDwords rfl (by omega)
  have hrest := h.touches
  rw [hbody] at hrest
  refine (hcall.mono fun x hx => ?_).trans ((hsaved.mono fun x hx => ?_).trans
    (hrest.mono fun x hx => ?_))
  · rw [Within] at hx
    rw [DetectRegion, Within, Within]
    omega
  · rw [Within] at hx
    rw [DetectRegion, Within, Within]
    omega
  · rw [DetectRegion, Within, Within] at hx ⊢
    omega

/-- The last entry is stored like the others, but not counted. -/
theorem detectCall_map (ra : U32) {init : List Reply} {last : Reply}
    (hp : MapPlaced e820Map s.esp 40) (h : BiosMap init last) :
    ∃ t, callTo ra (detectMemory e820Map (init ++ [last])) s = some t ∧
      (t.mem.read32 (e820MapCount e820Map)).toNat = min init.length 128 ∧
      (128 ≤ init.length → Detected e820Map (init ++ [last]) s t) := by
  have hlen : (init ++ [last]).length = init.length + 1 := List.length_append
  have hsize : ∀ q ∈ (init ++ [last]).take 128, q.entry.length ≤ 20 := fun q hq =>
    Nat.le_of_eq (h.size q (List.mem_of_mem_take hq))
  obtain ⟨v, hv, hend⟩ := detectCall_served ra (h.served (i := 0) (by decide)) hp hsize
    ((init ++ [last]).drop 128)
  have hmem := hend.mem hp
  rw [Nat.sub_zero, List.take_append_drop] at hv
  have hcount : (v.mem.read32 (e820MapCount e820Map)).toNat = min init.length 128 := by
    rw [hend.count, h.countP, toNat_ofNat_of_lt (by omega)]
  refine ⟨_, hv, hcount, fun hlong => ⟨?_, ?_, hend.stored, ?_, hmem⟩⟩
  · exact hcount.trans (by omega)
  · intro j hj hj128
    have hget := hend.records j (by rw [List.length_take]; omega)
    rwa [List.get_eq_getElem, List.getElem_take] at hget
  · exact fun j hj a ha => inMap_of_record hp (by omega) ha

theorem detectMemory_map {ra : U32} {init : List Reply} {last : Reply}
    (hp : MapPlaced e820Map s.esp 40) (h : BiosMap init last) :
    ∃ t, callTo ra (detectMemory e820Map (init ++ [last])) s = some t ∧
      (Detected e820Map (init ++ [last]) s t ↔ 128 < (init ++ [last]).length) := by
  have hlen : (init ++ [last]).length = init.length + 1 := List.length_append
  obtain ⟨t, ht, hcount, hall⟩ := detectCall_map ra hp h
  refine ⟨t, ht, fun hdetected => ?_, fun hlong => hall (by omega)⟩
  have heq := hcount.symm.trans hdetected.count
  omega

end

end

/-! ## Two calls -/

def detectMap : U32 := 0x128100

def oneEntry : Reply where
  entry := List.replicate 20 0
  eax := smap
  ebx := 0
  ecx := 20
  edx := smap
  esi := 0
  edi := 0
  ebp := 0
  eflags := 2

/-- A BIOS with more entries than there is room for. -/
theorem biosMap_long : BiosMap (List.replicate 128 { oneEntry with ebx := 1 }) oneEntry := by
  have hall : ∀ r ∈ List.replicate 128 { oneEntry with ebx := 1 } ++ [oneEntry],
      r = { oneEntry with ebx := 1 } ∨ r = oneEntry := by
    intro r hr
    obtain hr | hr := List.mem_append.1 hr
    · exact Or.inl (List.eq_of_mem_replicate hr)
    · exact Or.inr (List.mem_singleton.1 hr)
  refine ⟨fun r hr => ?_, fun r hr => ?_, fun r hr => ?_, fun r hr => ?_, rfl⟩
  · obtain rfl | rfl := hall r hr <;> rfl
  · obtain rfl | rfl := hall r hr <;> rfl
  · obtain rfl | rfl := hall r hr <;> rfl
  · rw [List.eq_of_mem_replicate hr]
    show (1 : U32) ≠ 0
    decide

theorem detectMap_placed : MapPlaced detectMap idleSys.esp 40 :=
  ⟨⟨by decide, by decide⟩, by decide, by decide⟩

theorem detectMemory_map_long :
    ∃ t, callTo 0x100400 (detectMemory detectMap
        (List.replicate 128 { oneEntry with ebx := 1 } ++ [oneEntry])) idleSys = some t ∧
      (Detected detectMap (List.replicate 128 { oneEntry with ebx := 1 } ++ [oneEntry]) idleSys t ↔
        128 < (List.replicate 128 { oneEntry with ebx := 1 } ++ [oneEntry]).length) :=
  detectMemory_map detectMap_placed biosMap_long

theorem biosMap_one : BiosMap [] oneEntry := by
  have hone : ∀ r ∈ [oneEntry], r = oneEntry := fun r hr => List.mem_singleton.1 hr
  refine ⟨fun r hr => ?_, fun r hr => ?_, fun r hr => ?_, fun r hr => absurd hr List.not_mem_nil,
    rfl⟩ <;>
  · rw [hone r hr]
    rfl

/-- Of a single entry none is counted. -/
theorem detectMemory_map_one : BiosMap [] oneEntry ∧
    ∃ t, callTo 0x100400 (detectMemory detectMap [oneEntry]) idleSys = some t ∧
      ¬ Detected detectMap [oneEntry] idleSys t := by
  obtain ⟨t, ht, hcount, -⟩ := detectCall_map 0x100400 detectMap_placed biosMap_one
  refine ⟨biosMap_one, t, ht, fun hall => ?_⟩
  exact absurd (hcount.symm.trans hall.count) (by decide)

theorem finishes_one : ∃ t, Finishes detectMap 0x100400 [oneEntry] idleSys t := by
  obtain ⟨t, ht, -⟩ := detectCall_map 0x100400 detectMap_placed biosMap_one
  exact ⟨t, ht, rfl⟩

/-- The memory below 640 KiB, with more to come, and the memory from 1 MiB on. -/
def lowMemory : Reply :=
  { oneEntry with
    entry := bytes32 0 ++ bytes32 0 ++ bytes32 0x9FC00 ++ bytes32 0 ++ bytes32 1, ebx := 1 }

def highMemory : Reply :=
  { oneEntry with
    entry := bytes32 0x100000 ++ bytes32 0 ++ bytes32 0x7F00000 ++ bytes32 0 ++ bytes32 1 }

/-- A caller that happens to hold the status already. -/
theorem detectMemory_status_two :
    ∃ t, Finishes detectMap 0x100400 [lowMemory, highMemory] { idleSys with eax := 1 } t ∧
      StatusReturned [lowMemory, highMemory] { idleSys with eax := 1 } t := by
  have hplaced : MapPlaced detectMap ({ idleSys with eax := 1 } : Sys).esp 40 := detectMap_placed
  have hmap : BiosMap [lowMemory] highMemory := by
    refine ⟨?_, ?_, ?_, ?_, rfl⟩ <;> decide
  have hpending : Pending 0 [lowMemory] := ⟨by decide, by decide⟩
  have hsize : ∀ q ∈ [lowMemory], q.entry.length ≤ 20 := by decide
  obtain ⟨t, ht, -⟩ := detectCall_map 0x100400 hplaced hmap
  have hfinishes : Finishes detectMap 0x100400 [lowMemory, highMemory]
      { idleSys with eax := 1 } t := ⟨ht, detectCall_pending hpending hplaced hsize⟩
  exact ⟨t, hfinishes, (detectMemory_status hplaced (by decide) hfinishes).2 (by decide)⟩

/-- The caller sees its own zero, though the map has been read. -/
theorem detectMemory_status_lost : ∃ t, Finishes detectMap 0x100400 [oneEntry] idleSys t ∧
    ¬ StatusReturned [oneEntry] idleSys t := by
  obtain ⟨t, ht⟩ := finishes_one
  obtain ⟨v, rfl⟩ := ht.registers detectMap_placed (by decide)
  refine ⟨_, ht, fun h => ?_⟩
  have heax : (0 : U32) = statusOf [oneEntry] := h.eax
  exact absurd heax (by decide)

end MicroKernel.Proofs
