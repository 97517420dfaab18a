import MicroKernel.Core.Interrupts

/-!
# What `populate_idt` leaves in the IDT

Each `SET_IDT_GATE` fills the eight bytes of its own gate, in five stores, and
no other byte. Gates of different vectors do not meet, so once the whole list
has run every vector still finds in its gate what its own macro call stored.
-/

namespace MicroKernel.Proofs

open X86 MicroKernel.Core

def gateBytes (isr : U32) (sel : U16) (attr : U8) : List U8 :=
  bytes16 (isr.setWidth 16) ++ bytes16 sel ++ [0] ++ [attr] ++
    bytes16 (isr.extractLsb' 16 16)

theorem shr_setLow (isr : U32) :
    (setLow isr (isr.setWidth 16) >>> 16).setWidth 16 = isr.extractLsb' 16 16 := by
  ext i hi
  simp only [setLow, BitVec.getElem_setWidth, BitVec.getLsbD_ushiftRight,
    BitVec.getLsbD_append, BitVec.getElem_extractLsb',
    BitVec.getLsbD_extractLsb']
  rw [if_neg (by omega)]
  simp [hi]

section
variable (idtStart : U32) (n : Nat) (isr : U32) (sel : U16) (attr : U8) (c : Cpu)

/-- The five stores of one macro call. -/
theorem setIdtGate_mem :
    let g := gateAddr idtStart n
    (exec (setIdtGate idtStart n isr sel attr) c).mem =
      ByteMem.write (ByteMem.write (ByteMem.write (ByteMem.write (ByteMem.write
        c.mem g (bytes16 (isr.setWidth 16))) (g + 2) (bytes16 sel)) (g + 4) [0])
        (g + 5) [attr]) (g + 6) (bytes16 (isr.extractLsb' 16 16)) := by
  rw [← shr_setLow]
  rfl

theorem setIdtGate_holds :
    ByteMem.Holds (exec (setIdtGate idtStart n isr sel attr) c).mem
      (gateAddr idtStart n) (gateBytes isr sel attr) := by
  rw [setIdtGate_mem]
  refine ByteMem.Holds.write_after (ByteMem.Holds.write_after
    (ByteMem.Holds.write_after (ByteMem.Holds.write_after
      (ByteMem.holds_write ?_) rfl ?_) rfl ?_) rfl ?_) rfl ?_
  all_goals simp

/-- No byte is touched from the eighth on, counted from the gate. -/
theorem setIdtGate_frame {x : U32} (hx : 8 ≤ (x - gateAddr idtStart n).toNat) :
    (exec (setIdtGate idtStart n isr sel attr) c).mem x = c.mem x := by
  have hout : ∀ (m : PhysMem) (k : U32) (bs : List U8),
      bs.length + k.toNat ≤ 8 →
      ByteMem.write m (gateAddr idtStart n + k) bs x = m x := by
    intro m k bs hk
    have hd : (x - (gateAddr idtStart n + k)).toNat =
        (x - gateAddr idtStart n).toNat - k.toNat := by bv_omega
    exact ByteMem.write_of_le (by omega)
  rw [setIdtGate_mem]
  rw [hout, hout, hout, hout, ByteMem.write_of_le (Nat.le_trans (by simp) hx)]
  all_goals simp

end

theorem holds_gateBytes {m : PhysMem} {idtStart : U32} {n : Nat} {isr : U32}
    {sel : U16} {attr : U8}
    (h : ByteMem.Holds m (gateAddr idtStart n) (gateBytes isr sel attr)) :
    readGate m idtStart n = { offset := isr, sel := sel, flags := attr } := by
  simp only [gateBytes, ByteMem.holds_append] at h
  obtain ⟨⟨⟨⟨hlo, hsel⟩, -⟩, hattr⟩, hhi⟩ := h
  have hoff := halves isr
  simp only [List.length_append, bytes16_length, List.length_cons,
    List.length_nil] at hsel hattr hhi
  rw [← read16_of_holds hlo, ← read16_of_holds hhi] at hoff
  rw [← hoff, ← read16_of_holds hsel, ← hattr.1]
  rfl

/-- One list of macro calls, as `populate_idt` makes them. -/
def runGates (idtStart : U32) (addr : Label → U32) (gates : List (Nat × Label))
    (c : Cpu) : Cpu :=
  exec (gates.flatMap fun g => setIdtGate idtStart g.1 (addr g.2) 0x08 0x8E) c

theorem gateAddr_apart {idtStart : U32} {n k i : Nat} (hn : n < 256)
    (hk : k < 256) (hne : n ≠ k) (hi : i < 8) :
    8 ≤ (gateAddr idtStart k + BitVec.ofNat 32 i - gateAddr idtStart n).toNat := by
  have hd : gateAddr idtStart k + BitVec.ofNat 32 i - gateAddr idtStart n =
      BitVec.ofNat 32 (8 * k + i) - BitVec.ofNat 32 (8 * n) := by
    simp only [gateAddr, BitVec.ofNat_add]
    generalize BitVec.ofNat 32 (8 * k) = a
    generalize BitVec.ofNat 32 (8 * n) = b
    generalize BitVec.ofNat 32 i = d
    bv_omega
  rw [hd, BitVec.toNat_sub, BitVec.toNat_ofNat, BitVec.toNat_ofNat]
  omega

/-- The calls for other vectors leave gate `k` alone. -/
theorem runGates_other (idtStart : U32) (addr : Label → U32) {k : Nat}
    (hk : k < 256) {bs : List U8} (hbs : bs.length = 8) :
    ∀ (gates : List (Nat × Label)) (c : Cpu), (∀ g ∈ gates, g.1 < 256 ∧ g.1 ≠ k) →
      ByteMem.Holds c.mem (gateAddr idtStart k) bs →
      ByteMem.Holds (runGates idtStart addr gates c).mem (gateAddr idtStart k) bs := by
  intro gates
  induction gates with
  | nil => exact fun c _ h => h
  | cons g gates ih =>
      intro c hgs h
      rw [runGates, List.flatMap_cons, exec_append]
      refine ih _ (fun g' hg' => hgs g' (List.mem_cons_of_mem _ hg')) ?_
      obtain ⟨hlt, hne⟩ := hgs g List.mem_cons_self
      refine h.congr fun i hi => setIdtGate_frame _ _ _ _ _ _ ?_
      exact gateAddr_apart hlt hk hne (hbs ▸ hi)

theorem runGates_holds (idtStart : U32) (addr : Label → U32) :
    ∀ (gates : List (Nat × Label)) (c : Cpu), (∀ g ∈ gates, g.1 < 256) →
      (gates.map (·.1)).Nodup → ∀ g ∈ gates,
      ByteMem.Holds (runGates idtStart addr gates c).mem
        (gateAddr idtStart g.1) (gateBytes (addr g.2) 0x08 0x8E) := by
  intro gates
  induction gates with
  | nil => exact fun c _ _ g hg => absurd hg List.not_mem_nil
  | cons g gates ih =>
      intro c hlt hnd g' hg'
      rw [runGates, List.flatMap_cons, exec_append]
      rw [List.map_cons, List.nodup_cons] at hnd
      have hlt' : ∀ g ∈ gates, g.1 < 256 :=
        fun g hg => hlt g (List.mem_cons_of_mem _ hg)
      obtain rfl | hmem := List.mem_cons.1 hg'
      · refine runGates_other idtStart addr (hlt g' hg') (by simp [gateBytes])
          gates _ ?_ (setIdtGate_holds ..)
        intro g hg
        refine ⟨hlt' g hg, fun he => hnd.1 ?_⟩
        exact he ▸ List.mem_map_of_mem hg
      · exact ih _ hlt' hnd.2 g' hmem

theorem idtGates_lt : ∀ g ∈ idtGates, g.1 < 256 := by decide

theorem idtGates_nodup : (idtGates.map (·.1)).Nodup := by decide

end MicroKernel.Proofs
