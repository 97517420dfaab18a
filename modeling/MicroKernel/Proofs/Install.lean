import MicroKernel.Core.Start
import MicroKernel.Proofs.IdtGates
import MicroKernel.Proofs.Timer
import MicroKernel.Proofs.VgaMemory

/-!
# What the routines of the boot path leave alone

Each of them stores to tables of its own, whichever way DF points, and gives
back ESP; of `tss_install` that is said up to its `ltr`. The text with the GDT in
it, the messages, the variables of the VGA routines and the stack in use are apart
from all tables, as the sections of the file lay them out. EBX is kept by those
that do not name it: `pit_install` and `fpu_sse_install` change it, and save it no
more than the others do.
-/

namespace MicroKernel.Proofs

open ByteMem X86 MicroKernel.Core

/-- The data section from the pointer of the IDT on and the zeroed one from the
IDT on, in the order of the file, below the 4 MiB that paging maps. -/
structure Linked (img : Image) : Prop where
  data : 0x100000 ≤ img.idtPtr.toNat
  cursorX : img.vga.cursorX.toNat = img.idtPtr.toNat + 8
  gdtTss : img.gdtTss.toNat = img.idtPtr.toNat + 20
  bootMessage : img.bootMessage.toNat = img.idtPtr.toNat + 28
  bss : img.bootMessage.toNat + messageBytes.length ≤ img.idtStart.toNat
  kernelStackTop : img.kernelStackTop.toNat = img.idtStart.toNat + 18432
  pageDirectory : img.pageDirectory.toNat = img.idtStart.toNat + 24576
  firstPageTable : img.firstPageTable.toNat = img.idtStart.toNat + 28672
  tssEntry : img.tssEntry.toNat = img.idtStart.toNat + 32768
  top : img.idtStart.toNat + 32872 ≤ 0x400000

/-- The text section is between the start of the image and the data, and the GDT
in it with its pointer behind it. -/
structure TextLinked (img : Image) : Prop where
  low : 0x100000 + 24 ≤ img.gdtPtr.toNat
  high : img.gdtPtr.toNat + 6 ≤ img.idtPtr.toNat

/-- What the way to `kmain` relies on: the text, the messages, the variables of the
VGA routines, and the stack. -/
def Needed (img : Image) (x : U32) : Prop :=
  Within 0x100000 img.idtPtr.toNat x ∨
    Within img.bootMessage.toNat (img.bootMessage.toNat + messageBytes.length) x ∨
    Within img.vga.cursorX.toNat (img.vga.cursorX.toNat + 9) x ∨
    Within (img.idtStart.toNat + 2048) img.kernelStackTop.toNat x

/-- A change of state that leaves all that as it is, but for `n` bytes of the
stack, and does `g` to EBX. -/
structure Kept (img : Image) (n : Nat) (g : U32 → U32) (s t : Sys) : Prop where
  esp : t.esp = s.esp
  ebx : t.ebx = g s.ebx
  touches : Touches (fun x => ¬ Needed img x ∨ Below s.esp n x) s.mem t.mem

section
variable {img : Image} {n : Nat} {g g' : U32 → U32} {s t u : Sys}

theorem Kept.trans (h : Kept img n g s t) (h' : Kept img n g' t u) :
    Kept img n (g' ∘ g) s u where
  esp := h'.esp.trans h.esp
  ebx := by rw [h'.ebx, h.ebx]; rfl
  touches := h.touches.trans (h.esp ▸ h'.touches)

theorem Kept.mono {m : Nat} (h : Kept img n g s t) (hm : n ≤ m) : Kept img m g s t where
  esp := h.esp
  ebx := h.ebx
  touches := h.touches.mono fun x hx => hx.imp_right fun hb => by
    rw [Below, Within] at hb ⊢
    omega

theorem kept_plain (h : Plain s t) : Kept img n id s t where
  esp := h.esp
  ebx := h.ebx
  touches := fun x _ => congrFun h.mem x

theorem kept_store {a : U32} {bs : List U8} (hfit : a.toNat + bs.length ≤ 2 ^ 32)
    (hout : ∀ x : U32, Within a.toNat (a.toNat + bs.length) x → ¬ Needed img x) :
    Kept img n id s (s.store a bs) where
  esp := rfl
  ebx := rfl
  touches := (touches_write hfit).mono fun x hx => Or.inl (hout x hx)

/-- Straight code whose instructions all do. -/
theorem kept_run {code : List Insn} (h : ∀ i ∈ code, ∀ s, Kept img 0 id s (i s)) (s : Sys) :
    Kept img 0 id s (run code s) := by
  induction code generalizing s with
  | nil => exact ⟨rfl, rfl, Touches.refl _⟩
  | cons i code ih =>
      rw [List.forall_mem_cons] at h
      exact (h.1 s).trans (ih h.2 (i s))

/-! ## The tables -/

/-- Where the tables are, and nothing else. -/
theorem Linked.spare (hl : Linked img) {x : U32}
    (hx : Within img.idtPtr.toNat (img.idtPtr.toNat + 8) x ∨
      Within (img.idtPtr.toNat + 17) (img.idtPtr.toNat + 28) x ∨
      Within img.idtStart.toNat (img.idtStart.toNat + 2048) x ∨
      img.kernelStackTop.toNat ≤ x.toNat) : ¬ Needed img x := by
  have := hl.cursorX
  have := hl.bss
  have := hl.bootMessage
  have := hl.kernelStackTop
  rw [Within, Within, Within] at hx
  rw [Needed, Within, Within, Within, Within]
  omega

theorem Linked.table (hl : Linked img) {x : U32}
    (hx : img.kernelStackTop.toNat ≤ x.toNat) : ¬ Needed img x :=
  hl.spare (Or.inr (Or.inr (Or.inr hx)))

theorem Linked.idt (hl : Linked img) {x : U32}
    (hx : Within img.idtStart.toNat (img.idtStart.toNat + 2048) x) : ¬ Needed img x :=
  hl.spare (Or.inr (Or.inr (Or.inl hx)))

theorem Linked.idtr (hl : Linked img) {x : U32}
    (hx : Within img.idtPtr.toNat (img.idtPtr.toNat + 6) x) : ¬ Needed img x := by
  exact hl.spare (Or.inl ⟨hx.1, Nat.lt_of_lt_of_le hx.2 (Nat.add_le_add_left (by decide) _)⟩)

theorem Linked.descriptor (hl : Linked img) {x : U32}
    (hx : Within img.gdtTss.toNat (img.gdtTss.toNat + 8) x) : ¬ Needed img x := by
  rw [hl.gdtTss, Within] at hx
  exact hl.spare (Or.inr (Or.inl ⟨by omega, by omega⟩))

/-! ## Calls -/

/-- A routine entered in `u` has returned in `t`. -/
structure Back (img : Image) (n : Nat) (g : U32 → U32) (u t : Sys) : Prop where
  eip : t.eip = u.mem.read32 u.esp
  esp : t.esp = u.esp + 4
  ebx : t.ebx = g u.ebx
  touches : Touches (fun x => ¬ Needed img x ∨ Below u.esp n x) u.mem t.mem

/-- What is touched after a value has been pushed. -/
theorem push_touches {v : U32} (hroom : Room s.esp (n + 4))
    (h : Touches (fun x => ¬ Needed img x ∨ Below (cpu (pushVal v) s).esp n x)
      (cpu (pushVal v) s).mem t.mem) :
    Touches (fun x => ¬ Needed img x ∨ Below s.esp (n + 4) x) s.mem t.mem := by
  have hpush := touches_push v hroom (Nat.le_add_left 4 n)
  refine (hpush.mono fun _ => Or.inr).trans (h.mono fun x hx => hx.imp_right fun hb => ?_)
  exact below_sub hroom (Nat.le_refl 4) (Nat.le_refl (n + 4)) hb

theorem callTo_back {f : Routine} {ra : U32} (hroom : Room s.esp (n + 4))
    (hf : f (cpu (pushVal ra) s) = some t) (h : Back img n g (cpu (pushVal ra) s) t) :
    callTo ra f s = some t ∧ Kept img (n + 4) g s t := by
  have heip : t.eip = ra := h.eip.trans (pushVal_read ra s)
  refine ⟨by rw [callTo, hf, Option.bind_some, if_pos heip], ?_, h.ebx,
    push_touches hroom h.touches⟩
  rw [h.esp]
  exact BitVec.sub_add_cancel ..

/-- On the stack there is room for `n` bytes. -/
structure StackRoom (img : Image) (n : Nat) (sp : U32) : Prop where
  below : img.idtStart.toNat + 2048 + n ≤ sp.toNat
  above : sp.toNat ≤ img.kernelStackTop.toNat

theorem StackRoom.mono {m : Nat} {sp : U32} (h : StackRoom img n sp) (hm : m ≤ n) :
    StackRoom img m sp :=
  ⟨Nat.le_trans (Nat.add_le_add_left hm _) h.below, h.above⟩

theorem StackRoom.room {sp : U32} (hl : Linked img) (h : StackRoom img n sp) : Room sp n := by
  have := hl.top
  have := hl.kernelStackTop
  have := h.above
  have := h.below
  exact ⟨by omega, by omega⟩

/-- The end of a routine called with that room. -/
theorem Kept.back {ra : U32} (hl : Linked img) (hs : StackRoom img (n + 4) s.esp)
    (h : Kept img n g (cpu (pushVal ra) s) t) : Back img n g (cpu (pushVal ra) s) (ret t) := by
  have htop := hl.top
  have hstack := hl.kernelStackTop
  have habove := hs.above
  have hbelow := hs.below
  obtain ⟨-, hsub⟩ := (hs.room hl).sub (Nat.le_refl 4)
  have hsp : (cpu (pushVal ra) s).esp = s.esp - BitVec.ofNat 32 4 := rfl
  rw [← hsp] at hsub
  generalize cpu (pushVal ra) s = u at *
  refine ⟨?_, congrArg (· + 4) h.esp, h.ebx, h.touches⟩
  show t.mem.read32 t.esp = _
  rw [h.esp]
  refine read32_touches h.touches (by omega) fun x hx => ?_
  rw [Within] at hx
  rw [Needed, Below, Within, Within, Within, Within, Within]
  omega

/-- A call of straight code. -/
theorem callTo_straight (code : List Insn) (ra : U32) (hl : Linked img)
    (hs : StackRoom img 4 s.esp) (h : ∀ u, Kept img 0 id u (run code u)) :
    ∃ t, callTo ra (straight (code ++ [ret])) s = some t ∧ Kept img 4 id s t := by
  have hback := (h (cpu (pushVal ra) s)).back hl hs
  refine ⟨_, callTo_back (n := 0) (hs.room hl) ?_ hback⟩
  rw [straight, run_append]
  rfl

/-! ## Stores -/

theorem kept_repeated_stosd (n : Nat) (hlow : n * 4 ≤ s.edi.toNat)
    (hhigh : s.edi.toNat + n * 4 < 2 ^ 32)
    (hout : ∀ x : U32, Within (s.edi.toNat - n * 4) (s.edi.toNat + n * 4) x →
      ¬ Needed img x) : Kept img 0 id s (repeated stosd n s) := by
  have hall : ∀ (n : Nat) (s : Sys), (repeated stosd n s).esp = s.esp ∧
      (repeated stosd n s).ebx = s.ebx ∧
      (repeated stosd n s).mem = fill (bytes32 s.eax) (s.stride 4) n s.mem s.edi := by
    intro n
    induction n with
    | zero => exact fun s => ⟨rfl, rfl, rfl⟩
    | succ n ih => exact fun s => ih { stosd s with ecx := (stosd s).ecx - 1 }
  obtain ⟨hesp, hebx, hmem⟩ := hall n s
  refine ⟨hesp, hebx, ?_⟩
  rw [hmem]
  exact (touches_fill (stride_cases s.toCpu 4) (Nat.le_of_eq (bytes32_length _)) hlow
    hhigh).mono fun x hx => Or.inl (hout x hx)

/-- A table cleared, upwards or downwards. -/
theorem kept_clear {a c : U32} (hlow : c.toNat * 4 ≤ a.toNat)
    (hhigh : a.toNat + c.toNat * 4 < 2 ^ 32)
    (hout : ∀ x : U32, a.toNat - c.toNat * 4 ≤ x.toNat → ¬ Needed img x) (s : Sys) :
    Kept img 0 id s
      (run [cpu (movImm .edi a), cpu (movImm .ecx c), xorSelf .eax, rep stosd] s) := by
  have hset : ∃ q, run [cpu (movImm .edi a), cpu (movImm .ecx c), xorSelf .eax] s = q ∧
      Plain s q ∧ q.edi = a ∧ q.ecx = c :=
    ⟨_, rfl, run_plain (by simp) s, rfl, rfl⟩
  obtain ⟨q, hq, hplain, hedi, hecx⟩ := hset
  rw [run_cons, run_cons, run_cons, run_nil] at hq
  rw [run_cons, run_cons, run_cons, hq, run_cons, run_nil, rep, hecx]
  refine (kept_plain hplain).trans (kept_repeated_stosd _ ?_ ?_ fun x hx => hout x ?_)
  · rw [hedi]
    exact hlow
  · rw [hedi]
    exact hhigh
  · rw [hedi] at hx
    exact hx.1

theorem mapPage_regs (s : Sys) :
    (mapPage s).edi = s.edi + 4 ∧ (mapPage s).esp = s.esp ∧ (mapPage s).ebx = s.ebx ∧
      (mapPage s).mem = ByteMem.write s.mem (s.edi + 0) (bytes32 s.eax) := by
  obtain ⟨⟨⟩⟩ := s
  exact ⟨rfl, rfl, rfl, rfl⟩

theorem kept_repeated_mapPage (n : Nat) (hfit : s.edi.toNat + 4 * n < 2 ^ 32)
    (hout : ∀ x : U32, s.edi.toNat ≤ x.toNat → ¬ Needed img x) :
    Kept img 0 id s (repeated mapPage n s) := by
  induction n generalizing s with
  | zero => exact ⟨rfl, rfl, Touches.refl _⟩
  | succ n ih =>
      obtain ⟨hedi, hesp, hebx, hmem⟩ := mapPage_regs s
      have hzero : (s.edi + 0).toNat = s.edi.toNat := congrArg BitVec.toNat (BitVec.add_zero _)
      have hkept : Kept img 0 id s (mapPage s) := by
        refine ⟨hesp, hebx, ?_⟩
        rw [hmem]
        refine (touches_write (by rw [hzero, bytes32_length]; omega)).mono fun x hx => ?_
        rw [hzero] at hx
        exact Or.inl (hout x hx.1)
      have hround : repeated mapPage (n + 1) s =
          repeated mapPage n { mapPage s with ecx := (mapPage s).ecx - 1 } := rfl
      rw [hround]
      generalize mapPage s = q at *
      have hcount : Kept img 0 id q { q with ecx := q.ecx - 1 } :=
        ⟨rfl, rfl, Touches.refl _⟩
      have hnext : (s.edi + 4).toNat = s.edi.toNat + 4 := by
        have h4 : (s.edi + 4).toNat = (s.edi.toNat + 4) % 2 ^ 32 := BitVec.toNat_add ..
        omega
      refine (hkept.trans hcount).trans (ih ?_ fun x hx => hout x ?_)
      · show q.edi.toNat + _ < _
        rw [hedi]
        omega
      · have hx' : q.edi.toNat ≤ x.toNat := hx
        rw [hedi] at hx'
        omega

/-! ## The routines -/

theorem plain_movSeg (r : SReg) (q : Reg) : PlainInsn (cpu (movSeg r q)) := by
  cases r <;> exact fun _ => ⟨rfl, rfl, rfl, rfl, rfl⟩

theorem gdtInstall_kept {ra : U32} (hl : Linked img) (hs : StackRoom img 4 s.esp) :
    ∃ t, callTo ra (gdtInstall img) s = some t ∧ Kept img 4 id s t := by
  have hlgdt : PlainInsn (lgdt img.gdtPtr) := fun _ => ⟨rfl, rfl, rfl, rfl, rfl⟩
  have hss : PlainInsn (movSs .eax) := fun _ => ⟨rfl, rfl, rfl, rfl, rfl⟩
  have hjump (sel : U16) : PlainInsn (farJump sel) := fun _ => ⟨rfl, rfl, rfl, rfl, rfl⟩
  exact callTo_straight [lgdt img.gdtPtr, cpu (mov16 .eax 0x10),
    cpu (movSeg .ds .eax), cpu (movSeg .es .eax), cpu (movSeg .fs .eax),
    cpu (movSeg .gs .eax), movSs .eax, farJump 0x08] _ hl hs fun u =>
      kept_plain (run_plain (by simp [hlgdt, hss, hjump, plain_movSeg]) u)

/-- A store to the descriptor of the TSS. -/
theorem kept_descriptor (hl : Linked img) {k : Nat} {bs : List U8} (hk : k + bs.length ≤ 8) :
    Kept img 0 id s (s.store (img.gdtTss + BitVec.ofNat 32 k) bs) := by
  have htop := hl.top
  have hbss := hl.bss
  have hboot := hl.bootMessage
  have hbase := hl.gdtTss
  have haddr : (img.gdtTss + BitVec.ofNat 32 k).toNat = img.gdtTss.toNat + k := by
    rw [BitVec.toNat_add, BitVec.toNat_ofNat, Nat.add_mod_mod, Nat.mod_eq_of_lt (by omega)]
  refine kept_store (by omega) fun x hx => hl.descriptor ?_
  rw [Within, haddr] at hx
  rw [Within]
  omega

/-- A store to the TSS. -/
theorem kept_tss (hl : Linked img) {k : Nat} {bs : List U8} (hk : k + bs.length ≤ 104) :
    Kept img 0 id s (s.store (img.tssEntry + BitVec.ofNat 32 k) bs) := by
  have htop := hl.top
  have hbase := hl.tssEntry
  have hstack := hl.kernelStackTop
  have haddr : (img.tssEntry + BitVec.ofNat 32 k).toNat = img.tssEntry.toNat + k := by
    rw [BitVec.toNat_add, BitVec.toNat_ofNat, Nat.add_mod_mod, Nat.mod_eq_of_lt (by omega)]
  refine kept_store (by omega) fun x hx => hl.table ?_
  rw [Within, haddr] at hx
  omega

/-- Up to the `ltr`. -/
theorem tssInstallBody_kept (hl : Linked img) (u : Sys) :
    Kept img 0 id u (run (tssInstallBody img) u) := by
  have htop := hl.top
  have hbase := hl.tssEntry
  have hstack := hl.kernelStackTop
  have hcount : (104 / 4 : U32).toNat = 26 := rfl
  have hcode : tssInstallBody img =
      [cpu (movImm .eax img.tssEntry), cpu (movImm .ecx 104),
        storeLow16 (img.gdtTss + 2) .eax, cpu (shr .eax 16),
        storeAl (img.gdtTss + 4), storeAh (img.gdtTss + 7),
        storeLow16 img.gdtTss .ecx, poke8 (img.gdtTss + 6) 0x00] ++
      ([cpu (movImm .edi img.tssEntry), cpu (movImm .ecx (104 / 4)), xorSelf .eax,
        rep stosd] ++
      [poke16 (img.tssEntry + 4) 0x10, poke32 (img.tssEntry + 8) img.kernelStackTop,
        cpu (mov16 .eax 0x18)]) := rfl
  rw [hcode, run_append, run_append]
  refine (kept_run ?_ u).trans ((kept_clear ?_ ?_ (fun x hx => hl.table ?_) _).trans
    (kept_run ?_ _))
  · simp only [List.forall_mem_cons]
    have hfirst (s : Sys) : Kept img 0 id s (storeLow16 img.gdtTss .ecx s) := by
      have h := kept_descriptor (s := s) (k := 0) hl
        (show 0 + (bytes16 (s.ecx.setWidth 16)).length ≤ 8 by rw [bytes16_length]; decide)
      rw [BitVec.add_zero] at h
      exact h
    exact ⟨fun s => kept_plain (plain_movImm _ (by decide) s),
      fun s => kept_plain (plain_movImm _ (by decide) s),
      fun s => kept_descriptor (k := 2) hl (by rw [bytes16_length]; decide),
      fun s => kept_plain (plain_shr _ (by decide) s),
      fun s => kept_descriptor (k := 4) hl (Nat.le_add_right 5 3),
      fun s => kept_descriptor (k := 7) hl (Nat.le_refl 8), hfirst,
      fun s => kept_descriptor (k := 6) hl (Nat.le_succ 7), List.forall_mem_nil _⟩
  · rw [hcount]
    omega
  · rw [hcount]
    omega
  · rw [hcount] at hx
    omega
  · simp only [List.forall_mem_cons]
    exact ⟨fun s => kept_tss (k := 4) hl (by rw [bytes16_length]; decide),
      fun s => kept_tss (k := 8) hl (by rw [bytes32_length]; decide),
      fun s => kept_plain (plain_mov16 _ (by decide) s), List.forall_mem_nil _⟩

/-! ### The IDT -/

theorem run_cpu (ops : List Op) (s : Sys) :
    run (ops.map cpu) s = { s with toCpu := exec ops s.toCpu } := by
  induction ops generalizing s with
  | nil => rfl
  | cons op ops ih => exact ih (cpu op s)

theorem setIdtGate_regs (idtStart : U32) (n : Nat) (isr : U32) (sel : U16) (attr : U8)
    (c : Cpu) :
    (exec (setIdtGate idtStart n isr sel attr) c).esp = c.esp ∧
      (exec (setIdtGate idtStart n isr sel attr) c).ebx = c.ebx := by
  obtain ⟨⟩ := c
  exact ⟨rfl, rfl⟩

/-- The macro calls for some vectors. -/
theorem runGates_frame {idtStart : U32} (hfit : idtStart.toNat + 2048 ≤ 2 ^ 32)
    (addr : Label → U32) (gates : List (Nat × Label)) (hlt : ∀ g ∈ gates, g.1 < 256) (c : Cpu) :
    (runGates idtStart addr gates c).esp = c.esp ∧
      (runGates idtStart addr gates c).ebx = c.ebx ∧
      Touches (Within idtStart.toNat (idtStart.toNat + 2048)) c.mem
        (runGates idtStart addr gates c).mem := by
  induction gates generalizing c with
  | nil => exact ⟨rfl, rfl, Touches.refl _⟩
  | cons g gates ih =>
      rw [List.forall_mem_cons] at hlt
      obtain ⟨hesp, hebx⟩ := setIdtGate_regs idtStart g.1 (addr g.2) 0x08 0x8E c
      have hone : Touches (Within idtStart.toNat (idtStart.toNat + 2048)) c.mem
          (exec (setIdtGate idtStart g.1 (addr g.2) 0x08 0x8E) c).mem := by
        intro x hx
        refine setIdtGate_frame _ _ _ _ _ _ ?_
        have hg := hlt.1
        have hgate : (gateAddr idtStart g.1).toNat = idtStart.toNat + 8 * g.1 :=
          offset_toNat (by omega) hfit
        have := x.isLt
        rw [Within] at hx
        rw [BitVec.toNat_sub, hgate]
        omega
      obtain ⟨hesp', hebx', hrest⟩ :=
        ih hlt.2 (exec (setIdtGate idtStart g.1 (addr g.2) 0x08 0x8E) c)
      rw [runGates, List.flatMap_cons, exec_append]
      exact ⟨hesp'.trans hesp, hebx'.trans hebx, hone.trans hrest⟩

theorem populateIdt_kept (hl : Linked img) (u : Sys) :
    Kept img 0 id u (run (populateIdtBody img) u) := by
  have htop := hl.top
  have hfit : img.idtStart.toNat + 2048 ≤ 2 ^ 32 := by omega
  obtain ⟨hesp, hebx, htouch⟩ := runGates_frame hfit img.stub idtGates idtGates_lt u.toCpu
  have hrun : run (populateIdtBody img) u =
      { u with toCpu := runGates img.idtStart img.stub idtGates u.toCpu } := run_cpu _ u
  rw [hrun]
  generalize runGates img.idtStart img.stub idtGates u.toCpu = c at *
  exact ⟨hesp, hebx, htouch.mono fun x hx => Or.inl (hl.idt hx)⟩

theorem picRemap_kept (u : Sys) : Kept img 0 id u (run picRemapBody u) := by
  have hout (port b : U8) : PlainInsn (outImm port b) := fun _ => ⟨rfl, rfl, rfl, rfl, rfl⟩
  exact kept_plain (run_plain (by simp [picRemapBody, hout]) u)

/-- The pointer for `lidt`. -/
theorem idtPtr_kept (hl : Linked img) (u : Sys) :
    Kept img 0 id u (run [cpu (movImm .eax img.idtPtr), pokeAt16 .eax (256 * 8 - 1),
      cpu (movImm .edx img.idtStart), storeAt .eax 2 .edx] u) := by
  have htop := hl.top
  have hbss := hl.bss
  have hboot := hl.bootMessage
  have haddr : (img.idtPtr + 2).toNat = img.idtPtr.toNat + 2 :=
    offset_toNat (i := 2) (n := 6) (by decide) (by omega)
  have hlimit (s : Sys) : Kept img 0 id s (s.store img.idtPtr (bytes16 (256 * 8 - 1))) := by
    refine kept_store (by rw [bytes16_length]; omega) fun x hx => hl.idtr ?_
    rw [Within, bytes16_length] at hx
    rw [Within]
    omega
  have hbase (s : Sys) : Kept img 0 id s (s.store (img.idtPtr + 2) (bytes32 img.idtStart)) := by
    refine kept_store (by rw [bytes32_length]; omega) fun x hx => hl.idtr ?_
    rw [Within, haddr, bytes32_length] at hx
    rw [Within]
    omega
  have heax : Kept img 0 id u (cpu (movImm .eax img.idtPtr) u) :=
    kept_plain (plain_movImm _ (by decide) u)
  have hedx (s : Sys) : Kept img 0 id s (cpu (movImm .edx img.idtStart) s) :=
    kept_plain (plain_movImm _ (by decide) s)
  exact ((heax.trans (hlimit _)).trans (hedx _)).trans (hbase _)

theorem inOrder_cons (f : Routine) (fs : List Routine) (s : Sys) :
    inOrder (f :: fs) s = (f s).bind (inOrder fs) := rfl

theorem StackRoom.push (ra : U32) (hl : Linked img) (h : StackRoom img (n + 4) s.esp) :
    StackRoom img n (cpu (pushVal ra) s).esp := by
  have hbelow := h.below
  have habove := h.above
  obtain ⟨-, hsub⟩ := (h.room hl).sub (Nat.le_refl 4)
  have hsp : (cpu (pushVal ra) s).esp = s.esp - BitVec.ofNat 32 4 := rfl
  rw [← hsp] at hsub
  exact ⟨by omega, by omega⟩

theorem idtInstall_kept {ra : U32} (hl : Linked img) (hs : StackRoom img 8 s.esp) :
    ∃ t, callTo ra (idtInstall img) s = some t ∧ Kept img 8 id s t := by
  have hroom := hs.push (n := 4) ra hl
  have hptr := idtPtr_kept hl (cpu (pushVal ra) s)
  have hhead := hptr.mono (Nat.zero_le 4)
  obtain ⟨v, hv, hpopulate⟩ := callTo_straight _ (img.ra .populateIdt)
    (s := run [cpu (movImm .eax img.idtPtr), pokeAt16 .eax (256 * 8 - 1),
      cpu (movImm .edx img.idtStart), storeAt .eax 2 .edx] (cpu (pushVal ra) s)) hl
    (hptr.esp ▸ hroom) (populateIdt_kept hl)
  have hall := hhead.trans hpopulate
  obtain ⟨w, hw, hremap⟩ := callTo_straight _ (img.ra .picRemap) (s := v) hl
    (hall.esp ▸ hroom) picRemap_kept
  have hlidt : Plain w (lidt img.idtPtr w) := ⟨rfl, rfl, rfl, rfl, rfl⟩
  have hsti : Plain (lidt img.idtPtr w) (cpu sti (lidt img.idtPtr w)) := by
    refine ⟨rfl, rfl, ?_, rfl, rfl⟩
    exact (flag_setBit _ 10 true (by decide)).trans (if_neg (by decide))
  have hbody := (hall.trans hremap).trans (kept_plain (hlidt.trans hsti))
  have hback := Kept.back (n := 4) hl hs hbody
  refine ⟨_, callTo_back (n := 4) (hs.room hl) ?_ hback⟩
  rw [idtInstall, inOrder_cons, straight, Option.bind_some, inOrder_cons, hv, Option.bind_some,
    inOrder_cons, hw, Option.bind_some]
  rfl

/-! ### The timer and the FPU -/

theorem Kept.push {v : U32} (hl : Linked img) (hs : StackRoom img (n + 4) s.esp)
    (h : Kept img n g (cpu (pushVal v) s) t) :
    t.esp = s.esp - 4 ∧
      Touches (fun x => ¬ Needed img x ∨ Below s.esp (n + 4) x) s.mem t.mem :=
  ⟨h.esp, push_touches (hs.room hl) h.touches⟩

theorem Kept.ret {v : U32} (hl : Linked img) (hs : StackRoom img 4 s.esp)
    (h : Kept img 0 g (cpu (pushVal v) s) t) : Kept img 4 g s (X86.ret t) := by
  obtain ⟨hdown, htouch⟩ := Kept.push (n := 0) hl hs h
  refine ⟨?_, h.ebx, htouch⟩
  show t.esp + 4 = _
  rw [hdown, BitVec.sub_add_cancel]

theorem pitInstall_kept {ra : U32} (hl : Linked img) (hs : StackRoom img 12 s.esp) :
    ∃ t, inOrder [straight [cpu (pushByte 100)], callTo ra pitInstall,
        straight [cpu (add .esp 4)]] s = some t ∧
      Kept img 12 (fun _ => pitBaseFrequency) s t := by
  have hempty : OnStack s.toCpu (dwords []) := trivial
  have harg : OnStack (cpu (pushVal 100) s).toCpu (dwords [100]) :=
    hempty.pushVal (show 4 * 0 + 4 ≤ 2 ^ 32 by decide)
  have hentry : OnStack (cpu (pushVal ra) (cpu (pushVal 100) s)).toCpu (dwords [ra, 100]) :=
    harg.pushVal (show 4 * 1 + 4 ≤ 2 ^ 32 by decide)
  obtain ⟨t, ht, heip, hesp, hmem, hebx, -⟩ := pitInstall_spec hentry
  have hsv : StackRoom img 8 (cpu (pushVal 100) s).esp := hs.push (n := 8) 100 hl
  have hsu := hsv.push (n := 4) ra hl
  have hback : Back img 4 (fun _ => pitBaseFrequency)
      (cpu (pushVal ra) (cpu (pushVal 100) s)) t := by
    refine ⟨heip.trans (pushVal_read ra _).symm, hesp, hebx.trans (if_neg (by decide)), ?_⟩
    rw [hmem]
    exact (touches_pushDwords (n := 4) rfl (hsu.room hl).below).mono fun x hx => Or.inr hx
  obtain ⟨hcall, hkept⟩ := callTo_back (n := 4) (hsv.room hl) ht hback
  obtain ⟨hdown, htouch⟩ := Kept.push (n := 8) hl hs hkept
  have hadd (s : Sys) : (cpu (add .esp 4) s).esp = s.esp + 4 ∧
      (cpu (add .esp 4) s).ebx = s.ebx ∧ (cpu (add .esp 4) s).mem = s.mem := by
    obtain ⟨⟨⟩⟩ := s
    exact ⟨rfl, rfl, rfl⟩
  obtain ⟨haesp, haebx, hamem⟩ := hadd t
  refine ⟨cpu (add .esp 4) t, ?_, ?_, haebx.trans hkept.ebx, hamem ▸ htouch⟩
  · have hpush : straight [cpu (pushByte 100)] s = some (cpu (pushVal 100) s) := rfl
    rw [inOrder_cons, hpush, Option.bind_some, inOrder_cons, hcall, Option.bind_some]
    rfl
  · rw [haesp, hdown, BitVec.sub_add_cancel]

theorem fpuSseInstall_kept {ra : U32} (cpuid : U32 → CpuidAnswer) (hl : Linked img)
    (hs : StackRoom img 4 s.esp) :
    ∃ t, callTo ra (fpuSseInstall cpuid) s = some t ∧
      Kept img 4 (fun _ => (cpuid 1).ebx) s t := by
  have htest (u : Sys) : ∃ q, run [fromCr0 .eax, andImm .eax 0xFFFB, orImm .eax 0x20,
      toCr0 .eax, cpu (movImm .eax 1), cpuidInsn cpuid, bt .edx 25] u = q ∧
      Kept img 0 (fun _ => (cpuid 1).ebx) u q :=
    ⟨_, rfl, rfl, rfl, Touches.refl _⟩
  have hcr4 (q : Sys) : Kept img 0 id q
      (run [fromCr4 .eax, orImm .eax 0x00000600, toCr4 .eax, finit] q) :=
    ⟨rfl, rfl, Touches.refl _⟩
  obtain ⟨q, hq, hkept⟩ := htest (cpu (pushVal ra) s)
  by_cases hcf : q.cf = true
  · refine ⟨_, callTo_back (hs.room hl) ?_ (Kept.back hl hs (hkept.trans (hcr4 q)))⟩
    rw [fpuSseInstall, hq]
    exact if_pos hcf
  · refine ⟨_, callTo_back (hs.room hl) ?_ (Kept.back hl hs hkept)⟩
    rw [fpuSseInstall, hq]
    exact if_neg hcf

/-! ### Paging -/

theorem fillTables_kept (hl : Linked img) (u : Sys) :
    Kept img 0 id u (run (fillTables img) u) := by
  have htop := hl.top
  have hstack := hl.kernelStackTop
  have hdir := hl.pageDirectory
  have htable := hl.firstPageTable
  have hcount : (1024 : U32).toNat = 1024 := rfl
  have hcode : fillTables img =
      [cpu (movImm .edi img.pageDirectory), cpu (movImm .ecx 1024), xorSelf .eax, rep stosd] ++
      ([cpu (movImm .edi img.firstPageTable), cpu (movImm .ecx 1024), xorSelf .eax,
        rep stosd] ++
      [cpu (movImm .edi img.firstPageTable), cpu (movImm .ecx 1024),
        cpu (movImm .eax (pageFlagPresent ||| pageFlagReadwrite)), loopBack mapPage]) := rfl
  have hmap (s : Sys) : Kept img 0 id s (run [cpu (movImm .edi img.firstPageTable),
      cpu (movImm .ecx 1024), cpu (movImm .eax (pageFlagPresent ||| pageFlagReadwrite)),
      loopBack mapPage] s) := by
    have hset : ∃ q, run [cpu (movImm .edi img.firstPageTable), cpu (movImm .ecx 1024),
        cpu (movImm .eax (pageFlagPresent ||| pageFlagReadwrite))] s = q ∧
        Plain s q ∧ q.edi = img.firstPageTable ∧ q.ecx = 1024 :=
      ⟨_, rfl, run_plain (by simp) s, rfl, rfl⟩
    obtain ⟨q, hq, hplain, hedi, hecx⟩ := hset
    rw [run_cons, run_cons, run_cons, run_nil] at hq
    rw [run_cons, run_cons, run_cons, hq, run_cons, run_nil, loopBack, hecx,
      if_neg (by decide), hcount]
    refine (kept_plain hplain).trans (kept_repeated_mapPage _ ?_ fun x hx => hl.table ?_)
    · rw [hedi]
      omega
    · rw [hedi] at hx
      omega
  rw [hcode, run_append, run_append]
  refine (kept_clear ?_ ?_ (fun x hx => hl.table ?_) u).trans
    ((kept_clear ?_ ?_ (fun x hx => hl.table ?_) _).trans (hmap _)) <;>
  · rw [hcount] at *
    omega

theorem enablePaging_kept (hl : Linked img) (u : Sys) :
    Kept img 0 id u (run (enablePaging img) u) := by
  have htop := hl.top
  have hstack := hl.kernelStackTop
  have hdir := hl.pageDirectory
  have hentry (s : Sys) : Kept img 0 id s (storeReg img.pageDirectory .eax s) := by
    refine kept_store (by rw [bytes32_length]; omega) fun x hx => hl.table ?_
    rw [Within] at hx
    omega
  have hcr3 : PlainInsn (toCr3 .eax) := fun _ => ⟨rfl, rfl, rfl, rfl, rfl⟩
  have hcr0 : PlainInsn (toCr0 .eax) := fun _ => ⟨rfl, rfl, rfl, rfl, rfl⟩
  have hfrom : PlainInsn (fromCr0 .eax) := fun _ => ⟨rfl, rfl, rfl, rfl, rfl⟩
  refine kept_run ?_ u
  simp only [enablePaging, List.forall_mem_cons]
  exact ⟨fun s => kept_plain (plain_movImm _ (by decide) s),
    fun s => kept_plain (plain_orImm _ (by decide) s), hentry,
    fun s => kept_plain (plain_movImm _ (by decide) s), fun s => kept_plain (hcr3 s),
    fun s => kept_plain (hfrom s), fun s => kept_plain (plain_orImm _ (by decide) s),
    fun s => kept_plain (hcr0 s), List.forall_mem_nil _⟩

theorem pagingInstall_kept {ra : U32} (hl : Linked img) (hs : StackRoom img 4 s.esp) :
    ∃ t, callTo ra (pagingInstall img) s = some t ∧ Kept img 4 id s t := by
  refine callTo_straight _ _ hl hs fun u => ?_
  rw [run_append]
  exact (fillTables_kept hl u).trans (enablePaging_kept hl _)

end

end MicroKernel.Proofs
