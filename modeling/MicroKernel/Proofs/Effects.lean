import MicroKernel.Machine.Control
import MicroKernel.Machine.Segments
import MicroKernel.Proofs.ControlRegs
import MicroKernel.Proofs.Layout
import MicroKernel.Proofs.Paging
import MicroKernel.Proofs.VgaPorts

/-!
# What the routines of the boot path do

Each in the same terms: the areas it touches, the bytes it sends, and what it
makes of the system registers. DF is clear throughout, and stays so. That the
routines return is known (`Install.lean`), so each is judged by the state it
returns in.
-/

namespace MicroKernel.Proofs

open ByteMem X86 MicroKernel.Core Spec

structure Effect (img : Image) (as : List Area) (log : List (U16 × U8)) (c : Control)
    (s t : Sys) : Prop where
  df : t.df = s.df
  ports : t.ports = s.ports ++ log
  control : t.control = c
  only : Only (Area.In img) as s.mem t.mem

section
variable {img : Image} {as bs : List Area} {log log' : List (U16 × U8)} {c c' : Control}
  {s t u : Sys}

theorem Effect.trans (h : Effect img as log c s t) (h' : Effect img bs log' c' t u) :
    Effect img (as ++ bs) (log ++ log') c' s u where
  df := h'.df.trans h.df
  ports := by rw [h'.ports, h.ports, List.append_assoc]
  control := h'.control
  only := h.only.append h'.only

theorem Effect.widen (h : Effect img as log c s t) (hsub : as ⊆ bs) : Effect img bs log c s t :=
  { h with only := h.only.widen hsub }

/-- Two steps that change no system register. -/
theorem Effect.steady (h : Effect img as log s.control s t)
    (h' : Effect img bs log' t.control t u) :
    Effect img (as ++ bs) (log ++ log') s.control s u := by
  have hall := h.trans h'
  rw [h.control] at hall
  exact hall

theorem effect_quiet (hp : Plain s t) (hq : Sends [] s t) : Effect img [] [] s.control s t where
  df := hp.df
  ports := hq.obs
  control := hq.keep
  only := fun x _ => congrFun hp.mem x

/-- A store at an offset in an area. -/
theorem effect_store (a : Area) (k : Nat) (bytes : List U8) (hl : Linked img)
    (ht : TextLinked img) {base : U32} (hbase : base.toNat = a.lo img)
    (hk : k + bytes.length ≤ a.size) (s : Sys) :
    Effect img [a] [] s.control s (s.store (base + BitVec.ofNat 32 k) bytes) where
  df := rfl
  ports := (List.append_nil _).symm
  control := rfl
  only := by
    have hlow := a.low hl ht
    have haddr : (base + BitVec.ofNat 32 k).toNat = base.toNat + k := by
      rw [BitVec.toNat_add, BitVec.toNat_ofNat, Nat.add_mod_mod, Nat.mod_eq_of_lt (by omega)]
    refine (touches_write (by omega)).mono fun x hx => ⟨a, List.mem_singleton_self a, ?_⟩
    rw [Within, haddr] at hx
    rw [Area.In, Within]
    omega

/-! ## Calls -/

theorem StackRoom.below_stack {n : Nat} {sp : U32} (hl : Linked img) (hs : StackRoom img n sp)
    {x : U32} (hx : Below sp n x) : Area.In img .stack x := by
  have hbelow := hs.below
  have habove := hs.above
  have hstack := hl.kernelStackTop
  rw [Below, Within] at hx
  rw [Area.In, Within, Area.lo, Area.size]
  omega

theorem effect_push (hl : Linked img) (hs : StackRoom img 4 s.esp) (v : U32) :
    Effect img [.stack] [] s.control s (cpu (pushVal v) s) where
  df := rfl
  ports := (List.append_nil _).symm
  control := rfl
  only := (touches_push v (hs.room hl) (Nat.le_refl 4)).mono fun _ hx =>
    inAny_of_mem (hs.below_stack hl hx) (List.mem_singleton_self _)

theorem callTo_some {f : Routine} {ra : U32} (h : callTo ra f s = some t) :
    f (cpu (pushVal ra) s) = some t := by
  obtain ⟨u, hu, hret⟩ := Option.bind_eq_some_iff.1 h
  split at hret
  · rw [hu, hret]
  · cases hret

theorem inOrder_some {f : Routine} {fs : List Routine} (h : inOrder (f :: fs) s = some t) :
    ∃ u, f s = some u ∧ inOrder fs u = some t := by
  rw [inOrder_cons] at h
  exact Option.bind_eq_some_iff.1 h

theorem effect_callTo (ra : U32) (hl : Linked img) (hs : StackRoom img 4 s.esp)
    (hf : Effect img as log c (cpu (pushVal ra) s) t) : Effect img (.stack :: as) log c s t :=
  (effect_push hl hs ra).trans hf

theorem effect_ret (h : Effect img as log c s t) : Effect img as log c s (ret t) :=
  ⟨h.df, h.ports, h.control, h.only⟩

/-- A call of straight code. -/
theorem effect_straightCall (code : List Insn) {ra : U32} (hl : Linked img)
    (hs : StackRoom img 4 s.esp) (hcall : callTo ra (straight (code ++ [ret])) s = some t)
    (h : Effect img as log c (cpu (pushVal ra) s) (run code (cpu (pushVal ra) s))) :
    Effect img (.stack :: as) log c s t ∧ t.mem = (run code (cpu (pushVal ra) s)).mem := by
  have hend := callTo_some hcall
  rw [straight, run_append] at hend
  obtain rfl := Option.some.inj hend
  exact ⟨effect_callTo ra hl hs (effect_ret h), rfl⟩

/-! ## The segments -/

theorem gdtHeld_settled (hl : Linked img) (ht : TextLinked img) :
    SettledIn (Area.In img) [.text] (GdtHeld img) := by
  have hlow := ht.low
  have htop := Area.low hl ht .text
  have hstart := gdtStart_toNat ht
  have hlen : (gdtBytes ++ gdtPtrBytes img).length = 30 := rfl
  rw [Area.lo, Area.size] at htop
  refine settledIn_holds Area.text (by omega) fun x hx => ?_
  rw [hlen, hstart] at hx
  exact hx

/-- The segment registers as `gdt_install` loads them. -/
def flatControl (c : Control) (gdtr : U16 × U32) : Control :=
  { c with cs := 0x08, ds := 0x10, es := 0x10, fs := 0x10, gs := 0x10, ss := 0x10, gdtr }

/-- Up to the `ret` of `gdt_install`. -/
theorem loadSegments_effect (h : GdtHeld img s.mem) :
    Effect img [] [] (flatControl s.control (23, img.gdtStart)) s
      (run [lgdt img.gdtPtr, cpu (mov16 .eax 0x10), cpu (movSeg .ds .eax), cpu (movSeg .es .eax),
        cpu (movSeg .fs .eax), cpu (movSeg .gs .eax), movSs .eax, farJump 0x08] s) := by
  obtain ⟨hlimit, hbase⟩ := h.pointer
  have hlow : (setLow s.eax 0x10).setWidth 16 = 0x10 := setLow_low _ _
  refine ⟨rfl, (List.append_nil _).symm, ?_, Touches.refl _⟩
  show ({ s.control with
    cs := 0x08, ds := (setLow s.eax 0x10).setWidth 16, es := (setLow s.eax 0x10).setWidth 16
    fs := (setLow s.eax 0x10).setWidth 16, gs := (setLow s.eax 0x10).setWidth 16
    ss := (setLow s.eax 0x10).setWidth 16
    gdtr := (s.mem.read16 img.gdtPtr, s.mem.read32 (img.gdtPtr + 2)) } : Control) = _
  rw [hlow, hlimit, hbase]
  rfl

theorem gdtInstall_effect {ra : U32} (hl : Linked img) (ht : TextLinked img)
    (hs : StackRoom img 4 s.esp) (hgdt : GdtHeld img s.mem)
    (hcall : callTo ra (gdtInstall img) s = some t) :
    Effect img [.stack] [] (flatControl s.control (23, img.gdtStart)) s t := by
  have hkept := (gdtHeld_settled hl ht).keeps (Area.parted hl ht) (effect_push hl hs ra).only
    (by decide) hgdt
  exact (effect_straightCall [lgdt img.gdtPtr, cpu (mov16 .eax 0x10), cpu (movSeg .ds .eax),
    cpu (movSeg .es .eax), cpu (movSeg .fs .eax), cpu (movSeg .gs .eax), movSs .eax,
    farJump 0x08] hl hs hcall (loadSegments_effect hkept)).1

/-! ## The TSS -/

/-- What its descriptor says in the end. -/
def tssDescriptor (img : Image) : Descriptor :=
  { base := img.tssEntry, limit := 104, access := 0x89, flags := 0 }

def tssDwords (img : Image) : List U32 :=
  0 :: 0x10 :: img.kernelStackTop :: List.replicate 23 0

def TaskHeld (img : Image) (m : PhysMem) : Prop :=
  Holds m img.gdtTss (tssDescriptor img).bytes ∧ Holds m img.tssEntry (dwords (tssDwords img))

theorem descriptor_settled (hl : Linked img) (ht : TextLinked img) {bytes : List U8}
    (h : bytes.length = 8) :
    SettledIn (Area.In img) [.task] fun m => Holds m img.gdtTss bytes := by
  have hlow := Area.low hl ht .task
  simp only [Area.lo, Area.size] at hlow
  refine settledIn_holds Area.task (by omega) fun x hx => ?_
  rw [h] at hx
  exact hx

theorem taskHeld_settled (hl : Linked img) (ht : TextLinked img) :
    SettledIn (Area.In img) [.task, .tss] (TaskHeld img) := by
  have htss := Area.low hl ht .tss
  have hdwords : (dwords (tssDwords img)).length = 104 := rfl
  simp only [Area.lo, Area.size] at htss
  have hfirst : SettledIn (Area.In img) [.task] fun m =>
      Holds m img.gdtTss (tssDescriptor img).bytes := descriptor_settled hl ht rfl
  have hsecond : SettledIn (Area.In img) [.tss] fun m =>
      Holds m img.tssEntry (dwords (tssDwords img)) :=
    settledIn_holds Area.tss (by omega) fun _ hx => hx
  exact hfirst.and hsecond

/-- Straight code that touches one area and no system register. -/
theorem effect_run {code : List Insn}
    (h : ∀ i ∈ code, ∀ s, Effect img as [] s.control s (i s)) (s : Sys) :
    Effect img as [] s.control s (run code s) := by
  induction code generalizing s with
  | nil => exact ⟨rfl, (List.append_nil _).symm, rfl, Touches.refl _⟩
  | cons i code ih =>
      rw [List.forall_mem_cons] at h
      exact ((h.1 s).steady (ih h.2 (i s))).widen
        (List.append_subset.2 ⟨List.Subset.refl _, List.Subset.refl _⟩)

theorem effect_plain {i : Insn} (hp : PlainInsn i) (hq : QuietInsn i) (s : Sys) :
    Effect img as [] s.control s (i s) :=
  (effect_quiet (hp s) (hq s)).widen (List.nil_subset _)

/-- The stores to the descriptor. -/
def describeTss (img : Image) : List Insn :=
  [cpu (movImm .eax img.tssEntry), cpu (movImm .ecx 104),
    storeLow16 (img.gdtTss + 2) .eax, cpu (shr .eax 16),
    storeAl (img.gdtTss + 4), storeAh (img.gdtTss + 7),
    storeLow16 img.gdtTss .ecx, poke8 (img.gdtTss + 6) 0x00]

theorem describeTss_effect (hl : Linked img) (ht : TextLinked img) (s : Sys) :
    Effect img [.task] [] s.control s (run (describeTss img) s) := by
  refine effect_run ?_ s
  simp only [describeTss, List.forall_mem_cons]
  have hfirst (s : Sys) : Effect img [.task] [] s.control s (storeLow16 img.gdtTss .ecx s) := by
    have hbase : img.gdtTss.toNat = Area.lo img .task := rfl
    have h := effect_store .task 0 (bytes16 (s.ecx.setWidth 16)) hl ht hbase
      (show 0 + 2 ≤ 8 by decide) s
    rw [BitVec.add_zero] at h
    exact h
  exact ⟨effect_plain (plain_movImm _ (by decide)) (quiet_movImm _),
    effect_plain (plain_movImm _ (by decide)) (quiet_movImm _),
    fun s => effect_store .task 2 (bytes16 (s.eax.setWidth 16)) hl ht rfl
      (show 2 + 2 ≤ 8 by decide) s,
    effect_plain (plain_shr _ (by decide)) (quiet_shr _),
    fun s => effect_store .task 4 [lowByte s.eax] hl ht rfl (show 4 + 1 ≤ 8 by decide) s,
    fun s => effect_store .task 7 [highByte s.eax] hl ht rfl (show 7 + 1 ≤ 8 by decide) s, hfirst,
    fun s => effect_store .task 6 [0] hl ht rfl (by decide) s, List.forall_mem_nil _⟩

/-- The eight bytes, as one store after the other changes them. -/
theorem descriptor_stores {m : PhysMem} {g : U32} {a b c d e f o p x y z v r q u : U8}
    (h : Holds m g [a, b, c, d, e, f, o, p]) :
    Holds (ByteMem.write (ByteMem.write (ByteMem.write (ByteMem.write (ByteMem.write
      m (g + 2) [x, y]) (g + 4) [z]) (g + 7) [v]) g [r, q]) (g + 6) [u])
      g [r, q, x, y, z, f, u, v] := by
  have hfit : 8 ≤ 2 ^ 32 := by decide
  have hbase := Holds.splice [a, b] [c, d] [x, y] [e, f, o, p] h rfl rfl hfit
  have hmiddle := Holds.splice [a, b, x, y] [e] [z] [f, o, p] hbase rfl rfl hfit
  have hhigh := Holds.splice [a, b, x, y, z, f, o] [p] [v] [] hmiddle rfl rfl hfit
  have hlimit := Holds.splice [] [a, b] [r, q] [x, y, z, f, o, v] hhigh
    (BitVec.add_zero g).symm rfl hfit
  exact Holds.splice [r, q, x, y, z, f] [o] [u] [v] hlimit rfl rfl hfit

theorem base_bytes (b : U32) :
    lowByte (b >>> 16) = b.extractLsb' 16 8 ∧ highByte (b >>> 16) = b.extractLsb' 24 8 := by
  constructor <;> apply BitVec.eq_of_toNat_eq <;>
  simp only [lowByte, highByte, BitVec.extractLsb'_toNat, BitVec.toNat_setWidth,
    BitVec.toNat_ushiftRight, Nat.shiftRight_eq_div_pow, Nat.div_div_eq_div_mul]

theorem bytes16_eq (v : U16) :
    bytes16 v = [BitVec.ofNat 8 v.toNat, BitVec.ofNat 8 (v.toNat / 256)] := rfl

theorem describeTss_held (h : Holds s.mem img.gdtTss gdtTssBytes) :
    Holds (run (describeTss img) s).mem img.gdtTss (tssDescriptor img).bytes := by
  obtain ⟨hmiddle, hhigh⟩ := base_bytes img.tssEntry
  have hmem : (run (describeTss img) s).mem =
      ByteMem.write (ByteMem.write (ByteMem.write (ByteMem.write (ByteMem.write
        s.mem (img.gdtTss + 2) (bytes16 (img.tssEntry.setWidth 16)))
        (img.gdtTss + 4) [lowByte (img.tssEntry >>> 16)])
        (img.gdtTss + 7) [highByte (img.tssEntry >>> 16)])
        img.gdtTss (bytes16 104)) (img.gdtTss + 6) [0] := rfl
  have hlimit : (104 : BitVec 20).setWidth 16 = (104 : U16) := by decide
  have hflags : (0 : BitVec 4) ++ (104 : BitVec 20).extractLsb' 16 4 = (0 : U8) := by decide
  rw [hmem, hmiddle, hhigh]
  simp only [Descriptor.bytes, tssDescriptor, hlimit, hflags, bytes16_eq]
  exact descriptor_stores h

theorem effect_filled (a : Area) {base : U32} {n : Nat} {entry : Nat → U32}
    (hbase : base.toNat = a.lo img) (hn : 4 * n ≤ a.size) (h : Filled base n entry s t)
    (hq : Sends [] s t) : Effect img [a] [] s.control s t where
  df := h.df
  ports := hq.obs
  control := hq.keep
  only := h.touches.mono fun x hx => by
    refine ⟨a, List.mem_singleton_self a, ?_⟩
    rw [Within, hbase] at hx
    rw [Area.In, Within]
    omega

theorem holds_dwords {m : PhysMem} {a : U32} {ws : List U32}
    (h : ∀ k (hk : k < ws.length), m.read32 (a + BitVec.ofNat 32 (4 * k)) = ws[k]) :
    Holds m a (dwords ws) := by
  induction ws generalizing a with
  | nil => trivial
  | cons w ws ih =>
      rw [dwords_cons, holds_append, bytes32_length]
      have hfirst : m.read32 a = w := by
        rw [← BitVec.add_zero a]
        exact h 0 (Nat.succ_pos _)
      refine ⟨hfirst ▸ bytes32_read32 m a, ih fun k hk => ?_⟩
      have hnext := h (k + 1) (Nat.succ_lt_succ hk)
      rw [next_dword] at hnext
      exact hnext

/-- The second half of the first dword and the dword behind it. -/
theorem tssDwords_stores {m : PhysMem} (h : Holds m img.tssEntry (dwords (List.replicate 26 0))) :
    Holds (ByteMem.write (ByteMem.write m (img.tssEntry + 4) (bytes16 0x10))
      (img.tssEntry + 8) (bytes32 img.kernelStackTop)) img.tssEntry (dwords (tssDwords img)) := by
  have hfit : 104 ≤ 2 ^ 32 := by decide
  have hpointer := Holds.splice (bytes32 0) (bytes16 0) (bytes16 0x10)
    (bytes16 0 ++ bytes32 0 ++ dwords (List.replicate 23 0)) h rfl rfl hfit
  exact Holds.splice (bytes32 0 ++ bytes16 0x10 ++ bytes16 0) (bytes32 0)
    (bytes32 img.kernelStackTop) (dwords (List.replicate 23 0)) hpointer rfl rfl hfit

theorem quiet_rep_stosd : QuietInsn (rep stosd) := fun s =>
  quiet_repeated stosd (fun _ => .of_eq rfl rfl) s.ecx.toNat s

/-- An area cleared. -/
theorem clear_effect (a : Area) (base c : U32) (hbase : base.toNat = a.lo img)
    (hc : 4 * c.toNat ≤ a.size) (hl : Linked img) (ht : TextLinked img) (hdf : s.df = false) :
    ∃ t, run [cpu (movImm .edi base), cpu (movImm .ecx c), xorSelf .eax, rep stosd] s = t ∧
      Effect img [a] [] s.control s t ∧ Filled base c.toNat (fun _ => 0) s t := by
  have hlow := a.low hl ht
  obtain ⟨t, hrun, hfilled⟩ := clear_filled (a := base) (c := c) hdf (by omega)
  have hquiet : Sends [] s
      (run [cpu (movImm .edi base), cpu (movImm .ecx c), xorSelf .eax, rep stosd] s) :=
    run_quiet (by simp [quiet_rep_stosd]) s
  exact ⟨t, hrun, effect_filled a hbase hc hfilled (hrun ▸ hquiet), hfilled⟩

theorem tssInstallBody_effect (hl : Linked img) (ht : TextLinked img) (hdf : s.df = false)
    (htss : Holds s.mem img.gdtTss gdtTssBytes) :
    Effect img [.task, .tss] [] s.control s (run (tssInstallBody img) s) ∧
      TaskHeld img (run (tssInstallBody img) s).mem := by
  have hparted := Area.parted hl ht
  have hcode : tssInstallBody img = describeTss img ++
      ([cpu (movImm .edi img.tssEntry), cpu (movImm .ecx (104 / 4)), xorSelf .eax, rep stosd] ++
      ([poke16 (img.tssEntry + 4) 0x10, poke32 (img.tssEntry + 8) img.kernelStackTop] ++
      [cpu (mov16 .eax 0x18)])) := rfl
  rw [hcode, run_append, run_append, run_append]
  have hdescribe := describeTss_effect hl ht s
  have hheld := describeTss_held htss
  generalize run (describeTss img) s = v at *
  obtain ⟨w, hw, hclear, hfilled⟩ := clear_effect .tss img.tssEntry (104 / 4) rfl (by decide)
    hl ht (hdescribe.df.trans hdf)
  rw [hw]
  have hzero : Holds w.mem img.tssEntry (dwords (List.replicate 26 0)) :=
    holds_dwords fun k hk => (hfilled.dword k hk).trans (List.getElem_replicate hk).symm
  have hpokes : Effect img [.tss] [] w.control w
      (run [poke16 (img.tssEntry + 4) 0x10, poke32 (img.tssEntry + 8) img.kernelStackTop] w) := by
    refine effect_run ?_ w
    simp only [List.forall_mem_cons]
    exact ⟨effect_store .tss 4 (bytes16 0x10) hl ht rfl (by decide),
      effect_store .tss 8 (bytes32 img.kernelStackTop) hl ht rfl
        (by rw [bytes32_length]; decide),
      List.forall_mem_nil _⟩
  have htask : Holds (run [poke16 (img.tssEntry + 4) 0x10, poke32 (img.tssEntry + 8)
      img.kernelStackTop] w).mem img.tssEntry (dwords (tssDwords img)) := tssDwords_stores hzero
  generalize run [poke16 (img.tssEntry + 4) 0x10, poke32 (img.tssEntry + 8)
    img.kernelStackTop] w = x at *
  have hdescriptor := (descriptor_settled hl ht rfl).keeps hparted (hclear.steady hpokes).only
    (by decide) hheld
  have hselector : Effect img [] [] x.control x (run [cpu (mov16 .eax 0x18)] x) :=
    effect_plain (plain_mov16 _ (by decide)) (quiet_mov16 _) x
  exact ⟨(((hdescribe.steady hclear).steady hpokes).steady hselector).widen (by decide),
    hdescriptor, htask⟩

/-- In `tss_install`, before the `ltr`. -/
def atLtr (img : Image) (s : Sys) : Sys :=
  run (tssInstallBody img) (cpu (pushVal (img.ra .tssInstall)) s)

theorem atLtr_effect (hl : Linked img) (ht : TextLinked img) (hs : StackRoom img 4 s.esp)
    (hdf : s.df = false) (htss : Holds s.mem img.gdtTss gdtTssBytes) :
    Effect img [.stack, .task, .tss] [] s.control s (atLtr img s) ∧
      TaskHeld img (atLtr img s).mem := by
  have hpush := effect_push hl hs (img.ra .tssInstall)
  have hkept := (descriptor_settled hl ht rfl).keeps (Area.parted hl ht) hpush.only (by decide)
    htss
  obtain ⟨hrun, hheld⟩ := tssInstallBody_effect hl ht (hpush.df.trans hdf) hkept
  exact ⟨hpush.steady hrun, hheld⟩

/-- Whichever way DF points, the system registers are as they were, and the GDT as well;
what `ltr` is given is in AX. -/
theorem atLtr_regs (hl : Linked img) (ht : TextLinked img) (hs : StackRoom img 4 s.esp)
    (hgdt : GdtHeld img s.mem) :
    (atLtr img s).control = s.control ∧ ((atLtr img s).get .eax).setWidth 16 = (0x18 : U16) ∧
      GdtHeld img (atLtr img s).mem := by
  have hpush : Sends [] s (cpu (pushVal (img.ra .tssInstall)) s) := .of_eq rfl rfl
  have hrun : Sends [] (cpu (pushVal (img.ra .tssInstall)) s) (atLtr img s) :=
    run_quiet (by simp [tssInstallBody, quiet_rep_stosd]) _
  have hbody := tssInstallBody_kept hl (cpu (pushVal (img.ra .tssInstall)) s)
  have htouch := push_touches (hs.room hl) hbody.touches
  have hstack := hl.kernelStackTop
  have hbss := hl.bss
  have hboot := hl.bootMessage
  have hbelow := hs.below
  refine ⟨(hpush.quiet hrun).keep, ?_, hgdt.touches hl ht htouch fun x hx => ?_⟩
  · have hcode : tssInstallBody img =
        (tssInstallBody img).dropLast ++ [cpu (mov16 .eax 0x18)] := rfl
    rw [atLtr, hcode, run_append]
    exact setLow_low ..
  · rw [Within] at hx
    rw [Needed, Below, Within, Within, Within, Within, Within]
    omega

/-! ## The IDT -/

/-- What `lidt` is given. -/
def IdtPtrHeld (img : Image) (m : PhysMem) : Prop :=
  Holds m img.idtPtr (bytes16 (256 * 8 - 1) ++ bytes32 img.idtStart)

/-- Every gate: those of the list, and the others as the loader clears them. -/
structure GatesHeld (img : Image) (m : PhysMem) : Prop where
  present : ∀ g ∈ idtGates, Holds m (gateAddr img.idtStart g.1) (gateBytes (img.stub g.2) 0x08 0x8E)
  absent : ∀ k < 256, k ∉ idtGates.map (·.1) →
    Holds m (gateAddr img.idtStart k) (List.replicate 8 0)

theorem idtPtrHeld_settled (hl : Linked img) (ht : TextLinked img) :
    SettledIn (Area.In img) [.idtPtr] (IdtPtrHeld img) := by
  have hlow := Area.low hl ht .idtPtr
  have hlen : (bytes16 (256 * 8 - 1) ++ bytes32 img.idtStart).length = 6 := rfl
  simp only [Area.lo, Area.size] at hlow
  exact settledIn_holds Area.idtPtr (by omega) fun _ hx => hx

theorem gate_settled (hl : Linked img) (ht : TextLinked img) {k : Nat} (hk : k < 256)
    {bytes : List U8} (h : bytes.length = 8) :
    SettledIn (Area.In img) [.idt] fun m => Holds m (gateAddr img.idtStart k) bytes := by
  have hlow := Area.low hl ht .idt
  simp only [Area.lo, Area.size] at hlow
  have haddr : (gateAddr img.idtStart k).toNat = img.idtStart.toNat + 8 * k :=
    offset_toNat (n := 2048) (by omega) (by omega)
  refine settledIn_holds Area.idt (by omega) fun x hx => ?_
  rw [Within, h, haddr] at hx
  rw [Area.In, Within, Area.lo, Area.size]
  omega

theorem gateBytes_length (isr : U32) (sel : U16) (attr : U8) :
    (gateBytes isr sel attr).length = 8 := rfl

theorem gatesHeld_settled (hl : Linked img) (ht : TextLinked img) :
    SettledIn (Area.In img) [.idt] (GatesHeld img) := by
  intro m m' hsame h
  refine ⟨fun g hg => ?_, fun k hk hout => ?_⟩
  · exact gate_settled hl ht (idtGates_lt g hg) (gateBytes_length ..) m m' hsame (h.present g hg)
  · exact gate_settled hl ht hk List.length_replicate m m' hsame (h.absent k hk hout)

theorem idtPtr_effect (hl : Linked img) (ht : TextLinked img) (s : Sys) :
    let t := run [cpu (movImm .eax img.idtPtr), pokeAt16 .eax (256 * 8 - 1),
      cpu (movImm .edx img.idtStart), storeAt .eax 2 .edx] s
    Effect img [.idtPtr] [] s.control s t ∧ IdtPtrHeld img t.mem := by
  have hlimit (s : Sys) : Effect img [.idtPtr] [] s.control s
      (s.store img.idtPtr (bytes16 (256 * 8 - 1))) := by
    have h := effect_store .idtPtr 0 (bytes16 (256 * 8 - 1)) hl ht rfl (by decide) s
    rw [BitVec.add_zero] at h
    exact h
  have hbase (s : Sys) : Effect img [.idtPtr] [] s.control s
      (s.store (img.idtPtr + BitVec.ofNat 32 2) (bytes32 img.idtStart)) :=
    effect_store .idtPtr 2 _ hl ht rfl (by rw [bytes32_length]; decide) s
  have heax : Effect img [.idtPtr] [] s.control s (cpu (movImm .eax img.idtPtr) s) :=
    effect_plain (plain_movImm _ (by decide)) (quiet_movImm _) s
  have hedx (s : Sys) : Effect img [.idtPtr] [] s.control s (cpu (movImm .edx img.idtStart) s) :=
    effect_plain (plain_movImm _ (by decide)) (quiet_movImm _) s
  have hall := ((heax.steady (hlimit _)).steady (hedx _)).steady (hbase _)
  refine ⟨hall.widen (by decide), ?_⟩
  have hwritten : Holds (ByteMem.write s.mem img.idtPtr (bytes16 (256 * 8 - 1))) img.idtPtr
      (bytes16 (256 * 8 - 1)) := holds_write (by decide)
  exact hwritten.write_after rfl (by rw [bytes32_length]; decide)

theorem setIdtGate_df (idtStart : U32) (n : Nat) (isr : U32) (sel : U16) (attr : U8) (c : Cpu) :
    (exec (setIdtGate idtStart n isr sel attr) c).df = c.df := by
  obtain ⟨⟩ := c
  exact df_shrFlags ..

theorem runGates_df (idtStart : U32) (addr : Label → U32) (gates : List (Nat × Label)) (c : Cpu) :
    (runGates idtStart addr gates c).df = c.df := by
  induction gates generalizing c with
  | nil => rfl
  | cons g gates ih =>
      rw [runGates, List.flatMap_cons, exec_append]
      exact (ih _).trans (setIdtGate_df ..)

theorem quiet_setIdtGate (idtStart : U32) (n : Nat) (isr : U32) (sel : U16) (attr : U8) :
    ∀ op ∈ setIdtGate idtStart n isr sel attr, QuietInsn (cpu op) := by
  have hstore (a : U32) (r : Reg) : QuietInsn (cpu (store16 a r)) := fun _ => .of_eq rfl rfl
  have himm16 (a : U32) (v : U16) : QuietInsn (cpu (store16Imm a v)) := fun _ => .of_eq rfl rfl
  have himm8 (a : U32) (v : U8) : QuietInsn (cpu (store8Imm a v)) := fun _ => .of_eq rfl rfl
  have hlow : QuietInsn (cpu (movLow .edx .edx)) := fun _ => .of_eq rfl rfl
  simp [setIdtGate, hstore, himm16, himm8, hlow]

theorem populateIdt_effect (hl : Linked img) (ht : TextLinked img)
    (hzero : Holds s.mem img.idtStart (List.replicate 2048 0)) :
    Effect img [.idt] [] s.control s (run (populateIdtBody img) s) ∧
      GatesHeld img (run (populateIdtBody img) s).mem := by
  have hlow := Area.low hl ht .idt
  simp only [Area.lo, Area.size] at hlow
  have hfit : img.idtStart.toNat + 2048 ≤ 2 ^ 32 := by omega
  obtain ⟨-, -, htouch⟩ := runGates_frame hfit img.stub idtGates idtGates_lt s.toCpu
  have hdf := runGates_df img.idtStart img.stub idtGates s.toCpu
  have hquiet : Sends [] s (run (populateIdtBody img) s) := by
    refine run_quiet (fun i hi => ?_) s
    obtain ⟨op, hop, rfl⟩ := List.mem_map.1 hi
    obtain ⟨g, -, hg⟩ := List.mem_flatMap.1 hop
    exact quiet_setIdtGate _ _ _ _ _ op hg
  have hrun : run (populateIdtBody img) s =
      { s with toCpu := runGates img.idtStart img.stub idtGates s.toCpu } := run_cpu _ s
  have hpresent := runGates_holds img.idtStart img.stub idtGates s.toCpu idtGates_lt
    idtGates_nodup
  have habsent : ∀ k < 256, k ∉ idtGates.map (·.1) →
      Holds (runGates img.idtStart img.stub idtGates s.toCpu).mem (gateAddr img.idtStart k)
        (List.replicate 8 0) := by
    intro k hk hout
    refine runGates_other _ _ hk List.length_replicate idtGates s.toCpu (fun g hg => ?_) ?_
    · exact ⟨idtGates_lt g hg, fun h => hout (h ▸ List.mem_map_of_mem hg)⟩
    · rw [holds_iff] at hzero ⊢
      intro i hi
      rw [List.length_replicate] at hi
      have hbyte := hzero (8 * k + i) (by rw [List.length_replicate]; omega)
      rw [List.getElem_replicate] at hbyte ⊢
      rw [gateAddr, BitVec.add_assoc, ← BitVec.ofNat_add]
      exact hbyte
  rw [hrun] at hquiet ⊢
  generalize runGates img.idtStart img.stub idtGates s.toCpu = c at *
  refine ⟨⟨hdf, hquiet.obs, hquiet.keep, htouch.mono fun x hx => ?_⟩, hpresent, habsent⟩
  exact ⟨.idt, List.mem_singleton_self _, hx⟩

theorem effect_outs (img : Image) (l : List (U8 × U8)) (s : Sys) :
    Effect img [] (l.map fun p => (p.1.setWidth 16, p.2)) s.control s
      (run (l.map fun p => outImm p.1 p.2) s) := by
  induction l generalizing s with
  | nil => exact ⟨rfl, (List.append_nil _).symm, rfl, Touches.refl _⟩
  | cons p l ih =>
      have hfirst : Effect img [] [(p.1.setWidth 16, p.2)] s.control s (outImm p.1 p.2 s) :=
        ⟨rfl, rfl, rfl, Touches.refl _⟩
      exact hfirst.trans (ih (outImm p.1 p.2 s))

/-- The bytes of `pic_remap`. -/
def picRemapBytes : List (U16 × U8) :=
  [(0x20, 0x11), (0xA0, 0x11), (0x21, 0x20), (0xA1, 0x28), (0x21, 0x04), (0xA1, 0x02),
    (0x21, 0x01), (0xA1, 0x01), (0x21, 0xFF), (0xA1, 0xFF)]

theorem picRemap_effect (img : Image) (s : Sys) :
    Effect img [] picRemapBytes s.control s (run picRemapBody s) :=
  effect_outs img [(0x20, 0x11), (0xA0, 0x11), (0x21, 0x20), (0xA1, 0x28), (0x21, 0x04),
    (0xA1, 0x02), (0x21, 0x01), (0xA1, 0x01), (0x21, 0xFF), (0xA1, 0xFF)] s

theorem zeroIdt_settled (hl : Linked img) (ht : TextLinked img) :
    SettledIn (Area.In img) [.idt] fun m => Holds m img.idtStart (List.replicate 2048 0) := by
  have hlow := Area.low hl ht .idt
  simp only [Area.lo, Area.size] at hlow
  refine settledIn_holds Area.idt (by rw [List.length_replicate]; omega) fun x hx => ?_
  rw [List.length_replicate] at hx
  exact hx

/-- `lidt`, and interrupts on. -/
theorem loadIdt_effect (h : IdtPtrHeld img s.mem) :
    Effect img [] [] { s.control with idtr := (256 * 8 - 1, img.idtStart) } s
      (run [lidt img.idtPtr, cpu sti, ret] s) := by
  rw [IdtPtrHeld, holds_append, bytes16_length] at h
  have hbase : s.mem.read32 (img.idtPtr + 2) = img.idtStart := read32_of_holds h.2
  have hdf : (run [lidt img.idtPtr, cpu sti, ret] s).df = s.df :=
    (flag_setBit _ 10 true (by decide)).trans (if_neg (by decide))
  have hcontrol : (run [lidt img.idtPtr, cpu sti, ret] s).control =
      { s.control with idtr := (s.mem.read16 img.idtPtr, s.mem.read32 (img.idtPtr + 2)) } := rfl
  rw [read16_of_holds h.1, hbase] at hcontrol
  exact ⟨hdf, (List.append_nil _).symm, hcontrol, Touches.refl _⟩

theorem idtInstall_effect {ra : U32} (hl : Linked img) (ht : TextLinked img)
    (hs : StackRoom img 8 s.esp) (hzero : Holds s.mem img.idtStart (List.replicate 2048 0))
    (hcall : callTo ra (idtInstall img) s = some t) :
    Effect img [.stack, .idtPtr, .idt] picRemapBytes
        { s.control with idtr := (256 * 8 - 1, img.idtStart) } s t ∧
      GatesHeld img t.mem := by
  have hparted := Area.parted hl ht
  have hpush := effect_push hl (hs.mono (by decide)) ra
  have hroom := hs.push (n := 4) ra hl
  have hbody := callTo_some hcall
  generalize cpu (pushVal ra) s = u at *
  obtain ⟨v, hv, hbody⟩ := inOrder_some hbody
  obtain ⟨w, hw, hbody⟩ := inOrder_some hbody
  obtain ⟨x, hx, hbody⟩ := inOrder_some hbody
  obtain ⟨y, hy, hend⟩ := inOrder_some hbody
  obtain rfl := Option.some.inj hend
  obtain rfl := Option.some.inj hy
  have hkept := idtPtr_kept hl u
  obtain ⟨hptr, hptrHeld⟩ := idtPtr_effect hl ht u
  rw [Option.some.inj hv] at hkept hptr hptrHeld
  rw [← hkept.esp] at hroom
  obtain ⟨w', hw', hkept'⟩ := callTo_straight _ (img.ra .populateIdt) hl hroom
    (populateIdt_kept hl)
  obtain rfl := Option.some.inj (hw'.symm.trans hw)
  have hentry := effect_push hl hroom (img.ra .populateIdt)
  obtain ⟨hrun, hgates⟩ := populateIdt_effect hl ht ((zeroIdt_settled hl ht).keeps hparted
    ((hpush.steady hptr).steady hentry).only (by decide) hzero)
  obtain ⟨hpopulate, hmem⟩ := effect_straightCall _ hl hroom hw hrun
  rw [← hmem] at hgates
  rw [← hkept'.esp] at hroom
  obtain ⟨hremap, -⟩ := effect_straightCall _ hl hroom hx (picRemap_effect img _)
  have hcalls := hpopulate.trans hremap
  have hlidt := loadIdt_effect
    ((idtPtrHeld_settled hl ht).keeps hparted hcalls.only (by decide) hptrHeld)
  have hall := ((hpush.steady hptr).steady hpopulate).steady hremap
  rw [hall.control] at hlidt
  exact ⟨(hall.trans hlidt).widen (by decide),
    (gatesHeld_settled hl ht).keeps hparted (hremap.trans hlidt).only (by decide) hgates⟩

/-! ## The timer and the FPU -/

/-- DF and the system registers. -/
def Sys.status (s : Sys) : Bool × Control := (s.df, s.control)

theorem pitInstall_status (h : pitInstall s = some t) : Sys.status t = Sys.status s := by
  have hpush (q : Sys) : Sys.status (cpu (push .ebp) q) = Sys.status q := rfl
  have hframe (q : Sys) : Sys.status (cpu (mov .ebp .esp) q) = Sys.status q := rfl
  have hload (q : Sys) : Sys.status (loadAt .eax .ebp 8 q) = Sys.status q := rfl
  have hcmp (q : Sys) : Sys.status (cmpImm .eax 0 q) = Sys.status q :=
    Prod.ext (df_cmpFlags ..) rfl
  have hexit (q : Sys) : Sys.status (run [cpu (mov .esp .ebp), cpu (pop .ebp), ret] q) =
      Sys.status q := rfl
  have hset (q : Sys) : Sys.status (run [cpu (movImm .edx 0),
      cpu (movImm .ebx pitBaseFrequency)] q) = Sys.status q := rfl
  have hsend (q : Sys) : Sys.status (run [cpu (mov .ecx .eax), movAl 0x36, outAl 0x43,
      movAlLow .ecx, outAl 0x40, movAlHigh .ecx, outAl 0x40] q) = Sys.status q := rfl
  have htest : Sys.status (run [cpu (push .ebp), cpu (mov .ebp .esp), loadAt .eax .ebp 8,
      cmpImm .eax 0] s) = Sys.status s :=
    (hcmp _).trans ((hload _).trans ((hframe _).trans (hpush s)))
  rw [pitInstall] at h
  generalize run [cpu (push .ebp), cpu (mov .ebp .esp), loadAt .eax .ebp 8, cmpImm .eax 0] s
    = q at *
  split at h
  · obtain rfl := Option.some.inj h
    exact (hexit q).trans htest
  · obtain ⟨r, hr, rfl⟩ := Option.map_eq_some_iff.1 h
    have hdiv : Sys.status r = Sys.status q := by
      rw [← hset q]
      simp only [div] at hr
      split at hr
      · cases hr
      · obtain rfl := Option.some.inj hr
        rfl
    exact (hexit _).trans ((hsend r).trans (hdiv.trans htest))

/-- The frequency of `_start` is less than the base frequency, which is the divisor. -/
theorem pitCall_effect {ra : U32} (hl : Linked img) (hs : StackRoom img 12 s.esp)
    (h : inOrder [straight [cpu (pushByte 100)], callTo ra pitInstall,
      straight [cpu (add .esp 4)]] s = some t) :
    Effect img [.stack] (timerBytes 0) s.control s t := by
  obtain ⟨u, hu, h⟩ := inOrder_some h
  obtain ⟨v, hv, h⟩ := inOrder_some h
  obtain ⟨w, hw, hend⟩ := inOrder_some h
  obtain rfl := Option.some.inj hend
  obtain rfl := Option.some.inj hw
  have hpushed : u = cpu (pushVal 100) s := (Option.some.inj hu).symm
  have hempty : OnStack s.toCpu (dwords []) := trivial
  have harg : OnStack (cpu (pushVal 100) s).toCpu (dwords [100]) :=
    hempty.pushVal (show 4 * 0 + 4 ≤ 2 ^ 32 by decide)
  have hroom := hs.push (n := 8) 100 hl
  have hpush := effect_push hl (hs.mono (by decide)) 100
  rw [← hpushed] at harg hroom hpush
  have hentry : OnStack (cpu (pushVal ra) u).toCpu (dwords [ra, 100]) :=
    harg.pushVal (show 4 * 1 + 4 ≤ 2 ^ 32 by decide)
  have hroom' := hroom.push (n := 4) ra hl
  have hcall := effect_push hl (hroom.mono (by decide)) ra
  have hbody := callTo_some hv
  generalize cpu (pushVal ra) u = p at *
  obtain ⟨v', hv', -, -, hmem, -, -, hports⟩ := pitInstall_spec hentry
  obtain rfl := Option.some.inj (hv'.symm.trans hbody)
  have hstatus := pitInstall_status hbody
  have honly := (effect_push hl hroom' p.ebp).only
  have hinstall : Effect img [.stack] (timerBytes 0) p.control p v' :=
    ⟨congrArg Prod.fst hstatus, hports, congrArg Prod.snd hstatus, hmem ▸ honly⟩
  have hadd : Effect img [] [] v'.control v' (cpu (add .esp 4) v') :=
    ⟨df_addFlags .., (List.append_nil _).symm, rfl, Touches.refl _⟩
  exact (((hpush.steady hcall).steady hinstall).steady hadd).widen (by decide)

theorem fpuSseInstall_effect {ra : U32} {cpuid : U32 → CpuidAnswer} (hl : Linked img)
    (hs : StackRoom img 4 s.esp) (h : callTo ra (fpuSseInstall cpuid) s = some t) :
    Effect img [.stack] []
      { s.control with
        cr0 := s.cr0 &&& 0xFFFB ||| 0x20
        cr4 := if hasSse cpuid then s.cr4 ||| 0x600 else s.cr4 } s t := by
  have htest (u : Sys) : ∃ q, run [fromCr0 .eax, andImm .eax 0xFFFB, orImm .eax 0x20,
      toCr0 .eax, cpu (movImm .eax 1), cpuidInsn cpuid, bt .edx 25] u = q ∧
      Effect img [] [] { u.control with cr0 := u.cr0 &&& 0xFFFB ||| 0x20 } u q ∧
      q.cf = hasSse cpuid := by
    refine ⟨_, rfl, ⟨?_, (List.append_nil _).symm, rfl, Touches.refl _⟩, ?_⟩
    · exact (flag_setBit _ 10 _ (by decide)).trans ((if_neg (by decide)).trans
        ((df_logicFlags ..).trans (df_logicFlags ..)))
    · exact (flag_setBit _ 0 (hasSse cpuid) (by decide)).trans (if_pos rfl)
  have hcr4 (q : Sys) : Effect img [] [] { q.control with cr4 := q.cr4 ||| 0x600 } q
      (run [fromCr4 .eax, orImm .eax 0x00000600, toCr4 .eax, finit, ret] q) :=
    ⟨df_logicFlags .., (List.append_nil _).symm, rfl, Touches.refl _⟩
  refine effect_callTo ra hl hs ?_
  have hbody := callTo_some h
  obtain ⟨q, hq, heffect, hcf⟩ := htest (cpu (pushVal ra) s)
  rw [fpuSseInstall, hq, hcf] at hbody
  split at hbody
  · next hsse =>
      rw [if_pos hsse]
      obtain rfl := Option.some.inj hbody
      have hall := heffect.trans (hcr4 q)
      have hkeep : q.cr4 = s.cr4 := congrArg Control.cr4 heffect.control
      rw [heffect.control, hkeep] at hall
      exact hall
  · next hsse =>
      rw [if_neg hsse]
      obtain rfl := Option.some.inj hbody
      exact effect_ret heffect

/-! ## Paging -/

theorem read32_same {m m' : PhysMem} {a : U32}
    (h : ∀ i < 4, m' (a + BitVec.ofNat 32 i) = m (a + BitVec.ofNat 32 i)) :
    m'.read32 a = m.read32 a := congrArg (BitVec.ofNat 32) (readLE_congr h)

/-- An entry of a table that is the same in both memories. -/
theorem read_settled (img : Image) (a : Area) {m m' : PhysMem} {base : U32}
    (hbase : base.toNat = a.lo img) (hlow : a.lo img + a.size ≤ 0x400000) (hsize : a.size = 4096)
    (hsame : ∀ x, Area.In img a x → m' x = m x) {k : Nat} (hk : k < 1024) :
    m'.read32 (base + BitVec.ofNat 32 (4 * k)) = m.read32 (base + BitVec.ofNat 32 (4 * k)) := by
  refine read32_same fun i hi => hsame _ ?_
  rw [BitVec.add_assoc, ← BitVec.ofNat_add, Area.In, Within,
    offset_toNat (n := 4096) (by omega) (by omega)]
  omega

theorem mapsFirst_settled (hl : Linked img) (ht : TextLinked img) :
    SettledIn (Area.In img) [.directory, .table] (MapsFirst img) := by
  intro m m' hsame h
  have hdir {k : Nat} (hk : k < 1024) := read_settled img .directory rfl
    (Area.low hl ht .directory) rfl
    (fun x hx => hsame x (inAny_of_mem hx (List.mem_cons_self ..))) hk
  have htable {k : Nat} (hk : k < 1024) := read_settled img .table rfl
    (Area.low hl ht .table) rfl
    (fun x hx => hsame x (inAny_of_mem hx (List.mem_cons_of_mem _ (List.mem_singleton_self _)))) hk
  refine ⟨?_, fun k hk hne => (hdir hk).trans (h.others k hk hne),
    fun k hk => (htable hk).trans (h.pages k hk)⟩
  have hfirst := hdir (k := 0) (by decide)
  rw [Nat.mul_zero, BitVec.add_zero] at hfirst
  exact hfirst.trans h.first

theorem fillTables_effect (hdf : s.df = false) (hp : TablesPlaced img) :
    (run (fillTables img) s).df = s.df ∧ Sends [] s (run (fillTables img) s) := by
  have hstore (d : U32) : QuietInsn (storeAt .edi d .eax) := fun _ => .of_eq rfl rfl
  have hpage : QuietInsn mapPage := fun s => run_quiet (by simp [hstore]) s
  have hloop : QuietInsn (loopBack mapPage) := fun s => quiet_repeated mapPage hpage _ s
  obtain ⟨q, r, t, ht, hfirst, hsecond, hthird⟩ := fillTables_filled hdf hp
  exact ⟨ht ▸ hthird.df.trans (hsecond.df.trans hfirst.df),
    run_quiet (by simp [fillTables, quiet_rep_stosd, hloop]) s⟩

theorem enablePaging_effect (img : Image) (s : Sys) :
    let t := run (enablePaging img ++ [ret]) s
    t.df = s.df ∧ t.ports = s.ports ∧
      t.control = { s.control with cr0 := s.cr0 ||| 0x80000000, cr3 := img.pageDirectory } :=
  ⟨(df_logicFlags ..).trans (df_logicFlags ..), rfl, rfl⟩

theorem pagingInstallBody_effect (hp : TablesPlaced img) (hdf : s.df = false)
    (h : pagingInstall img s = some t) :
    Effect img [.directory, .table] []
        { s.control with cr0 := s.cr0 ||| 0x80000000, cr3 := img.pageDirectory } s t ∧
      MapsFirst img t.mem := by
  obtain ⟨t', ht', -, hmaps, htouch, -⟩ := pagingInstall_tables hdf hp
  obtain rfl := Option.some.inj (ht'.symm.trans h)
  obtain ⟨hdf', hquiet⟩ := fillTables_effect hdf hp
  have hcode : pagingInstall img s =
      some (run (enablePaging img ++ [ret]) (run (fillTables img) s)) := by
    rw [pagingInstall, straight, List.append_assoc, run_append]
  rw [hcode] at h
  generalize run (fillTables img) s = q at *
  obtain ⟨hdf'', hports, hcontrol⟩ := enablePaging_effect img q
  rw [Option.some.inj h] at hdf'' hports hcontrol
  have hkeep : q.control = s.control := hquiet.keep
  have hcr0 : q.cr0 = s.cr0 := congrArg Control.cr0 hkeep
  rw [hcr0, hkeep] at hcontrol
  refine ⟨⟨hdf''.trans hdf', hports.trans hquiet.obs, hcontrol, htouch.mono fun x hx => ?_⟩, hmaps⟩
  have hin : Area.In img .directory x ∨ Area.In img .table x := by
    rw [InTables, Within, Within] at hx
    rw [Area.In, Area.In, Within, Within, Area.lo, Area.size, Area.lo, Area.size]
    omega
  obtain hin | hin := hin
  · exact inAny_of_mem hin (List.mem_cons_self ..)
  · exact inAny_of_mem hin (List.mem_cons_of_mem _ (List.mem_singleton_self _))

theorem pagingInstall_effect {ra : U32} (hl : Linked img) (hs : StackRoom img 4 s.esp)
    (hp : TablesPlaced img) (hdf : s.df = false)
    (h : callTo ra (pagingInstall img) s = some t) :
    Effect img [.stack, .directory, .table] []
        { s.control with cr0 := s.cr0 ||| 0x80000000, cr3 := img.pageDirectory } s t ∧
      MapsFirst img t.mem := by
  have hpush := effect_push hl hs ra
  obtain ⟨heffect, hmaps⟩ := pagingInstallBody_effect hp (hpush.df.trans hdf) (callTo_some h)
  exact ⟨effect_callTo ra hl hs heffect, hmaps⟩

end

end MicroKernel.Proofs
