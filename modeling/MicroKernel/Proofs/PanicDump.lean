import MicroKernel.Proofs.StackTrace

/-!
# The registers on the panic screen

The heading of the stack trace goes to row 8, where `esi`, `edi`, `ebp` and
`esp` have just been shown: its letters stand where the first digits of `esi`
did, and nothing is printed over them later.
-/

namespace MicroKernel.Proofs

open ByteMem Kernel MicroKernel.Core Spec

/-- Where `kernel_panic` shows the registers. -/
def dumped (regs : Registers) : List (Nat × Nat × U32) :=
  [(9, 7, regs.eax), (29, 7, regs.ebx), (49, 7, regs.ecx), (69, 7, regs.edx),
    (9, 8, regs.esi), (29, 8, regs.edi), (49, 8, regs.ebp), (69, 8, regs.esp),
    (9, 10, regs.eip), (29, 10, regs.cs), (52, 10, regs.eflags)]

/-- The cells from there on spell the text, in any attribute. -/
def SpellsAt (cells : List U16) (x y : Nat) (text : List U8) : Prop :=
  ∀ i (hi : i < text.length), (cells[80 * y + x + i]?).map (·.setWidth 8) = some text[i]

def RegistersShown (regs : Registers) (cells : List U16) : Prop :=
  ∀ p ∈ dumped regs, SpellsAt cells p.1 p.2.1 (hexText p.2.2)

/-- Every call before the stack trace returns. -/
theorem registerDump_runs (regs : Registers) (v : PanicVga) :
    ∃ w, (registerDump regs).foldlM (fun v f => f v) v = some w := by
  simp only [registerDump, panicVgaPrintHex_eq, List.foldlM_cons, List.foldlM_nil]
  exact ⟨_, rfl⟩

theorem kernelPanic_trace (message file : List U8) (line : U32) (lineBuf : CArray U8 12)
    (regs : Registers) (ebp : U32) (v : PanicVga) :
    ∃ u, kernelPanic false message file line lineBuf (some regs) ebp v =
      (printStackTrace regs.ebp 5 u).bind
        (panicText (ascii "system halted. please reboot.") 25 23 0x4F) := by
  obtain ⟨b, hline, hb⟩ := lineText_spec line lineBuf
  have hload : loadStr b 0 = some (upperText 10 line.toNat) :=
    loadStr_eq (q := []) (upperText_nul (by decide) (by decide)) hb
  rw [kernelPanic, if_neg Bool.false_ne_true, hline]
  simp only [panicText, Option.bind_eq_bind, Option.bind_some, hload]
  generalize (panicVgaPrintStr (upperText 10 line.toNat) 42 4 0x0F _).2 = x
  obtain ⟨u, hu⟩ := registerDump_runs regs x
  rw [hu]
  exact ⟨u, rfl⟩

/-- The `r` of `trace` stays in the first cell of `esi`. -/
theorem kernelPanic_esi (message file : List U8) (line : U32) (lineBuf : CArray U8 12)
    (regs : Registers) (ebp : U32) (v : PanicVga) :
    ∃ w, kernelPanic false message file line lineBuf (some regs) ebp v = some w ∧
      (screenOf w.mem)[80 * 8 + 9]? = some (Terminal.cell 0x0C (chr 'r')) := by
  obtain ⟨u, hu⟩ := kernelPanic_trace message file line lineBuf regs ebp v
  obtain ⟨x, hx, hheading⟩ := traceHeading u
  obtain ⟨y, hy, habove⟩ := traceLoop_above 5 0 regs.ebp x
  obtain ⟨w, hw, habove'⟩ := panicText_above (ascii "system halted. please reboot.")
    (x := 25) (by decide) 23 0x4F y
  refine ⟨w, ?_, ?_⟩
  · rw [hu, printStackTrace, hx]
    show (traceLoop 5 0 regs.ebp x).bind _ = some w
    rw [hy]
    exact hw
  · refine (habove' _ (by decide)).trans ((habove _ (by decide)).trans ?_)
    exact hheading.shows 7 (by decide)

theorem not_shown_of_esi {regs : Registers} {cells : List U16}
    (h : cells[80 * 8 + 9]? = some (Terminal.cell 0x0C (chr 'r'))) :
    ¬ RegistersShown regs cells := by
  intro hshown
  have hlen := hexText_length regs.esi
  have hesi := hshown (9, 8, regs.esi) (by simp [dumped]) 0 (by rw [hlen]; decide)
  have hzero : (hexText regs.esi)[0] = chr '0' := rfl
  rw [hzero] at hesi
  have hcell : (cells[80 * 8 + 9]?).map (·.setWidth 8) = some (chr '0') := hesi
  rw [h] at hcell
  exact absurd hcell (by decide)

/-- The screen a panic leaves never shows all of them. -/
theorem kernelPanic_registers (message file : List U8) (line : U32) (lineBuf : CArray U8 12)
    (regs : Registers) (ebp : U32) (v : PanicVga) :
    ∃ w, kernelPanic false message file line lineBuf (some regs) ebp v = some w ∧
      ¬ RegistersShown regs (screenOf w.mem) := by
  obtain ⟨w, hw, hesi⟩ := kernelPanic_esi message file line lineBuf regs ebp v
  exact ⟨w, hw, not_shown_of_esi hesi⟩

def zeroRegisters : Registers where
  edi := 0
  esi := 0
  ebp := 0
  esp := 0
  ebx := 0
  edx := 0
  ecx := 0
  eax := 0
  eip := 0
  cs := 0
  eflags := 0

theorem kernelPanic_zero :
    ∃ w, kernelPanic false [] [] 0 (CArray.fill 12 0) (some zeroRegisters) 0 blankVga = some w ∧
      ¬ RegistersShown zeroRegisters (screenOf w.mem) := by
  obtain ⟨w, hw, hesi⟩ := kernelPanic_esi [] [] 0 (CArray.fill 12 0) zeroRegisters 0 blankVga
  exact ⟨w, hw, not_shown_of_esi hesi⟩

end MicroKernel.Proofs
