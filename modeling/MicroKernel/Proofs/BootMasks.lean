import MicroKernel.Proofs.Handover
import MicroKernel.Proofs.Pic

/-!
# No request before `kmain`

`pic_remap` masks all sixteen lines, and nothing that is sent behind it on the way
to `kmain` is for the interrupt controllers. Interrupts are enabled at the end of
`idt_install` and again before the call of `kmain`; whatever edges come, and
whatever the firmware has left in the chips, none of them asks the processor for
anything. `_start` does not get that far, so this is about the routines from
`idt_install` on, wherever `tss_install` would have left the cursor.
-/

namespace MicroKernel.Proofs

open X86 MicroKernel.Core Spec

/-- Both chips after `pic_remap`. -/
def masked : Pics := { configured with master := { configured.master with imr := 0xFF } }

section
variable {p : Pics} {q : Cursor} {signals : List Signal} {log : List (U16 × U8)}

theorem take_settings (p : Pics) (signals : List Signal) :
    (signals.foldl Pics.take p).settings = p.settings.outs (signals.flatMap Signal.sent) := by
  induction signals generalizing p with
  | nil => rfl
  | cons e signals ih =>
      rw [List.foldl_cons, ih, List.flatMap_cons, outs_append]
      cases e with
      | byte port val =>
          exact congrArg (Pics.outs · (signals.flatMap Signal.sent)) (settings_outb p port val)
      | edge line =>
          exact congrArg (Pics.outs · (signals.flatMap Signal.sent)) (settings_raise p line)

/-- Bytes for other devices. -/
theorem outs_other (h : ∀ o ∈ log, o.1 ∉ [0x20, 0x21, 0xA0, 0xA1]) (p : Pics) :
    p.outs log = p := by
  induction log generalizing p with
  | nil => rfl
  | cons o log ih =>
      rw [List.forall_mem_cons] at h
      obtain ⟨ho, hlog⟩ := h
      simp only [List.mem_cons, List.not_mem_nil, or_false, not_or] at ho
      have hstay : p.outb o.1 o.2 = p := by
        rw [Pics.outb, if_neg ho.1, if_neg ho.2.1, if_neg ho.2.2.1, if_neg ho.2.2.2]
      have hrest := ih hlog (p.outb o.1 o.2)
      rw [hstay] at hrest
      exact (congrArg (·.outs log) hstay).trans hrest

theorem outs_picRemap (p : Pics) : p.outs picRemapBytes = masked := by
  simp [Pics.outs, picRemapBytes, Pics.outb, Pic.command, Pic.data, masked, configured]

theorem ack_masked (h : p.settings = masked) : p.ack = none := by
  have himr : p.front.imr = 0xFF := congrArg (·.master.imr) h
  have hnone : p.front.irr &&& ~~~0xFF = 0 := BitVec.and_zero
  have hreq : p.front.request = 8 := by
    rw [Pic.request, himr, hnone]
    exact if_neg (Nat.not_lt_of_le (priority_le _))
  rw [Pics.ack, hreq]
  rfl

/-! ## The bytes of the way -/

theorem placeBytes_other (q : Cursor) : ∀ o ∈ placeBytes q, o.1 ∉ [0x20, 0x21, 0xA0, 0xA1] := by
  simp [placeBytes, cursorBytes]

theorem printBytes_other (q : Cursor) (m : Message) :
    ∀ o ∈ printBytes q m, o.1 ∉ [0x20, 0x21, 0xA0, 0xA1] := by
  intro o ho
  obtain ⟨r, -, hr⟩ := List.mem_flatMap.1 ho
  exact placeBytes_other r o hr

theorem afterRemap_other : ∀ o ∈ afterRemap q, o.1 ∉ [0x20, 0x21, 0xA0, 0xA1] := by
  have htimer : ∀ o ∈ timerBytes 0, o.1 ∉ [0x20, 0x21, 0xA0, 0xA1] := by
    simp [timerBytes]
  simp only [afterRemap, List.forall_mem_append]
  exact ⟨⟨⟨⟨⟨printBytes_other _ _, htimer⟩, printBytes_other _ _⟩, printBytes_other _ _⟩,
    printBytes_other _ _⟩, printBytes_other _ _⟩

theorem outs_remapped (q : Cursor) (p : Pics) : p.outs (remapped q) = masked := by
  rw [remapped, outs_append]
  exact outs_picRemap _

/-- From the end of `pic_remap` on, with edges in between. -/
theorem ack_boot {before after : List Signal} (p : Pics)
    (h : (before ++ after).flatMap Signal.sent = remapped q ++ afterRemap q)
    (hlong : (remapped q).length ≤ (before.flatMap Signal.sent).length) :
    (before.foldl Pics.take p).ack = none := by
  rw [List.flatMap_append] at h
  have hstart : remapped q <+: remapped q ++ afterRemap q := List.prefix_append _ _
  obtain ⟨rest, hbefore⟩ := List.prefix_of_prefix_length_le hstart
    ⟨after.flatMap Signal.sent, h⟩ hlong
  have hother : ∀ o ∈ rest, o.1 ∉ [0x20, 0x21, 0xA0, 0xA1] := by
    intro o ho
    refine afterRemap_other (q := q) o ?_
    rw [← hbefore, List.append_assoc] at h
    rw [← List.append_cancel_left h]
    exact List.mem_append_left _ ho
  refine ack_masked ?_
  rw [take_settings, ← hbefore, outs_append, outs_remapped, outs_other hother]

end

end MicroKernel.Proofs
