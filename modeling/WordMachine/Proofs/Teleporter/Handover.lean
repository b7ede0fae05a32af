import WordMachine.Device.Transcript
import WordMachine.Proofs.Machine.Patches
import WordMachine.Teleporter.Patches

/-!
# How a value gets into register 7

The patches write the value into memory as an operand of the `set` at 521, so register 7 receives what
that word stands for: the value itself below 32768, from there on the content of a register or nothing
(`patches_deliver`). A value that no register can hold is not reduced, as it is where the register is
patched itself.
-/

namespace WordMachine.Teleporter

/-- The instruction that the patches put at 521. -/
def handover (r7 : Word) : Instruction := .set (Register.word ⟨7, by decide⟩) r7

variable {δ : Type} {m n : Machine δ} {r7 v w : Word}

theorem patch_patches (m : Machine δ) (r7 : Word) :
    ∃ n, m.patch (patches r7) = (.ok (), n) ∧ m.Written (patches r7) n := by
  apply m.patch_of_fits
  intro p hp
  have := cells_patches r7 p hp
  exact decide_eq_true (by omega)

theorem fetch_handover (hw : m.Written (patches r7) n) (hpc : n.processor.pc = 521) :
    n.fetch = .ok (handover r7) := by
  have hword : ∀ k, k < 3 → n.processor.memory.words[521 + k]? = (handover r7).words[k]? := by
    intro k hk
    rw [Memory.getElem?_words, dif_pos (by simp only [Word.modulus]; omega), hw.cell]
    match k with
    | 0 => rfl
    | 1 => rfl
    | 2 => rfl
  apply Machine.fetch_eq_ok_iff.mpr
  rw [hpc]
  exact hword

variable [Device δ]

/-- One step goes on to 524. It leaves the value in register 7, as far as a register can hold it, and every
other register as it was. -/
def Delivers (m : Machine δ) (value : Word) : Prop :=
  ∃ n, m.step = (.ok .running, n) ∧ n.status = .running ∧ n.processor.pc = 524 ∧
    (n.processor.register ⟨7, by decide⟩).toNat = value.toNat % 32768 ∧
    ∀ r : Register, r.val ≠ 7 → n.processor.register r = m.processor.register r

theorem Delivers.iff_modEq (h : Delivers m v) : Delivers m w ↔ v.toNat % 32768 = w.toNat % 32768 := by
  obtain ⟨n, hs, hrunning, hpc, hseven, hother⟩ := h
  refine ⟨?_, ?_⟩
  · rintro ⟨n', hs', _, _, hseven', _⟩
    obtain rfl : n = n' := congrArg Prod.snd (hs.symm.trans hs')
    exact hseven.symm.trans hseven'
  · intro he
    exact ⟨n, hs, hrunning, hpc, hseven.trans he, hother⟩

section
variable (hw : m.Written (patches r7) n) (hr : n.status = .running) (hpc : n.processor.pc = 521)
include hw hr hpc

theorem delivers_of_value (hv : n.processor.value r7 = .ok v) : Delivers n v := by
  have hf := fetch_handover hw hpc
  have hd : Processor.destination (Register.word ⟨7, by decide⟩) = .ok ⟨7, by decide⟩ :=
    Processor.destination_eq_ok_iff.mpr (Register.toNat_word _)
  have hnext : (n.past (handover r7)).processor.pc = 524 := by
    apply UInt16.toNat_inj.mp
    rw [Machine.toNat_pc_past hf, hpc]
    rfl
  refine ⟨_, Machine.step_of_planned hr hf (.set hv hd) rfl hr, hr, hnext, ?_, ?_⟩
  · exact (congrArg UInt16.toNat (Processor.register_setRegister_self ..)).trans (Word.toNat_wrap _)
  · intro r hne
    exact Processor.register_setRegister_of_ne _ _ fun e => hne (congrArg Fin.val e).symm

theorem step_of_invalid (hv : 32776 ≤ r7.toNat) :
    ∃ o, n.step = (.error (.addressOutOfRange r7), o) ∧ o.status = .faulted := by
  have hvalue : n.processor.value r7 = .error (.addressOutOfRange r7) := by
    unfold Processor.value
    rcases Operand.ofWord_cases r7 with ⟨_, _⟩ | ⟨r, _, _⟩ | ⟨_, ho⟩
    · omega
    · omega
    · rw [ho]
  have hplan :
      (n.past (handover r7)).processor.plan n.emptyReturn (handover r7) = .error (.addressOutOfRange r7) :=
    except_bind_eq_error_iff.mpr (Or.inl hvalue)
  exact ⟨_, Machine.step_of_plan_error hr (fetch_handover hw hpc) hplan, rfl⟩

theorem delivers_iff : Delivers n r7 ↔ r7.toNat < 32768 ∨
    ∃ r : Register, r7.toNat = 32768 + r.val ∧ (n.processor.register r).toNat % 32768 = r.val := by
  rcases Operand.ofWord_cases r7 with ⟨hl, _⟩ | ⟨r, hreg, _⟩ | ⟨hi, _⟩
  · have hv : n.processor.value r7 = .ok r7 := Processor.value_eq_ok_iff.mpr (Or.inl ⟨hl, rfl⟩)
    exact iff_of_true (delivers_of_value hw hr hpc hv) (Or.inl hl)
  · have hv : n.processor.value r7 = .ok (n.processor.register r) :=
      Processor.value_eq_ok_iff.mpr (Or.inr ⟨r, hreg, rfl⟩)
    have hmod : r7.toNat % 32768 = r.val := by omega
    rw [(delivers_of_value hw hr hpc hv).iff_modEq, hmod]
    refine ⟨fun h => Or.inr ⟨r, hreg, h⟩, ?_⟩
    rintro (hl | ⟨s, hs, h⟩)
    · omega
    · obtain rfl : s = r := Fin.ext (by omega)
      exact h
  · refine iff_of_false ?_ (by omega)
    rintro ⟨o, hs, _⟩
    obtain ⟨_, hfault, _⟩ := step_of_invalid hw hr hpc hi
    rw [hs] at hfault
    cases hfault

end

/-- The patches are applied without a fault and change their nine cells only. A machine that is then at 521
receives in register 7 what the value stands for as an operand, and faults if it is none. That is the value
itself, modulo 32768, exactly if it is a literal or refers to a register that holds the register's number. -/
theorem patches_deliver (m : Machine δ) (r7 : Word) :
    ∃ n, m.patch (patches r7) = (.ok (), n) ∧
      n = { m with processor.memory := n.processor.memory, journal := n.journal } ∧
      (∀ a : Memory.Address, ¬ (521 ≤ a.val ∧ a.val ≤ 523) → ¬ (5485 ≤ a.val ∧ a.val ≤ 5490) →
        n.processor.memory.get a = m.processor.memory.get a) ∧
      (n.status = .running → n.processor.pc = 521 →
        (∀ v, n.processor.value r7 = .ok v → Delivers n v) ∧
        (32776 ≤ r7.toNat → ∃ o, n.step = (.error (.addressOutOfRange r7), o) ∧ o.status = .faulted) ∧
        (Delivers n r7 ↔ r7.toNat < 32768 ∨
          ∃ r : Register, r7.toNat = 32768 + r.val ∧ (n.processor.register r).toNat % 32768 = r.val)) := by
  obtain ⟨n, hn, hw⟩ := patch_patches m r7
  refine ⟨n, hn, hw.eq_of_cells ?_, ?_, ?_⟩
  · intro p hp
    have := cells_patches r7 p hp
    omega
  · intro a hfront hback
    apply hw.cell_of_unpatched
    intro p hp
    have := cells_patches r7 p hp
    omega
  · intro hr hpc
    exact ⟨fun _ => delivers_of_value hw hr hpc, step_of_invalid hw hr hpc, delivers_iff hw hr hpc⟩

/-- A machine that has come to 521 with a 5 in register 1. -/
def arriving : Machine Transcript where
  device := .ofBytes []
  processor := { pc := 521, registers := #v[0, 5, 0, 0, 0, 0, 0, 0] }

theorem patches_deliver_found : arriving.status = .running ∧ arriving.processor.pc = 521 ∧
    ∃ n, arriving.patch (patches 25734) = (.ok (), n) ∧ Delivers n 25734 := by
  obtain ⟨n, hn, hsame, _, hdelivers⟩ := patches_deliver arriving 25734
  have hr : n.status = .running := congrArg Machine.status hsame
  have hpc : n.processor.pc = 521 := congrArg (fun m => m.processor.pc) hsame
  exact ⟨rfl, rfl, n, hn, (hdelivers hr hpc).2.2.mpr (Or.inl (by decide))⟩

/-- For 32769, which refers to register 1, it is the 5 that is delivered, and not 1. -/
theorem patches_miss_reference : ∃ n, arriving.patch (patches 32769) = (.ok (), n) ∧ n.status = .running ∧
    n.processor.pc = 521 ∧ ¬ Delivers n 32769 ∧ Delivers n 5 := by
  obtain ⟨n, hn, hw⟩ := patch_patches arriving 32769
  have hregister : n.processor.register ⟨1, by decide⟩ = 5 := hw.register _
  have hvalue : n.processor.value 32769 = .ok 5 :=
    Processor.value_eq_ok_iff.mpr (Or.inr ⟨⟨1, by decide⟩, by decide, hregister.symm⟩)
  have hfive := delivers_of_value hw hw.status hw.pc hvalue
  refine ⟨n, hn, hw.status, hw.pc, ?_, hfive⟩
  rw [hfive.iff_modEq]
  decide

end WordMachine.Teleporter
