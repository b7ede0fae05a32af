import Mathlib.Data.Nat.Find
import WordMachine.Device.Transcript
import WordMachine.Proofs.Machine.Stepwise

/-!
# Returns with an empty stack

What a machine does on a return with an empty stack is looked up there and nowhere else. So two
copies of a machine that differ in it alone go on alike up to the first such return. It leaves
both with the same processor and device, the one faulted and the other halted (`policies_agree`).
-/

namespace WordMachine

theorem Processor.plan_emptyReturn (p : Processor) {i : Instruction} (h : i = .ret → p.stack ≠ [])
    (e e' : EmptyReturn) : p.plan e i = p.plan e' i := by
  cases i with
  | ret =>
    obtain ⟨target, rest, hs⟩ := List.exists_cons_of_ne_nil (h rfl)
    simp only [plan, hs]
  | _ => rfl

theorem Processor.plan_ret_fault {p : Processor} (h : p.stack = []) :
    p.plan .fault .ret = .error .stackUnderflow := by
  simp only [plan, h]

namespace Machine

section
variable {δ : Type}

/-- The machine with another policy for returns with an empty stack. -/
def under (m : Machine δ) (emptyReturn : EmptyReturn) : Machine δ := { m with emptyReturn }

/-- The next step returns, and the stack is empty. -/
def ReturnsEmpty (m : Machine δ) : Prop :=
  m.status = .running ∧ m.fetch = .ok .ret ∧ m.processor.stack = []

theorem conclude_under (e : EmptyReturn) (pc : Word) (x : Except Fault Unit × Machine δ) :
    conclude pc (x.1, x.2.under e) = ((conclude pc x).1, (conclude pc x).2.under e) :=
  conclude_map (g := fun m => m.under e) (fun _ => rfl) (fun _ _ => rfl) (fun _ => rfl) pc x

end

section
variable {δ : Type} [Device δ] {m n : Machine δ} {answer : Except Fault Status}

/-! ## Up to the first -/

theorem perform_under (m : Machine δ) (e : EmptyReturn) (action : Action) :
    (m.under e).perform action = ((m.perform action).1, (m.perform action).2.under e) := by
  refine (perform_with m e m.journal action).trans ?_
  rw [← journal_perform m action]
  rfl

theorem execute_under {i : Instruction} (h : i = .ret → m.processor.stack ≠ []) (e : EmptyReturn) :
    (m.under e).execute i = ((m.execute i).1, (m.execute i).2.under e) := by
  have hp : (m.under e).processor.plan (m.under e).emptyReturn i = m.processor.plan m.emptyReturn i :=
    m.processor.plan_emptyReturn h e m.emptyReturn
  unfold execute
  rw [hp]
  cases m.processor.plan m.emptyReturn i with
  | ok action => exact perform_under m e action
  | error fault => rfl

theorem step_under (h : ¬ m.ReturnsEmpty) (e : EmptyReturn) :
    (m.under e).step = (m.step.1, m.step.2.under e) := by
  by_cases hr : m.status = .running
  · rcases step_cases hr with ⟨fault, hf, hs⟩ | ⟨i, hf, hs⟩
    · rw [hs, step_of_fetch_error (m := m.under e) hr hf, ← conclude_under]
      rfl
    · have hstack : i = .ret → (m.past i).processor.stack ≠ [] := by
        rintro rfl hnil
        exact h ⟨hr, hf, hnil⟩
      rw [hs, step_of_fetch_ok (m := m.under e) hr hf, ← conclude_under, ← execute_under hstack]
      rfl
  · rw [step_of_stopped hr, step_of_stopped (m := m.under e) hr]
    rfl

theorem after_under {k : Nat} (h : ∀ j, j < k → ¬ (m.after j).ReturnsEmpty) (e : EmptyReturn) :
    (m.under e).after k = (m.after k).under e := by
  induction k with
  | zero => rfl
  | succ k ih =>
    rw [after, after, ih fun j hj => h j (Nat.lt_succ_of_lt hj), step_under (h k (Nat.lt_succ_self k))]

theorem Completes.under (hc : Completes m answer n) (h : ∀ k, ¬ (m.after k).ReturnsEmpty) (e : EmptyReturn) :
    Completes (m.under e) answer (n.under e) := by
  induction hc with
  | @stopped m hm => exact .stopped (m := m.under e) hm
  | @fault m n fault hs =>
    have hs' : (m.under e).step = (.error fault, n.under e) := by rw [step_under (m := m) (h 0), hs]
    exact .fault hs'
  | @step m n k status answer hr hs _ ih =>
    have hs' : (m.under e).step = (.ok status, n.under e) := by rw [step_under (m := m) (h 0), hs]
    have hnext : ∀ j, ¬ (n.after j).ReturnsEmpty := by
      intro j
      have hj := h (j + 1)
      rwa [after_succ, hs] at hj
    exact .step (m := m.under e) hr hs' (ih hnext)

/-! ## At the first -/

theorem step_fault_of_returnsEmpty (h : m.ReturnsEmpty) (he : m.emptyReturn = .fault) :
    m.step = (.error .stackUnderflow,
      { (m.past .ret).note (.faulted m.processor.pc .stackUnderflow) with status := .faulted }) := by
  obtain ⟨hr, hf, hs⟩ := h
  have hx : (m.past .ret).execute .ret = (.error .stackUnderflow, m.past .ret) := by
    unfold execute
    rw [show (m.past .ret).emptyReturn = .fault from he,
      Processor.plan_ret_fault (p := (m.past .ret).processor) hs]
  rw [step_of_fetch_ok hr hf, hx]
  rfl

theorem step_halt_of_returnsEmpty (h : m.ReturnsEmpty) (he : m.emptyReturn = .halt) :
    m.step = (.ok .halted, { m.past .ret with status := .halted }.note (.halted m.processor.pc)) := by
  obtain ⟨hr, hf, hs⟩ := h
  have hx : (m.past .ret).execute .ret = (m.past .ret).perform .halt :=
    execute_of_planned (m := m.past .ret) (.retHalt hs he)
  rw [step_of_fetch_ok hr hf, hx]
  rfl

/-- What the return does to the two copies. -/
theorem step_of_returnsEmpty (h : m.ReturnsEmpty) :
    ∃ faulted halted, (m.under .fault).step = (.error .stackUnderflow, faulted) ∧ faulted.status = .faulted ∧
      (m.under .halt).step = (.ok .halted, halted) ∧ halted.status = .halted ∧
      halted.processor = faulted.processor ∧ halted.device = faulted.device :=
  ⟨_, _, step_fault_of_returnsEmpty (m := m.under .fault) h rfl, rfl,
    step_halt_of_returnsEmpty (m := m.under .halt) h rfl, rfl, rfl, rfl⟩

/-- A run that the first step stops answers as that step does. -/
theorem Completes.eq_step (hc : Completes m answer n) (h : Stops m.step) : m.step = (answer, n) := by
  cases hc with
  | stopped hm => exact step_of_stopped hm
  | fault hs => exact hs
  | step hr hs hc =>
    rw [hs] at h ⊢
    cases h with
    | halt hn =>
      obtain ⟨rfl, rfl⟩ := completes_of_stopped (by simp [hn]) hc
      rw [hn]

theorem Completes.eq_step_after (hc : Completes m answer n) {k : Nat} (hr : (m.after k).status = .running)
    (h : Stops (m.after k).step) : (m.after k).step = (answer, n) := by
  have hrest := hc.resume k
  rw [resumed_of_ne (by simp [hr])] at hrest
  exact hrest.eq_step h

section
variable {k : Nat} (hfirst : ∀ j, j < k → ¬ ((m.under .fault).after j).ReturnsEmpty)
  (h : ((m.under .fault).after k).ReturnsEmpty)
include hfirst h

theorem step_after_of_returnsEmpty :
    ∃ faulted halted, ((m.under .fault).after k).step = (.error .stackUnderflow, faulted) ∧
      faulted.status = .faulted ∧
      ((m.under .halt).after k).step = (.ok .halted, halted) ∧ halted.status = .halted ∧
      halted.processor = faulted.processor ∧ halted.device = faulted.device := by
  have hcopy : ∀ e, (m.under e).after k = ((m.under .fault).after k).under e :=
    fun e => after_under (m := m.under .fault) hfirst e
  rw [hcopy .fault, hcopy .halt]
  exact step_of_returnsEmpty h

theorem completes_of_returnsEmpty (hc : Completes (m.under .fault) answer n) :
    answer = .error .stackUnderflow ∧
      ∃ n', Completes (m.under .halt) (.ok .halted) n' ∧ n'.processor = n.processor ∧
        n'.device = n.device := by
  obtain ⟨faulted, halted, hs, hfaulted, hs', hhalted, hprocessor, hdevice⟩ :=
    step_after_of_returnsEmpty hfirst h
  have hr : ((m.under .halt).after k).status = .running := by
    rw [show (m.under .halt).after k = ((m.under .fault).after k).under .halt from
      after_under (m := m.under .fault) hfirst .halt]
    exact h.1
  have hend := hc.eq_step_after h.1 (hs ▸ .fault hfaulted)
  obtain ⟨answer', hc'⟩ := exists_completes (m := m.under .halt) (i := k + 1) (by simp [after, hs', hhalted])
  have hend' := hc'.eq_step_after hr (hs' ▸ .halt hhalted)
  obtain ⟨rfl, rfl⟩ := Prod.mk.inj (hs.symm.trans hend)
  obtain ⟨rfl, rfl⟩ := Prod.mk.inj (hs'.symm.trans hend')
  exact ⟨rfl, _, hc', hprocessor, hdevice⟩

end

/-- Up to the first return with an empty stack, two copies of a machine that differ in their policy
for it answer alike and are otherwise the same machine. At that return the one faults and the other
halts, with the same processor and device. So whatever ends a run of the one, if it is not that
fault, ends the run of the other in the same machine. -/
theorem policies_agree (m : Machine δ) :
    (∀ e e' n, (∀ k, k < n → ¬ ((m.under e).after k).ReturnsEmpty) →
      (∀ k, k < n → ((m.under e').after k).step.1 = ((m.under e).after k).step.1) ∧
      ∀ k, k ≤ n → (m.under e').after k = ((m.under e).after k).under e') ∧
    (∀ n, (∀ k, k < n → ¬ ((m.under .fault).after k).ReturnsEmpty) → ((m.under .fault).after n).ReturnsEmpty →
      ∃ faulted halted, ((m.under .fault).after n).step = (.error .stackUnderflow, faulted) ∧
        faulted.status = .faulted ∧ ((m.under .halt).after n).step = (.ok .halted, halted) ∧
        halted.status = .halted ∧ halted.processor = faulted.processor ∧ halted.device = faulted.device) ∧
    ∀ answer n, Completes (m.under .fault) answer n →
      (¬ (answer = .error .stackUnderflow ∧ ∃ k, ((m.under .fault).after k).ReturnsEmpty) →
        Completes (m.under .halt) answer (n.under .halt)) ∧
      ((∃ k, ((m.under .fault).after k).ReturnsEmpty) → answer = .error .stackUnderflow ∧
        ∃ n', Completes (m.under .halt) (.ok .halted) n' ∧ n'.processor = n.processor ∧
          n'.device = n.device) := by
  refine ⟨?_, fun _ hfirst h => step_after_of_returnsEmpty hfirst h, ?_⟩
  · intro e e' n h
    have hcopy : ∀ k, k ≤ n → (m.under e').after k = ((m.under e).after k).under e' :=
      fun k hk => after_under (m := m.under e) (fun j hj => h j (by omega)) e'
    refine ⟨?_, hcopy⟩
    intro k hk
    rw [hcopy k (by omega), step_under (h k hk)]
  · intro answer n hc
    have hat : (∃ k, ((m.under .fault).after k).ReturnsEmpty) → answer = .error .stackUnderflow ∧
        ∃ n', Completes (m.under .halt) (.ok .halted) n' ∧ n'.processor = n.processor ∧
          n'.device = n.device := by
      classical
      intro hreturns
      exact completes_of_returnsEmpty (fun _ => Nat.find_min hreturns) (Nat.find_spec hreturns) hc
    refine ⟨?_, hat⟩
    intro hother
    have hnone : ¬ ∃ k, ((m.under .fault).after k).ReturnsEmpty := fun hreturns =>
      hother ⟨(hat hreturns).1, hreturns⟩
    exact hc.under (not_exists.mp hnone) .halt

end

/-- Prints a character, calls a subroutine that returns at once, and then returns once more. -/
def returning : Machine Transcript where
  device := .ofBytes []
  processor := { memory := Memory.empty.overlay 0 [19, 65, 17, 5, 18, 18] (by decide) }

theorem policies_agree_returning :
    (∀ k, k < 3 → ¬ ((returning.under .fault).after k).ReturnsEmpty) ∧
      ((returning.under .fault).after 3).ReturnsEmpty ∧
      (returning.under .halt).after 3 = ((returning.under .fault).after 3).under .halt ∧
      ((returning.under .fault).after 3).step.1 = .error .stackUnderflow ∧
      ((returning.under .halt).after 3).step.1 = .ok .halted ∧
      ∃ n n', Completes (returning.under .fault) (.error .stackUnderflow) n ∧
        Completes (returning.under .halt) (.ok .halted) n' ∧ n.processor.pc = 5 ∧ n'.processor = n.processor ∧
        n.device.printed = #[65] ∧ n'.device = n.device := by
  have hrunning : ∀ k, k < 3 → ((returning.under .fault).after (k + 1)).status = .running ∧
      ((returning.under .fault).after k).emptyReturn = .fault := by decide +kernel
  have hfirst : ∀ k, k < 3 → ¬ ((returning.under .fault).after k).ReturnsEmpty := by
    intro k hk h
    obtain ⟨hr, he⟩ := hrunning k hk
    rw [after, step_fault_of_returnsEmpty h he] at hr
    cases hr
  have hreturn : ((returning.under .fault).after 3).ReturnsEmpty :=
    ⟨by decide +kernel, fetch_eq_ok_iff.mpr (by decide +kernel), by decide +kernel⟩
  obtain ⟨hcopies, hat, hends⟩ := policies_agree returning
  obtain ⟨faulted, halted, hs, _, hs', _⟩ := hat 3 hfirst hreturn
  have hrun : (returning.under .fault).run 4 = (.error .stackUnderflow, (returning.under .fault).after 4) :=
    Prod.ext rfl (run_snd _ 4)
  have hc : Completes (returning.under .fault) (.error .stackUnderflow) ((returning.under .fault).after 4) :=
    completes_of_run hrun (by decide +kernel)
  obtain ⟨_, n', hc', hprocessor, hdevice⟩ := (hends _ _ hc).2 ⟨3, hreturn⟩
  exact ⟨hfirst, hreturn, (hcopies _ .halt 3 hfirst).2 3 (Nat.le_refl 3), by rw [hs], by rw [hs'], _,
    n', hc, hc', by decide +kernel, hprocessor, by decide +kernel, hdevice⟩

end Machine

end WordMachine
