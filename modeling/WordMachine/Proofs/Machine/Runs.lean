import WordMachine.Proofs.Machine.Execution

/-!
# Machines after some steps

A run leaves what its steps leave, whether it ends early or not (`run_snd`).
-/

namespace WordMachine.Machine

variable {δ : Type} [Device δ]

/-- The machine after so many steps, whatever they answer. -/
def after (m : Machine δ) : Nat → Machine δ
  | 0 => m
  | n + 1 => (m.after n).step.2

theorem after_add (m : Machine δ) (k n : Nat) : m.after (k + n) = (m.after k).after n := by
  induction n with
  | zero => rfl
  | succ n ih => rw [← Nat.add_assoc, after, after, ih]

theorem after_succ (m : Machine δ) (n : Nat) : m.after (n + 1) = m.step.2.after n := by
  rw [Nat.add_comm, after_add]
  rfl

theorem after_of_stopped {m : Machine δ} (h : m.status ≠ .running) (n : Nat) : m.after n = m := by
  induction n with
  | zero => rfl
  | succ n ih => rw [after, ih, step_of_stopped h]

theorem status_step_error {m n : Machine δ} {fault : Fault} (h : m.step = (.error fault, n)) :
    n.status = .faulted := by
  by_cases hr : m.status = .running
  · have hc : ∀ x : Except Fault Unit × Machine δ, conclude m.processor.pc x = (.error fault, n) →
        n.status = .faulted := by
      intro ⟨result, k⟩ hx
      cases result with
      | ok u =>
        have := congrArg Prod.fst hx
        rw [(conclude_ok m.processor.pc k).1] at this
        cases this
      | error fault => cases hx; rfl
    rcases step_cases hr with ⟨_, _, hs⟩ | ⟨_, _, hs⟩
    · exact hc _ (hs ▸ h)
    · exact hc _ (hs ▸ h)
  · rw [step_of_stopped hr] at h
    cases h

theorem run_snd (m : Machine δ) (fuel : Nat) : (m.run fuel).2 = m.after fuel := by
  induction fuel generalizing m with
  | zero => rfl
  | succ fuel ih =>
    rw [after_succ]
    by_cases h : m.status = .running
    · unfold run
      rw [if_pos h]
      cases hs : m.step with
      | mk result n =>
        cases result with
        | ok status => exact ih n
        | error fault =>
          have hn : n.status ≠ .running := by
            rw [status_step_error hs]; decide
          exact (after_of_stopped hn fuel).symm
    · rw [run_of_stopped h, step_of_stopped h, after_of_stopped h]

/-- What every step keeps, every number of steps keeps. -/
theorem after_induction {P : Machine δ → Prop} (hstep : ∀ m, P m → P m.step.2) {m : Machine δ} (h : P m)
    (n : Nat) : P (m.after n) := by
  induction n with
  | zero => exact h
  | succ n ih => exact hstep _ ih

end WordMachine.Machine
