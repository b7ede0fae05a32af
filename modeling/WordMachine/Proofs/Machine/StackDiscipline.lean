import WordMachine.Device.Transcript
import WordMachine.Proofs.Machine.Runs

/-!
# Stack discipline

Only the top of the stack is ever touched. Entries that a run stays above are kept, so a return
that meets the stack of its call again goes back behind the call (`stack_discipline`).
-/

namespace WordMachine

/-- The `d` entries at the bottom, or all if there are fewer. -/
def lowest (d : Nat) (stack : List Word) : List Word := stack.drop (stack.length - d)

theorem lowest_cons {d : Nat} {stack : List Word} (v : Word) (h : d ≤ stack.length) :
    lowest d (v :: stack) = lowest d stack := by
  unfold lowest
  rw [List.length_cons, Nat.succ_sub h, List.drop_succ_cons]

theorem lowest_tail {d : Nat} {stack : List Word} (h : d ≤ stack.tail.length) :
    lowest d stack.tail = lowest d stack := by
  cases stack with
  | nil => rfl
  | cons v rest => exact (lowest_cons v h).symm

theorem lowest_length (stack : List Word) : lowest stack.length stack = stack := by
  unfold lowest
  rw [Nat.sub_self, List.drop_zero]

theorem Processor.stack_commit (p : Processor) (action : Action) :
    (p.commit action).stack = p.stack ∨ (∃ v, (p.commit action).stack = v :: p.stack) ∨
      (p.commit action).stack = p.stack.tail := by
  cases action with
  | push v => exact Or.inr (Or.inl ⟨v, rfl⟩)
  | call t => exact Or.inr (Or.inl ⟨p.pc, rfl⟩)
  | pop | ret => exact Or.inr (Or.inr rfl)
  | _ => exact Or.inl rfl

namespace Machine

variable {δ : Type} [Device δ] {m : Machine δ}

theorem stack_step (m : Machine δ) :
    m.step.2.processor.stack = m.processor.stack ∨
      (∃ v, m.step.2.processor.stack = v :: m.processor.stack) ∨
      m.step.2.processor.stack = m.processor.stack.tail := by
  obtain ⟨status, journal, hs | ⟨i, _, hs⟩⟩ := step_snd m <;> rw [hs]
  · exact Or.inl rfl
  · rcases processor_execute (m.past i) i with he | ⟨action, _, he⟩ | ⟨r, code, he⟩ <;> simp only [he]
    · exact Or.inl rfl
    · exact (m.past i).processor.stack_commit action
    · exact Or.inl rfl

theorem lowest_step {d : Nat} (h : d ≤ m.processor.stack.length) (h' : d ≤ m.step.2.processor.stack.length) :
    lowest d m.step.2.processor.stack = lowest d m.processor.stack := by
  rcases stack_step m with hs | ⟨v, hs⟩ | hs <;> rw [hs]
  · exact lowest_cons v h
  · rw [hs] at h'
    exact lowest_tail h'

theorem lowest_after {d n : Nat} (h : ∀ k, k ≤ n → d ≤ (m.after k).processor.stack.length) :
    lowest d (m.after n).processor.stack = lowest d m.processor.stack := by
  induction n with
  | zero => rfl
  | succ n ih =>
    rw [← ih fun k hk => h k (by omega)]
    exact lowest_step (h n (by omega)) (h (n + 1) (by omega))

/-- A call that pushes anything pushes the address behind it. -/
theorem stack_step_call {t : Word} (hf : m.fetch = .ok (.call t))
    (h : m.processor.stack.length < m.step.2.processor.stack.length) :
    ∃ a : Word, a.toNat = m.processor.pc.toNat + 2 ∧ m.step.2.processor.stack = a :: m.processor.stack := by
  refine ⟨(m.past (.call t)).processor.pc, toNat_pc_past hf, ?_⟩
  obtain ⟨status, journal, hs | ⟨i, hf', hs⟩⟩ := step_snd m <;> rw [hs] at h ⊢
  · exact absurd h (Nat.lt_irrefl _)
  · obtain rfl : i = .call t := Except.ok.inj (hf'.symm.trans hf)
    rcases execute_cases (m.past (.call t)) (.call t) with ⟨fault, _, he⟩ | ⟨action, hp, he⟩
    · rw [he] at h
      exact absurd h (Nat.lt_irrefl _)
    · cases hp
      rw [he]
      rfl

theorem step_ret (hr : m.status = .running) (hf : m.fetch = .ok .ret) {a : Word} {rest : List Word}
    (hs : m.processor.stack = a :: rest) :
    m.step.1 = .ok .running ∧ m.step.2.processor.pc = a ∧ m.step.2.processor.stack = rest := by
  rw [step_of_planned hr hf (.ret hs) rfl hr]
  exact ⟨rfl, rfl, congrArg List.tail hs⟩

/-- Entries that a run stays above are kept, and a return at the depth its call left goes behind
that call with the stack from before it. -/
theorem stack_discipline (m : Machine δ) :
    (∀ d n, (∀ k, k ≤ n → d ≤ (m.after k).processor.stack.length) → ∀ k, k ≤ n →
      lowest d (m.after k).processor.stack = lowest d m.processor.stack) ∧
    ∀ target n, m.fetch = .ok (.call target) →
      (∀ k, 1 ≤ k → k ≤ n → m.processor.stack.length + 1 ≤ (m.after k).processor.stack.length) →
      (m.after n).status = .running → (m.after n).fetch = .ok .ret →
      (m.after n).processor.stack.length = m.processor.stack.length + 1 →
      (m.after n).step.1 = .ok .running ∧
        (m.after (n + 1)).processor.pc.toNat = m.processor.pc.toNat + 2 ∧
        (m.after (n + 1)).processor.stack = m.processor.stack := by
  refine ⟨?_, ?_⟩
  · intro d n h k hk
    exact lowest_after fun j hj => h j (by omega)
  · intro target n hcall habove hr hret hd
    cases n with
    | zero => cases hcall.symm.trans hret
    | succ n =>
      obtain ⟨a, ha, hpushed⟩ := stack_step_call hcall (habove 1 (Nat.le_refl 1) (by omega))
      have hkept : lowest (m.processor.stack.length + 1) (m.after (n + 1)).processor.stack =
          lowest (m.processor.stack.length + 1) m.step.2.processor.stack := by
        rw [after_succ]
        refine lowest_after fun k hk => ?_
        rw [← after_succ]
        exact habove (k + 1) (by omega) (by omega)
      have hs : (m.after (n + 1)).processor.stack = a :: m.processor.stack := by
        have hl :
            lowest (m.processor.stack.length + 1) m.step.2.processor.stack = m.step.2.processor.stack := by
          rw [hpushed]
          exact lowest_length (a :: m.processor.stack)
        rw [← hd, lowest_length, hd, hl] at hkept
        rw [hkept, hpushed]
      obtain ⟨hok, hpc, hrest⟩ := step_ret hr hret hs
      exact ⟨hok, (congrArg UInt16.toNat hpc).trans ha, hrest⟩

/-- A subroutine that pushes, calls in turn and pops before it returns. -/
def nesting : Machine Transcript where
  device := .ofBytes []
  processor := {
    memory := Memory.empty.overlay 0 [17, 3, 0, 2, 7, 17, 9, 3, 32768, 18] (by decide)
    stack := [5] }

theorem stack_discipline_nesting :
    (nesting.after 6).processor.pc.toNat = 2 ∧ (nesting.after 6).processor.stack = [5] := by
  have hcall : nesting.fetch = .ok (.call 3) := fetch_eq_ok_iff.mpr (by decide +kernel)
  have hret : (nesting.after 5).fetch = .ok .ret := fetch_eq_ok_iff.mpr (by decide +kernel)
  have habove : ∀ k, k < 6 → 1 ≤ k → 2 ≤ (nesting.after k).processor.stack.length := by decide +kernel
  have h := (stack_discipline nesting).2 3 5 hcall (fun k hk hk5 => habove k (by omega) hk)
    (by decide +kernel) hret (by decide +kernel)
  exact h.2

end Machine

end WordMachine
