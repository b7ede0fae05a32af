import WordMachine.Proofs.Machine.FaultAtomicity

/-!
# Runs to the end

A run without a bound steps until the machine has stopped, and that is final: whatever is called
afterwards finds the same machine and leaves it (`run_iterates_step`). A bounded run that has
stopped is such a run (`completes_iff_run`).
-/

namespace WordMachine.Machine

inductive Call
  | step
  | run

/-- The answer stops a machine that was running. -/
inductive Stops {δ : Type} : Except Fault Status × Machine δ → Prop
  | halt {m} : m.status = .halted → Stops (.ok .halted, m)
  | fault {m fault} : m.status = .faulted → Stops (.error fault, m)

theorem Stops.not_running {δ : Type} {x : Except Fault Status × Machine δ} (h : Stops x) :
    x.2.status ≠ .running := by
  cases h with
  | halt h => simp [h]
  | fault h => simp [h]

/-- Answers of a running machine, up to one that stops it, and then that machine again and again. -/
def StopsOnce {δ : Type} (results : List (Except Fault Status × Machine δ)) : Prop :=
  ∃ front back, results = front ++ back ∧ (∀ x ∈ front, x.1 = .ok .running ∧ x.2.status = .running) ∧
    (back = [] ∨ ∃ x rest, back = x :: rest ∧ Stops x ∧ ∀ y ∈ rest, y = (.ok x.2.status, x.2))

section
variable {δ : Type} [Device δ]

inductive Completes : Machine δ → Except Fault Status → Machine δ → Prop
  | stopped {m} : m.status ≠ .running → Completes m (.ok m.status) m
  | fault {m n fault} : m.step = (.error fault, n) → Completes m (.error fault) n
  | step {m n k status answer} : m.status = .running → m.step = (.ok status, n) → Completes n answer k →
      Completes m answer k

/-- The answers to calls made one after the other, each with the machine that it leaves. -/
inductive Session : Machine δ → List Call → List (Except Fault Status × Machine δ) → Prop
  | nil {m} : Session m [] []
  | step {m calls results} : Session m.step.2 calls results → Session m (.step :: calls) (m.step :: results)
  | run {m n answer calls results} : Completes m answer n → Session n calls results →
      Session m (.run :: calls) ((answer, n) :: results)

variable {m n k : Machine δ} {answer : Except Fault Status}

/-! ## Single steps -/

theorem status_execute (m : Machine δ) (i : Instruction) :
    (m.execute i).2.status = m.status ∨ (m.execute i).2.status = .halted := by
  rcases execute_cases m i with ⟨fault, _, he⟩ | ⟨action, _, he⟩
  · simp [he]
  · rw [he]
    cases action with
    | print code =>
      cases h : Device.output m.device code with
      | mk result device => cases result <;> simp [perform, h]
    | read r =>
      cases h : Device.input m.device with
      | mk result device => cases result <;> simp [perform, h]
    | _ => simp [perform]

theorem step_running (h : m.status = .running) :
    (∃ n, m.step = (.ok .running, n) ∧ n.status = .running) ∨ Stops m.step := by
  rcases step_cases h with ⟨fault, _, hs⟩ | ⟨i, _, hs⟩
  · rw [hs]
    exact Or.inr (.fault rfl)
  · rw [hs]
    cases he : (m.past i).execute i with
    | mk result n =>
      cases result with
      | error fault => exact Or.inr (.fault rfl)
      | ok u =>
        have hn : n.status = .running ∨ n.status = .halted := by
          simpa [he, show (m.past i).status = .running from h] using status_execute (m.past i) i
        rcases hn with hn | hn
        · exact Or.inl ⟨n, conclude_of_running _ hn, hn⟩
        · rw [conclude_of_halted _ hn]
          exact Or.inr (.halt hn)

/-! ## Whole runs -/

theorem completes_of_stopped (h : m.status ≠ .running) (hc : Completes m answer n) :
    answer = .ok m.status ∧ n = m := by
  cases hc with
  | stopped => exact ⟨rfl, rfl⟩
  | fault hs => simp [step_of_stopped h] at hs
  | step hr => exact absurd hr h

theorem Completes.stops (hc : Completes m answer n) (h : m.status = .running) : Stops (answer, n) := by
  induction hc with
  | stopped hs => exact absurd h hs
  | fault hs => exact .fault (status_step_error hs)
  | @step m n k status answer _ hs hc ih =>
    rcases step_running h with ⟨n', hs', hn⟩ | hstop
    · rw [hs'] at hs
      cases hs
      exact ih hn
    · rw [hs] at hstop
      obtain ⟨rfl, rfl⟩ := completes_of_stopped hstop.not_running hc
      cases hstop with
      | halt hn => rw [hn]; exact .halt hn

theorem Completes.not_running (hc : Completes m answer n) : n.status ≠ .running := by
  by_cases h : m.status = .running
  · exact (hc.stops h).not_running
  · rw [(completes_of_stopped h hc).2]
    exact h

theorem Completes.exists_bound (hc : Completes m answer n) :
    ∃ bound, ∀ fuel, bound ≤ fuel → m.run fuel = (answer, n) := by
  induction hc with
  | stopped h => exact ⟨0, fun fuel _ => run_of_stopped h fuel⟩
  | fault hs =>
    refine ⟨1, ?_⟩
    rintro (_ | fuel) hle
    · cases hle
    · simp [run, running_of_step_error hs, hs]
  | step h hs _ ih =>
    obtain ⟨bound, hb⟩ := ih
    refine ⟨bound + 1, ?_⟩
    rintro (_ | fuel) hle
    · cases hle
    · simp [run, h, hs, hb fuel (Nat.le_of_succ_le_succ hle)]

theorem Completes.exists_run (hc : Completes m answer n) : ∃ fuel, m.run fuel = (answer, n) := by
  obtain ⟨bound, hb⟩ := hc.exists_bound
  exact ⟨bound, hb bound (Nat.le_refl bound)⟩

theorem completes_of_run {fuel : Nat} (hr : m.run fuel = (answer, n)) (h : n.status ≠ .running) :
    Completes m answer n := by
  induction fuel generalizing m with
  | zero =>
    cases hr
    exact .stopped h
  | succ fuel ih =>
    by_cases hm : m.status = .running
    · rw [run, if_pos hm] at hr
      cases hs : m.step with
      | mk result k =>
        rw [hs] at hr
        cases result with
        | ok status => exact .step hm hs (ih hr)
        | error fault =>
          cases hr
          exact .fault hs
    · rw [run_of_stopped hm] at hr
      cases hr
      exact .stopped hm

theorem completes_iff_run :
    Completes m answer n ↔ n.status ≠ .running ∧ ∃ fuel, m.run fuel = (answer, n) :=
  ⟨fun hc => ⟨hc.not_running, hc.exists_run⟩, fun ⟨h, _, hr⟩ => completes_of_run hr h⟩

theorem after_eq_after {i j : Nat} (hi : (m.after i).status ≠ .running) (hj : (m.after j).status ≠ .running) :
    m.after i = m.after j := by
  rcases Nat.le_total i j with h | h
  · rw [← Nat.add_sub_cancel' h, after_add, after_of_stopped hi]
  · rw [← Nat.add_sub_cancel' h, after_add, after_of_stopped hj]

theorem Completes.eq_after (hc : Completes m answer n) {i : Nat} (hi : (m.after i).status ≠ .running) :
    n = m.after i := by
  obtain ⟨fuel, hr⟩ := hc.exists_run
  have hn : n = m.after fuel := by rw [← run_snd, hr]
  rw [hn]
  exact after_eq_after (hn ▸ hc.not_running) hi

theorem exists_completes {i : Nat} (h : (m.after i).status ≠ .running) :
    ∃ answer, Completes m answer (m.after i) := by
  rw [← run_snd] at h ⊢
  exact ⟨(m.run i).1, completes_of_run rfl h⟩

/-! ## Runs after some steps -/

/-- The answer of a run that is resumed at this status. A fault is not reported again. -/
def resumed : Status → Except Fault Status → Except Fault Status
  | .faulted, _ => .ok .faulted
  | _, answer => answer

theorem resumed_of_ne {status : Status} (h : status ≠ .faulted) (answer : Except Fault Status) :
    resumed status answer = answer := by
  cases status with
  | faulted => exact absurd rfl h
  | _ => rfl

theorem Completes.resume_step (hc : Completes m answer n) :
    Completes m.step.2 (resumed m.step.2.status answer) n := by
  cases hc with
  | stopped h =>
    rw [step_of_stopped h]
    have ha : resumed m.status (.ok m.status) = .ok m.status := by cases hm : m.status <;> rfl
    rw [ha]
    exact .stopped h
  | fault hs =>
    have hn := status_step_error hs
    have hstop : Completes n (.ok n.status) n := .stopped (by simp [hn])
    rw [hs]
    simpa [resumed, hn] using hstop
  | @step _ k _ status _ h hs hk =>
    have hne : k.status ≠ .faulted := by
      rcases step_running h with ⟨k', hs', hk'⟩ | hstop
      · rw [hs'] at hs
        cases hs
        simp [hk']
      · rw [hs] at hstop
        cases hstop with
        | halt hk' => simp [hk']
    rw [hs, resumed_of_ne hne]
    exact hk

theorem Completes.resume (hc : Completes m answer n) (i : Nat) :
    Completes (m.after i) (resumed (m.after i).status answer) n := by
  induction i with
  | zero =>
    have ha : resumed m.status answer = answer := by
      by_cases h : m.status = .faulted
      · rw [(completes_of_stopped (by simp [h]) hc).1, h]
        rfl
      · exact resumed_of_ne h answer
    rw [after, ha]
    exact hc
  | succ i ih =>
    have hnext := ih.resume_step
    by_cases h : (m.after i).status = .faulted
    · have hs : (m.after i).step.2.status = .faulted := by
        rw [step_of_stopped (by simp [h])]
        exact h
      rw [hs] at hnext
      rw [after, hs]
      exact hnext
    · rw [resumed_of_ne h] at hnext
      exact hnext

theorem exists_completes_of_after {i : Nat} (hc : Completes (m.after i) answer n) :
    ∃ answer, Completes m answer n := by
  obtain ⟨fuel, hr⟩ := hc.exists_run
  have hn : n = m.after (i + fuel) := by rw [after_add, ← run_snd, hr]
  rw [hn]
  exact exists_completes (hn ▸ hc.not_running)

end

/-! ## Device calls and sessions -/

section
variable {δ : Type} [Device δ] {m n : Machine δ} {answer : Except Fault Status}

theorem Traced.respects : Device.Respects (Traced.device : Traced δ → δ) :=
  ⟨fun _ => rfl, fun _ _ => rfl⟩

theorem step_traced (m : Machine δ) (calls : List Device.Call) :
    ∃ calls', (m.traced calls).step = (m.step.1, m.step.2.traced calls') := by
  refine ⟨(m.traced calls).step.2.device.calls, ?_⟩
  have h : m.step = mapResult Traced.device (m.traced calls).step :=
    step_mapDevice Traced.respects (m.traced calls)
  rw [h]
  rfl

theorem Completes.traced (hc : Completes m answer n) (calls : List Device.Call) :
    ∃ calls', Completes (m.traced calls) answer (n.traced calls') := by
  induction hc generalizing calls with
  | stopped h => exact ⟨calls, .stopped h⟩
  | @fault m n fault hs =>
    obtain ⟨calls', ht⟩ := step_traced m calls
    rw [hs] at ht
    exact ⟨calls', .fault ht⟩
  | @step m n k status answer h hs _ ih =>
    obtain ⟨calls', ht⟩ := step_traced m calls
    rw [hs] at ht
    obtain ⟨calls'', hc⟩ := ih calls'
    exact ⟨calls'', .step h ht hc⟩

theorem Session.of_stopped {calls : List Call} {results : List (Except Fault Status × Machine δ)}
    (hs : Session m calls results) (h : m.status ≠ .running) : ∀ x ∈ results, x = (.ok m.status, m) := by
  induction hs with
  | nil => simp
  | step _ ih =>
    rw [step_of_stopped h] at ih ⊢
    simpa using ih h
  | run hc _ ih =>
    obtain ⟨rfl, rfl⟩ := completes_of_stopped h hc
    simpa using ih h

theorem Session.of_running {calls : List Call} {results : List (Except Fault Status × Machine δ)}
    (hs : Session m calls results) (h : m.status = .running) : StopsOnce results := by
  induction hs with
  | nil => exact ⟨[], [], rfl, by simp, Or.inl rfl⟩
  | @step m calls results hs ih =>
    rcases step_running h with ⟨n, hn, hr⟩ | hstop
    · rw [hn] at ih ⊢
      obtain ⟨front, back, rfl, hfront, hback⟩ := ih hr
      exact ⟨(.ok .running, n) :: front, back, rfl, by simpa [hr] using hfront, hback⟩
    · exact ⟨[], _, rfl, by simp, Or.inr ⟨_, _, rfl, hstop, hs.of_stopped hstop.not_running⟩⟩
  | run hc hs ih =>
    have hstop := hc.stops h
    exact ⟨[], _, rfl, by simp, Or.inr ⟨_, _, rfl, hstop, hs.of_stopped hstop.not_running⟩⟩

/-- In a session of steps and runs a machine stops at most once, there it answers its only fault, if
it has one, and from then on it is left alone. A run ends if and only if some number of steps stops
the machine, and as those steps leave it. After any number of steps a run still leaves that
machine, with the same calls of the device made. -/
theorem run_iterates_step (m : Machine δ) :
    (∀ calls results, Session m calls results →
      (m.status ≠ .running → ∀ x ∈ results, x = (.ok m.status, m)) ∧
      (m.status = .running → StopsOnce results)) ∧
    (∀ answer n, Completes m answer n ↔ n.status ≠ .running ∧ ∃ fuel, m.run fuel = (answer, n)) ∧
    ((∃ answer n, Completes m answer n) ↔ ∃ i, (m.after i).status ≠ .running) ∧
    (∀ answer n, Completes m answer n → answer ≠ .ok .running ∧
      ∀ i, (m.after i).status ≠ .running → n = m.after i) ∧
    (∀ i n, (∃ answer, Completes m answer n) ↔ ∃ answer, Completes (m.after i) answer n) ∧
    ∀ i answer n, Completes m answer n →
      Completes (m.after i) (resumed (m.after i).status answer) n ∧
      ∃ calls, Completes (m.traced []) answer (n.traced calls) ∧
        ∃ answer', Completes ((m.traced []).after i) answer' (n.traced calls) := by
  refine ⟨?_, fun _ _ => completes_iff_run, ?_, ?_, ?_, ?_⟩
  · intro calls results hs
    exact ⟨hs.of_stopped, hs.of_running⟩
  · refine ⟨?_, ?_⟩
    · rintro ⟨answer, n, hc⟩
      obtain ⟨fuel, hr⟩ := hc.exists_run
      refine ⟨fuel, ?_⟩
      rw [← run_snd, hr]
      exact hc.not_running
    · rintro ⟨i, h⟩
      obtain ⟨answer, hc⟩ := exists_completes h
      exact ⟨answer, _, hc⟩
  · intro answer n hc
    refine ⟨?_, fun i => hc.eq_after⟩
    rintro rfl
    by_cases h : m.status = .running
    · cases hc.stops h
    · exact h (Except.ok.inj (completes_of_stopped h hc).1).symm
  · intro i n
    exact ⟨fun ⟨_, hc⟩ => ⟨_, hc.resume i⟩, fun ⟨_, hc⟩ => exists_completes_of_after hc⟩
  · intro i answer n hc
    obtain ⟨calls, ht⟩ := hc.traced []
    exact ⟨hc.resume i, calls, ht, _, ht.resume i⟩

end

/-- Prints a character and then pops from the empty stack. -/
def stumbling : Machine Transcript where
  device := .ofBytes []
  processor := { memory := Memory.empty.overlay 0 [19, 65, 3, 32768] (by decide) }

theorem run_iterates_step_stumbling :
    ∃ n, n = stumbling.after 5 ∧ n.status = .faulted ∧ n.device.printed = #[65] ∧
      Completes stumbling (.error .stackUnderflow) n ∧ Completes (stumbling.after 2) (.ok .faulted) n ∧
      StopsOnce [stumbling.step, (.error .stackUnderflow, n), (.ok .faulted, n)] := by
  obtain ⟨hsession, hrun, _, hfinal, _, hresume⟩ := run_iterates_step stumbling
  have hrunning : (stumbling.after 1).status = .running := by decide +kernel
  have hn : (stumbling.after 2).status = .faulted := by decide +kernel
  have hc : Completes stumbling (.error .stackUnderflow) (stumbling.after 2) :=
    (hrun _ _).mpr ⟨by simp [hn], 2, Prod.ext rfl (run_snd stumbling 2)⟩
  have hrest : Completes (stumbling.after 1) (.error .stackUnderflow) (stumbling.after 2) := by
    have h := (hresume 1 _ _ hc).1
    rwa [hrunning] at h
  have hagain : Completes (stumbling.after 2) (.ok .faulted) (stumbling.after 2) := by
    have h := (hresume 2 _ _ hc).1
    rwa [hn] at h
  have h5 := (hfinal _ _ hc).2 5 (by decide +kernel)
  exact ⟨stumbling.after 2, h5, hn, by decide +kernel, hc, hagain,
    (hsession _ _ (.step (.run hrest (.run hagain .nil)))).2 rfl⟩

end WordMachine.Machine
