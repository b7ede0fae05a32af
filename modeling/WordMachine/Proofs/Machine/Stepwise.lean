import WordMachine.Proofs.Machine.Completion

/-!
# Maps that go through steps

A map of machines that goes through every step goes through every run. Maps of devices do, and so
does taking the journal away: a machine writes its journal and never looks at it.
-/

namespace WordMachine.Machine

def muted {δ : Type} (m : Machine δ) : Machine δ := { m with journal := none }

section
variable {δ ε ζ : Type} [Device δ] [Device ε] [Device ζ]

structure Stepwise (g : Machine δ → Machine ε) : Prop where
  status : ∀ m, (g m).status = m.status
  step : ∀ m, (g m).step = (m.step.1, g m.step.2)

variable {g : Machine δ → Machine ε} (hg : Stepwise g)
include hg

theorem Stepwise.run (m : Machine δ) (fuel : Nat) : (g m).run fuel = ((m.run fuel).1, g (m.run fuel).2) := by
  induction fuel generalizing m with
  | zero => simp [Machine.run, hg.status]
  | succ fuel ih =>
    by_cases h : m.status = .running
    · rw [Machine.run, Machine.run, if_pos ((hg.status m).trans h), if_pos h, hg.step]
      cases hs : m.step with
      | mk result n =>
        cases result with
        | ok status => exact ih n
        | error fault => rfl
    · have h' : (g m).status ≠ .running := by rwa [hg.status]
      rw [run_of_stopped h, run_of_stopped h', hg.status]

theorem Stepwise.completes_iff {m : Machine δ} {answer : Except Fault Status} {k : Machine ε} :
    Completes (g m) answer k ↔ ∃ n, Completes m answer n ∧ k = g n := by
  simp only [completes_iff_run]
  refine ⟨?_, ?_⟩
  · intro ⟨hk, fuel, hrun⟩
    rw [hg.run] at hrun
    cases hrun
    rw [hg.status] at hk
    exact ⟨_, ⟨hk, fuel, rfl⟩, rfl⟩
  · rintro ⟨n, ⟨hn, fuel, hrun⟩, rfl⟩
    refine ⟨by rwa [hg.status], fuel, ?_⟩
    rw [hg.run, hrun]

/-- The sessions of the mapped machine are those of the machine itself, every answer with the mapped
machine. -/
theorem Stepwise.session_iff {m : Machine δ} {calls : List Call}
    {answers : List (Except Fault Status × Machine ε)} :
    Session (g m) calls answers ↔
      ∃ results, Session m calls results ∧ answers = results.map fun x => (x.1, g x.2) := by
  refine ⟨?_, ?_⟩
  · intro h
    induction calls generalizing m answers with
    | nil =>
      cases h
      exact ⟨[], .nil, rfl⟩
    | cons call calls ih =>
      cases h with
      | step h =>
        rw [hg.step] at h
        obtain ⟨results, hs, rfl⟩ := ih h
        exact ⟨_, .step hs, by rw [List.map_cons, hg.step]⟩
      | run hc h =>
        obtain ⟨n, hn, rfl⟩ := hg.completes_iff.mp hc
        obtain ⟨results, hs, rfl⟩ := ih h
        exact ⟨_, .run hn hs, rfl⟩
  · rintro ⟨results, h, rfl⟩
    induction h with
    | nil => exact .nil
    | @step m calls results _ ih =>
      rw [List.map_cons, ← hg.step]
      apply Session.step
      rwa [hg.step]
    | run hc _ ih => exact .run (hg.completes_iff.mpr ⟨_, hc, rfl⟩) ih

end

theorem stepwise_mapDevice {δ ε : Type} [Device δ] [Device ε] {f : δ → ε} (hf : Device.Respects f) :
    Stepwise (mapDevice f) :=
  ⟨fun _ => rfl, step_mapDevice hf⟩

section
variable {δ : Type}

theorem patch_muted (m : Machine δ) (patches : List Patch) :
    m.muted.patch patches = ((m.patch patches).1, (m.patch patches).2.muted) := by
  induction patches generalizing m with
  | nil => rfl
  | cons p rest ih =>
    unfold patch
    rw [show m.muted.processor = m.processor from rfl]
    cases m.processor.patch p with
    | ok processor => exact ih ({ m with processor }.note (.patched p))
    | error fault => rfl

variable [Device δ]

/-- An action uses neither the journal nor what is to happen on an empty return. -/
theorem perform_with (m : Machine δ) (emptyReturn : EmptyReturn) (journal : Option (Array Event))
    (action : Action) :
    { m with emptyReturn, journal }.perform action =
      ((m.perform action).1, { (m.perform action).2 with emptyReturn, journal }) := by
  let m' : Machine δ := { m with emptyReturn, journal }
  show m'.perform action = _
  cases action with
  | print code =>
    cases h : Device.output m.device code with
    | mk result device =>
      cases result with
      | ok u => rw [perform_print_ok h, perform_print_ok (m := m') h]
      | error kind => rw [perform_print_error h, perform_print_error (m := m') h]
  | read r =>
    cases h : Device.input m.device with
    | mk result device =>
      cases result with
      | ok code => rw [perform_read_ok h, perform_read_ok (m := m') h]
      | error kind => rw [perform_read_error h, perform_read_error (m := m') h]
  | _ => rfl

theorem emptyReturn_perform (m : Machine δ) (action : Action) :
    (m.perform action).2.emptyReturn = m.emptyReturn :=
  congrArg (fun x => x.2.emptyReturn) (perform_with m m.emptyReturn m.journal action)

theorem journal_perform (m : Machine δ) (action : Action) : (m.perform action).2.journal = m.journal :=
  congrArg (fun x => x.2.journal) (perform_with m m.emptyReturn m.journal action)

theorem perform_muted (m : Machine δ) (action : Action) :
    m.muted.perform action = ((m.perform action).1, (m.perform action).2.muted) := by
  refine (perform_with m m.emptyReturn none action).trans ?_
  rw [← emptyReturn_perform m action]
  rfl

theorem execute_muted (m : Machine δ) (i : Instruction) :
    m.muted.execute i = ((m.execute i).1, (m.execute i).2.muted) := by
  unfold execute
  rw [show m.muted.processor.plan m.muted.emptyReturn i = m.processor.plan m.emptyReturn i from rfl]
  cases m.processor.plan m.emptyReturn i with
  | ok action => exact perform_muted m action
  | error fault => rfl

theorem stepwise_muted : Stepwise (muted : Machine δ → Machine δ) := by
  refine ⟨fun _ => rfl, ?_⟩
  intro m
  by_cases h : m.status = .running
  · rcases step_cases h with ⟨fault, hf, hs⟩ | ⟨i, hf, hs⟩
    · rw [hs, step_of_fetch_error (m := m.muted) h hf]
      rfl
    · rw [hs, step_of_fetch_ok (m := m.muted) h hf,
        ← conclude_map (g := muted) (fun _ => rfl) (fun _ _ => rfl) (fun _ => rfl), ← execute_muted]
      rfl
  · rw [step_of_stopped h, step_of_stopped (m := m.muted) h]
    rfl

end

end WordMachine.Machine
