import WordMachine.Proofs.Machine.Stepwise

/-!
# What the journal tells

A machine that keeps a journal tells of each instruction that it fetches, right before it is executed, and
of the step that stops it, right after it. Nothing is told after that (`journal_tells`). The machine does
the same without a journal.
-/

namespace WordMachine.Machine

/-! ## Records -/

def executing (pc : Word) (i : Instruction) : Record :=
  ⟨.trace, "execute", [("stage", "emulation"), ("pc", Text.decimal pc.toNat), ("instruction", i.text)]⟩

def halting (pc : Word) : Record :=
  ⟨.debug, "halted", [("stage", "emulation"), ("pc", Text.decimal pc.toNat)]⟩

def failing (pc : Word) (fault : Fault) : Record :=
  ⟨.warning, "fault", [("stage", "emulation"), ("pc", Text.decimal pc.toNat), ("fault", fault.message)]⟩

section
variable {δ : Type}

/-- What the journal holds. -/
def records (m : Machine δ) : List Record := (m.journal.getD #[]).toList.map Event.record

theorem records_note {m : Machine δ} (h : m.journal.isSome) (event : Event) :
    (m.note event).records = m.records ++ [event.record] := by
  obtain ⟨events, he⟩ := Option.isSome_iff_exists.mp h
  simp [records, note, he]

theorem isSome_note {m : Machine δ} (h : m.journal.isSome) (event : Event) :
    (m.note event).journal.isSome := by
  simpa [note] using h

end

section
variable {δ : Type} [Device δ]

/-- The records of the steps from one machine to another. -/
inductive Chronicle : Machine δ → List Record → Machine δ → Prop
  | rest {m} : Chronicle m [] m
  | execute {m i n story k} : m.status = .running → m.fetch = .ok i → m.step = (.ok .running, n) →
      Chronicle n story k → Chronicle m (executing m.processor.pc i :: story) k
  | halt {m i n} : m.status = .running → m.fetch = .ok i → m.step = (.ok .halted, n) → n.status = .halted →
      Chronicle m [executing m.processor.pc i, halting m.processor.pc] n
  | fault {m i fault n} : m.status = .running → m.fetch = .ok i → m.step = (.error fault, n) →
      n.status = .faulted →
      Chronicle m [executing m.processor.pc i, failing m.processor.pc fault] n
  | unfetched {m fault n} : m.status = .running → m.fetch = .error fault → m.step = (.error fault, n) →
      n.status = .faulted → Chronicle m [failing m.processor.pc fault] n

variable {m n k : Machine δ} {story more : List Record}

theorem Chronicle.of_stopped (hc : Chronicle m story n) (h : m.status ≠ .running) : story = [] ∧ n = m := by
  cases hc with
  | rest => exact ⟨rfl, rfl⟩
  | execute hr | halt hr | fault hr | unfetched hr => exact absurd hr h

theorem Chronicle.append (hc : Chronicle m story n) (hmore : Chronicle n more k) :
    Chronicle m (story ++ more) k := by
  induction hc with
  | rest => exact hmore
  | execute hr hf hs _ ih => exact .execute hr hf hs (ih hmore)
  | halt hr hf hs hn =>
    obtain ⟨rfl, rfl⟩ := hmore.of_stopped (by simp [hn])
    exact .halt hr hf hs hn
  | fault hr hf hs hn =>
    obtain ⟨rfl, rfl⟩ := hmore.of_stopped (by simp [hn])
    exact .fault hr hf hs hn
  | unfetched hr hf hs hn =>
    obtain ⟨rfl, rfl⟩ := hmore.of_stopped (by simp [hn])
    exact .unfetched hr hf hs hn

/-! ## Steps and runs -/

/-- The journal of the one machine and the records of the steps to the other make the journal of the other. -/
def Tells (m n : Machine δ) : Prop :=
  n.journal.isSome ∧ ∃ story, Chronicle m story n ∧ n.records = m.records ++ story

theorem tells_self (h : m.journal.isSome) : m.Tells m := ⟨h, [], .rest, (List.append_nil _).symm⟩

theorem Tells.trans (h : m.Tells n) (h' : n.Tells k) : m.Tells k := by
  obtain ⟨_, story, hc, hr⟩ := h
  obtain ⟨hk, more, hmore, hr'⟩ := h'
  exact ⟨hk, story ++ more, hc.append hmore, by rw [hr', hr, List.append_assoc]⟩

theorem journal_execute (m : Machine δ) (i : Instruction) : (m.execute i).2.journal = m.journal := by
  rcases execute_cases m i with ⟨fault, _, he⟩ | ⟨action, _, he⟩
  · rw [he]
  · rw [he, journal_perform]

theorem tells_step_of_fetch_error (h : m.journal.isSome) (hr : m.status = .running) {fault : Fault}
    (hf : m.fetch = .error fault) : m.Tells m.step.2 := by
  have hs : m.step = (.error fault, { m.note (.faulted m.processor.pc fault) with status := .faulted }) :=
    step_of_fetch_error hr hf
  rw [hs]
  exact ⟨isSome_note h _, _, .unfetched hr hf hs rfl, records_note h _⟩

theorem tells_step_of_fetch_ok (h : m.journal.isSome) (hr : m.status = .running) {i : Instruction}
    (hf : m.fetch = .ok i) : m.Tells m.step.2 := by
  have hs := step_of_fetch_ok hr hf
  have hjournal := journal_execute (m.past i) i
  have hstatus := status_execute (m.past i) i
  cases he : (m.past i).execute i with
  | mk result n =>
    rw [he] at hs hjournal hstatus
    have hn : n.journal.isSome := by
      rw [hjournal]
      exact isSome_note h _
    have hrecords : n.records = m.records ++ [executing m.processor.pc i] := by
      rw [records, hjournal]
      exact records_note h (.fetched m.processor.pc i)
    -- a second record follows only if this step stops the machine
    have hsecond :
        ∀ event, (n.note event).records = m.records ++ [executing m.processor.pc i, event.record] := by
      intro event
      rw [records_note hn, hrecords, List.append_assoc, List.singleton_append]
    cases result with
    | error fault =>
      have hs :
          m.step = (.error fault, { n.note (.faulted m.processor.pc fault) with status := .faulted }) := hs
      rw [hs]
      exact ⟨isSome_note hn _, _, .fault hr hf hs rfl, hsecond (.faulted m.processor.pc fault)⟩
    | ok u =>
      rcases hstatus with hstatus | hstatus
      · rw [conclude_of_running _ (hstatus.trans hr)] at hs
        rw [hs]
        exact ⟨hn, _, .execute hr hf hs .rest, hrecords⟩
      · rw [conclude_of_halted _ hstatus] at hs
        rw [hs]
        exact ⟨isSome_note hn _, _, .halt hr hf hs hstatus, hsecond (.halted m.processor.pc)⟩

theorem tells_step (h : m.journal.isSome) : m.Tells m.step.2 := by
  by_cases hr : m.status = .running
  · cases hf : m.fetch with
    | error fault => exact tells_step_of_fetch_error h hr hf
    | ok i => exact tells_step_of_fetch_ok h hr hf
  · rw [step_of_stopped hr]
    exact tells_self h

theorem tells_after (h : m.journal.isSome) (k : Nat) : m.Tells (m.after k) :=
  after_induction (fun _ hn => hn.trans (tells_step hn.1)) (tells_self h) k

theorem Session.exists_after {calls : List Call} {results : List (Except Fault Status × Machine δ)}
    (hs : Session m calls results) : ∀ x ∈ results, ∃ k, x.2 = m.after k := by
  induction hs with
  | nil => simp
  | @step m calls results _ ih =>
    intro x hx
    rcases List.mem_cons.mp hx with rfl | hx
    · exact ⟨1, rfl⟩
    · obtain ⟨k, hk⟩ := ih x hx
      exact ⟨k + 1, by rw [hk, after_succ]⟩
  | @run m n answer calls results hc _ ih =>
    obtain ⟨fuel, hrun⟩ := hc.exists_run
    have hn : n = m.after fuel := by rw [← run_snd, hrun]
    intro x hx
    rcases List.mem_cons.mp hx with rfl | hx
    · exact ⟨fuel, hn⟩
    · obtain ⟨k, hk⟩ := ih x hx
      exact ⟨fuel + k, by rw [hk, hn, after_add]⟩

/-- If a journal is kept, it holds what it held before and then the records of the steps that were made, call
by call and also in a run that never ends. A machine that has stopped adds none. Without the journal the
same calls have the same answers, leave the same machine otherwise and make the same calls of the device. -/
theorem journal_tells (m : Machine δ) (h : m.journal.isSome) :
    (∀ k, ∃ story, Chronicle m story (m.after k) ∧ (m.after k).records = m.records ++ story) ∧
    (∀ calls results, Session m calls results → ∀ x ∈ results,
      (∃ story, Chronicle m story x.2 ∧ x.2.records = m.records ++ story) ∧
      (m.status ≠ .running → x.2.records = m.records)) ∧
    (∀ calls answers, Session m.muted calls answers ↔
      ∃ results, Session m calls results ∧ answers = results.map fun x => (x.1, x.2.muted)) ∧
    ∀ calls answers, Session (m.muted.traced []) calls answers ↔
      ∃ results, Session (m.traced []) calls results ∧ answers = results.map fun x => (x.1, x.2.muted) := by
  refine ⟨fun k => (tells_after h k).2, ?_, fun _ _ => stepwise_muted.session_iff, fun _ _ => ?_⟩
  · intro calls results hs x hx
    refine ⟨?_, ?_⟩
    · obtain ⟨k, hk⟩ := hs.exists_after x hx
      rw [hk]
      exact (tells_after h k).2
    · intro hr
      rw [hs.of_stopped hr x hx]
  · exact stepwise_muted.session_iff (m := m.traced [])

end

/-- Overwrites the next instruction, which does nothing, with one that halts. -/
def rewriting : Machine Transcript where
  device := .ofBytes []
  processor := { memory := Memory.empty.overlay 0 [16, 3, 0, 21] (by decide) }
  journal := some #[]

theorem journal_tells_rewriting :
    rewriting.journal.isSome ∧ ∃ n,
      Session rewriting [.step, .run, .run] [rewriting.step, (.ok .halted, n), (.ok .halted, n)] ∧
      Chronicle rewriting [executing 0 (.writeMemory 3 0), executing 3 .halt, halting 3] n ∧
      Session rewriting.muted [.step, .run, .run]
        [(rewriting.step.1, rewriting.step.2.muted), (.ok .halted, n.muted), (.ok .halted, n.muted)] := by
  obtain ⟨_, htold, hmuted, _⟩ := journal_tells rewriting rfl
  have hstopped : (rewriting.after 2).status = .halted := by decide +kernel
  have hrun : (rewriting.after 1).run 1 = (.ok .halted, rewriting.after 2) := Prod.ext rfl (run_snd _ 1)
  have hagain : Completes (rewriting.after 2) (.ok (rewriting.after 2).status) (rewriting.after 2) :=
    .stopped (by simp [hstopped])
  rw [hstopped] at hagain
  have hsession : Session rewriting [.step, .run, .run]
      [rewriting.step, (.ok .halted, rewriting.after 2), (.ok .halted, rewriting.after 2)] :=
    .step (.run (completes_of_run hrun (by simp [hstopped])) (.run hagain .nil))
  obtain ⟨⟨story, hc, hrecords⟩, _⟩ := htold _ _ hsession (.ok .halted, rewriting.after 2) (by simp)
  have hstory :
      (rewriting.after 2).records = [executing 0 (.writeMemory 3 0), executing 3 .halt, halting 3] := by
    decide +kernel
  have hnone : rewriting.records = [] := rfl
  rw [hnone, List.nil_append] at hrecords
  rw [← hrecords, hstory] at hc
  exact ⟨rfl, _, hsession, hc, (hmuted _ _).mpr ⟨_, hsession, rfl⟩⟩

end WordMachine.Machine
