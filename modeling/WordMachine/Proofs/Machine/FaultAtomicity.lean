import WordMachine.Device.Transcript
import WordMachine.Proofs.Machine.Acts

/-!
# Faults change nothing

An instruction checks all it needs before it changes anything, so a fault finds the machine as the
instruction found it. Only a call of the device can fail later, and then the failure is that
call's own. A step that faults has moved the program counter at most (`fault_atomic`).
-/

namespace WordMachine

inductive Device.Call
  | input
  | output (code : Word)
  deriving DecidableEq, Repr

/-- A device with the calls that were made to it, the latest first. -/
structure Traced (δ : Type) where
  device : δ
  calls : List Device.Call

instance {δ : Type} [Device δ] : Device (Traced δ) where
  input d :=
    let (code, device) := Device.input d.device
    (code, { device, calls := .input :: d.calls })
  output d code :=
    let (result, device) := Device.output d.device code
    (result, { device, calls := .output code :: d.calls })

namespace Machine

variable {δ : Type}

def traced (m : Machine δ) (calls : List Device.Call) : Machine (Traced δ) :=
  m.mapDevice fun device => { device, calls }

/-- The ways in which an instruction ends in a fault, with the calls that it makes and the device
after them. -/
inductive FaultSource [Device δ] (m : Machine δ) : Instruction → Fault → List Device.Call → δ → Prop
  | check {i fault} : m.processor.plan m.emptyReturn i = .error fault → FaultSource m i fault [] m.device
  | output {s code kind device} : m.processor.value s = .ok code →
      Device.output m.device code = (.error kind, device) →
      FaultSource m (.output s) (.ofFailure kind) [.output code] device
  | input {d r kind device} : Processor.destination d = .ok r →
      Device.input m.device = (.error kind, device) →
      FaultSource m (.input d) (.ofFailure kind) [.input] device

section
variable [Device δ] {m n : Machine δ} {i : Instruction} {fault : Fault} {calls : List Device.Call}
  {device : δ}

theorem perform_error_cases {action : Action} (h : m.perform action = (.error fault, n)) :
    ∃ kind device, fault = .ofFailure kind ∧ n = { m with device } ∧
      ((∃ code, action = .print code ∧ Device.output m.device code = (.error kind, device)) ∨
        ∃ r, action = .read r ∧ Device.input m.device = (.error kind, device)) := by
  cases action with
  | print code =>
    cases ho : Device.output m.device code with
    | mk result device =>
      cases result with
      | ok u => simp [perform_print_ok ho] at h
      | error kind =>
        rw [perform_print_error ho] at h
        cases h
        exact ⟨kind, device, rfl, rfl, Or.inl ⟨code, rfl, ho⟩⟩
  | read r =>
    cases hi : Device.input m.device with
    | mk result device =>
      cases result with
      | ok code => simp [perform_read_ok hi] at h
      | error kind =>
        rw [perform_read_error hi] at h
        cases h
        exact ⟨kind, device, rfl, rfl, Or.inr ⟨r, rfl, rfl⟩⟩
  | _ => simp [perform] at h

theorem execute_error_cases (h : m.execute i = (.error fault, n)) :
    ∃ calls device, m.FaultSource i fault calls device ∧ n = { m with device } := by
  rcases execute_cases m i with ⟨fault', hp, he⟩ | ⟨action, hp, he⟩
  · rw [h] at he
    cases he
    exact ⟨[], m.device, .check hp, rfl⟩
  · obtain ⟨kind, device, rfl, hn, ⟨code, rfl, ho⟩ | ⟨r, rfl, hi⟩⟩ := perform_error_cases (he.symm.trans h)
    · cases hp with
      | output hv => exact ⟨_, device, .output hv ho, hn⟩
    · cases hp with
      | input hr => exact ⟨_, device, .input hr hi, hn⟩

theorem FaultSource.execute_traced (h : m.FaultSource i fault calls device) :
    (m.traced []).execute i = (.error fault, { m with device }.traced calls) := by
  cases h with
  | check hp =>
    unfold execute
    rw [show (m.traced []).processor.plan (m.traced []).emptyReturn i = _ from hp]
  | output hv ho =>
    apply (execute_of_planned (m := m.traced []) (.output hv)).trans
    apply perform_print_error
    simp [Device.output, traced, mapDevice, ho]
  | input hr hi =>
    apply (execute_of_planned (m := m.traced []) (.input hr)).trans
    apply perform_read_error
    simp [Device.input, traced, mapDevice, hi]

theorem FaultSource.of_past (h : (m.past i).FaultSource i fault calls device) :
    m.FaultSource i fault calls device := by
  cases h with
  | check hp =>
    apply FaultSource.check
    rw [← hp]
    -- no check reads the program counter, and nothing else has moved
    cases i <;> rfl
  | output hv ho => exact .output hv ho
  | input hr hi => exact .input hr hi

theorem running_of_step_error (h : m.step = (.error fault, n)) : m.status = .running := by
  apply Classical.byContradiction
  intro hr
  simp [step_of_stopped hr] at h

theorem step_error_cases (h : m.step = (.error fault, n)) :
    (m.fetch = .error fault ∧ n = { m.note (.faulted m.processor.pc fault) with status := .faulted }) ∨
      ∃ i k, m.fetch = .ok i ∧ (m.past i).execute i = (.error fault, k) ∧
        n = { k.note (.faulted m.processor.pc fault) with status := .faulted } := by
  rcases step_cases (running_of_step_error h) with ⟨fault', hf, hs⟩ | ⟨i, hf, hs⟩
  · rw [h] at hs
    cases hs
    exact Or.inl ⟨hf, rfl⟩
  · rw [h] at hs
    cases he : (m.past i).execute i with
    | mk result k =>
      rw [he] at hs
      cases result with
      | ok u =>
        have hok := (conclude_ok m.processor.pc k).1
        simp [← hs] at hok
      | error fault' =>
        cases hs
        exact Or.inr ⟨i, k, hf, he, rfl⟩

/-- A fault leaves all but the device as it was, and the device too unless the fault is the failure
of a call that the instruction makes. A step that faults also stops the machine, tells the journal,
and may have moved the program counter behind the instruction. -/
theorem fault_atomic (m : Machine δ) :
    (∀ i fault n, m.execute i = (.error fault, n) →
      n = { m with device := n.device } ∧
      ∃ calls, m.FaultSource i fault calls n.device ∧
        (m.traced []).execute i = (.error fault, n.traced calls)) ∧
    ∀ fault n, m.status = .running → m.step = (.error fault, n) →
      n = { m with
        device := n.device, status := .faulted, journal := n.journal, processor.pc := n.processor.pc } ∧
      ∃ calls, (m.traced []).step = (.error fault, n.traced calls) ∧
        ((m.fetch = .error fault ∧ n.processor.pc = m.processor.pc ∧ calls = [] ∧ n.device = m.device) ∨
          ∃ i, m.fetch = .ok i ∧ n.processor.pc.toNat = m.processor.pc.toNat + 1 + i.opcode.arity ∧
            m.FaultSource i fault calls n.device) := by
  refine ⟨?_, ?_⟩
  · intro i fault n h
    obtain ⟨calls, device, hs, rfl⟩ := execute_error_cases h
    exact ⟨rfl, calls, hs, hs.execute_traced⟩
  · intro fault n hr h
    rcases step_error_cases h with ⟨hf, rfl⟩ | ⟨i, k, hf, he, rfl⟩
    · exact ⟨rfl, [], step_of_fetch_error (m := m.traced []) hr hf, Or.inl ⟨hf, rfl, rfl, rfl⟩⟩
    · obtain ⟨calls, device, hs, rfl⟩ := execute_error_cases he
      refine ⟨rfl, calls, ?_, Or.inr ⟨i, hf, ?_, hs.of_past⟩⟩
      · rw [step_of_fetch_ok (m := m.traced []) hr hf]
        exact congrArg (conclude m.processor.pc) hs.execute_traced
      · rw [Nat.add_assoc]
        exact toNat_pc_past hf

end

/-- Awaits a code that never comes, with words of 16 bits all over. -/
def starving : Machine Transcript where
  device := .ofBytes []
  processor := {
    memory := Memory.empty.overlay 5 [20, 32769] (by decide)
    pc := 5
    registers := Vector.replicate 8 40000
    stack := [50000] }

theorem fault_atomic_starving :
    (∃ n, starving.execute (.input 32769) = (.error .inputClosed, n) ∧ n.processor = starving.processor) ∧
      starving.status = .running ∧
      ∃ n, starving.step = (.error .inputClosed, n) ∧ n.processor.pc.toNat = 7 ∧
        n.processor.stack = [50000] := by
  have hf : starving.fetch = .ok (.input 32769) := fetch_eq_ok_iff.mpr (by decide +kernel)
  obtain ⟨n, hx⟩ : ∃ n, starving.execute (.input 32769) = (.error .inputClosed, n) := ⟨_, rfl⟩
  obtain ⟨k, hs⟩ : ∃ k, starving.step = (.error .inputClosed, k) := ⟨_, step_of_fetch_ok rfl hf⟩
  have hn := ((fault_atomic starving).1 _ _ _ hx).1
  obtain ⟨hk, calls, _, ⟨hf', _⟩ | ⟨i, hf', hpc, _⟩⟩ := (fault_atomic starving).2 _ _ rfl hs
  · cases hf.symm.trans hf'
  · cases hf.symm.trans hf'
    refine ⟨⟨n, hx, ?_⟩, rfl, k, hs, hpc, ?_⟩
    · rw [hn]
    · rw [hk]
      rfl

end Machine

end WordMachine
