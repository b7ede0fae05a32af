import WordMachine.Proofs.Machine.FaultAtomicity
import WordMachine.Proofs.Machine.WordWidth

/-!
# What faults carry

A fault names the word or the address that it is about. Registers of 15 bits keep every address
that is loaded from or stored to inside memory, so the only words out of range are operands, and
the only address that cannot be fetched is the first behind memory (`fault_payloads`).
-/

namespace WordMachine

/-- The operand that names the register to write. -/
def Instruction.destination? : Instruction → Option Word
  | .set d _ | .pop d | .binary _ d _ _ | .not d _ | .readMemory d _ | .input d => some d
  | _ => none

theorem Instruction.mem_operands_of_destination? {i : Instruction} {d : Word} (h : i.destination? = some d) :
    d ∈ i.operands := by
  cases i with
  | set | pop | binary | not | readMemory | input =>
    cases h
    exact List.mem_cons_self
  | _ => cases h

theorem Memory.addressOf_of_le {w : Word} (h : w.toNat ≤ 32767) : ∃ cell, Memory.addressOf w = .ok cell :=
  ⟨_, Memory.addressOf_of_lt (Nat.lt_succ_of_le h)⟩

namespace Processor

theorem value_eq_error {p : Processor} {w : Word} {fault : Fault} (h : p.value w = .error fault) :
    32776 ≤ w.toNat ∧ fault = .addressOutOfRange w := by
  unfold value at h
  rcases Operand.ofWord_cases w with ⟨_, ho⟩ | ⟨r, _, ho⟩ | ⟨hw, ho⟩ <;> rw [ho] at h
  · cases h
  · cases h
  · cases h
    exact ⟨hw, rfl⟩

theorem destination_eq_error {w : Word} {fault : Fault} (h : Processor.destination w = .error fault) :
    (w.toNat ≤ 32767 ∧ fault = .invalidWriteTarget w) ∨ (32776 ≤ w.toNat ∧ fault = .addressOutOfRange w) := by
  unfold destination at h
  rcases Operand.ofWord_cases w with ⟨hw, ho⟩ | ⟨r, _, ho⟩ | ⟨hw, ho⟩ <;> rw [ho] at h
  · cases h
    exact Or.inl ⟨by omega, rfl⟩
  · cases h
  · cases h
    exact Or.inr ⟨hw, rfl⟩

/-- The checks of an instruction that can fail, each with its fault. -/
inductive Refused (p : Processor) (i : Instruction) : Fault → Prop
  | operand {w fault} : w ∈ i.operands → p.value w = .error fault → Refused p i fault
  | destination {w fault} :
      i.destination? = some w → Processor.destination w = .error fault → Refused p i fault
  | address {w a fault} : p.value w = .ok a → Memory.addressOf a = .error fault → Refused p i fault
  | stack : Refused p i .stackUnderflow
  | divisor : Refused p i .modulusByZero

theorem Refused.of_plan {p : Processor} {emptyReturn : EmptyReturn} {i : Instruction} {fault : Fault}
    (h : p.plan emptyReturn i = .error fault) : p.Refused i fault := by
  have hmem : ∀ {w : Word} {rest : List Word}, w ∈ w :: rest := List.mem_cons_self
  cases i with
  | halt | noop => cases h
  | set d s | not d s =>
    rcases except_bind_eq_error_iff.mp h with h | ⟨v, _, h⟩
    · exact .operand (.tail d hmem) h
    · rcases except_bind_eq_error_iff.mp h with h | ⟨r, _, h⟩
      · exact .destination rfl h
      · cases h
  | push s | jump s | call s | output s =>
    rcases except_bind_eq_error_iff.mp h with h | ⟨v, _, h⟩
    · exact .operand hmem h
    · cases h
  | pop d =>
    rcases except_bind_eq_error_iff.mp h with h | ⟨r, _, h⟩
    · exact .destination rfl h
    · split at h
      · cases h
      · cases h
        exact .stack
  | binary op d x y =>
    rcases except_bind_eq_error_iff.mp h with h | ⟨a, _, h⟩
    · exact .operand (.tail d hmem) h
    · rcases except_bind_eq_error_iff.mp h with h | ⟨b, _, h⟩
      · exact .operand (.tail d (.tail x hmem)) h
      · split at h
        · cases h
          exact .divisor
        · rcases except_bind_eq_error_iff.mp h with h | ⟨r, _, h⟩
          · exact .destination rfl h
          · cases h
  | jumpIf nonzero c t =>
    rcases except_bind_eq_error_iff.mp h with h | ⟨a, _, h⟩
    · exact .operand hmem h
    · split at h
      · rcases except_bind_eq_error_iff.mp h with h | ⟨v, _, h⟩
        · exact .operand (.tail c hmem) h
        · cases h
      · cases h
  | readMemory d x =>
    rcases except_bind_eq_error_iff.mp h with h | ⟨a, ha, h⟩
    · exact .operand (.tail d hmem) h
    · rcases except_bind_eq_error_iff.mp h with h | ⟨v, _, h⟩
      · rcases except_bind_eq_error_iff.mp h with h | ⟨cell, _, h⟩
        · exact .address ha h
        · cases h
      · rcases except_bind_eq_error_iff.mp h with h | ⟨r, _, h⟩
        · exact .destination rfl h
        · cases h
  | writeMemory x s =>
    rcases except_bind_eq_error_iff.mp h with h | ⟨a, ha, h⟩
    · exact .operand hmem h
    · rcases except_bind_eq_error_iff.mp h with h | ⟨v, _, h⟩
      · exact .operand (.tail x hmem) h
      · rcases except_bind_eq_error_iff.mp h with h | ⟨cell, _, h⟩
        · exact .address ha h
        · cases h
  | ret =>
    simp only [plan] at h
    split at h
    · cases h
    · cases h
      exact .stack
    · cases h
  | input d =>
    rcases except_bind_eq_error_iff.mp h with h | ⟨r, _, h⟩
    · exact .destination rfl h
    · cases h

end Processor

namespace Machine

section
variable {δ : Type}

/-- What a fault tells of the machine whose step ends in it. -/
inductive Payload (m : Machine δ) : Fault → Prop
  | addressOutOfRange {i w} :
      m.fetch = .ok i → w ∈ i.operands → 32776 ≤ w.toNat → Payload m (.addressOutOfRange w)
  | invalidWriteTarget {i w} : m.fetch = .ok i → i.destination? = some w → w.toNat ≤ 32767 →
      Payload m (.invalidWriteTarget w)
  | unknownOpcode {w} : m.processor.memory.words[m.processor.pc.toNat]? = some w → 22 ≤ w.toNat →
      Payload m (.unknownOpcode w m.processor.pc.toNat)
  | fetchOutOfBounds : Payload m (.fetchOutOfBounds 32768)
  | stackUnderflow : Payload m .stackUnderflow
  | modulusByZero : Payload m .modulusByZero
  | inputClosed : Payload m .inputClosed
  | device {kind} : Payload m (.device kind)

theorem payload_of_fetch {m : Machine δ} (hpc : m.processor.pc.toNat ≤ 32768) {fault : Fault}
    (h : m.fetch = .error fault) : m.Payload fault := by
  rcases Instruction.decodeFrom_error_cases h with ⟨w, hw, hop, rfl⟩ | ⟨hnone, rfl⟩ | rfl
  · exact .unknownOpcode hw (Opcode.ofWord?_eq_none_iff.mp hop)
  · have hle : 32768 ≤ m.processor.pc.toNat := Vector.getElem?_eq_none_iff.mp hnone
    have hlast : m.processor.pc.toNat = 32768 := Nat.le_antisymm hpc hle
    rw [hlast]
    exact .fetchOutOfBounds
  · exact .fetchOutOfBounds

theorem payload_of_refused {m : Machine δ} (hr : ∀ r, (m.processor.register r).toNat ≤ 32767)
    {i : Instruction}
    (hf : m.fetch = .ok i) {fault : Fault} (h : (m.past i).processor.Refused i fault) : m.Payload fault := by
  cases h with
  | operand hw hv =>
    obtain ⟨hle, rfl⟩ := Processor.value_eq_error hv
    exact .addressOutOfRange hf hw hle
  | destination hd hv =>
    rcases Processor.destination_eq_error hv with ⟨hle, rfl⟩ | ⟨hle, rfl⟩
    · exact .invalidWriteTarget hf hd hle
    · exact .addressOutOfRange hf (Instruction.mem_operands_of_destination? hd) hle
  | address hv ha =>
    -- a value of 15 bits is the address of a cell
    obtain ⟨cell, hc⟩ := Memory.addressOf_of_le (Processor.value_le (p := (m.past i).processor) hr hv)
    cases hc.symm.trans ha
  | stack => exact .stackUnderflow
  | divisor => exact .modulusByZero

theorem payload_ofFailure (m : Machine δ) (kind : FailureKind) : m.Payload (.ofFailure kind) := by
  cases kind with
  | unexpectedEnd => exact .inputClosed
  | _ => exact .device

end

theorem payload_of_step {δ : Type} [Device δ] {m n : Machine δ} (h : m.processor.Narrow) {fault : Fault}
    (hs : m.step = (.error fault, n)) : m.Payload fault := by
  rcases step_error_cases hs with ⟨hf, _⟩ | ⟨i, k, hf, he, _⟩
  · exact payload_of_fetch h.pc hf
  · obtain ⟨calls, device, hsource, _⟩ := execute_error_cases he
    cases hsource with
    | check hp => exact payload_of_refused h.registers hf (.of_plan hp)
    | output | input => exact payload_ofFailure m _

/-- Whatever a host loads, writes and patches, a fault names an operand that is none, a literal in
the place of a destination, a word that is no opcode or the end of memory. Loads and stores never
leave memory. -/
theorem fault_payloads {δ : Type} [Device δ] (memory : Memory) (device : δ) (journal : Option (Array Event))
    (acts : List Act) :
    let m : Machine δ := acts.foldl act { start memory device with journal }
    (∀ fault, m.step.1 = .error fault → m.Payload fault) ∧
      (∀ d x a, m.fetch = .ok (.readMemory d x) → m.processor.value x = .ok a →
        ∃ v, m.processor.memory.read a = .ok v) ∧
      ∀ x s a, m.fetch = .ok (.writeMemory x s) → m.processor.value x = .ok a →
        ∀ v, ∃ stored, m.processor.memory.write a v = .ok stored := by
  intro m
  have hn : m.processor.Narrow := processor_narrow memory device journal acts
  have hcell : ∀ {x a}, m.processor.value x = .ok a → ∃ cell, Memory.addressOf a = .ok cell :=
    fun hv => Memory.addressOf_of_le (Processor.value_le hn.registers hv)
  refine ⟨?_, ?_, ?_⟩
  · intro fault h
    exact payload_of_step hn (Prod.ext h rfl)
  · intro d x a _ hv
    obtain ⟨cell, hc⟩ := hcell hv
    exact ⟨_, except_bind_eq_ok_iff.mpr ⟨cell, hc, rfl⟩⟩
  · intro x s a _ hv v
    obtain ⟨cell, hc⟩ := hcell hv
    exact ⟨_, except_bind_eq_ok_iff.mpr ⟨cell, hc, rfl⟩⟩

/-- A fresh machine after some acts of its host. -/
def prepared (acts : List Act) : Machine Transcript :=
  acts.foldl act { start .empty (.ofBytes []) with journal := none }

/-- An addition of a word that is no operand. -/
def overreaching : List Act := [.load 0 ⟨[9, 32768, 1, 40000]⟩]

/-- A jump to a word that is no opcode. -/
def departing : List Act := [.patch [⟨0, 6⟩, ⟨1, 3⟩], .write 3 30, .step]

/-- A load from the address in a register, which the host has set to a word of 16 bits. -/
def loading : List Act := [.load 0 ⟨[15, 32768, 32769]⟩, .setRegister ⟨1, by decide⟩ 65535]

theorem fault_payloads_prepared :
    (prepared overreaching).step.1 = .error (.addressOutOfRange 40000) ∧
      (∃ i, (prepared overreaching).fetch = .ok i ∧ 40000 ∈ i.operands) ∧
      (prepared departing).step.1 = .error (.unknownOpcode 30 3) ∧
      (prepared departing).Payload (.unknownOpcode 30 3) ∧
      (prepared loading).processor.value 32769 = .ok 32767 ∧
      ∃ v, (prepared loading).processor.memory.read 32767 = .ok v := by
  have hadd : (prepared overreaching).step.1 = .error (.addressOutOfRange 40000) := by rfl
  have hjump : (prepared departing).step.1 = .error (.unknownOpcode 30 3) := by rfl
  have hload : (prepared loading).fetch = .ok (.readMemory 32768 32769) := by rfl
  have haddress : (prepared loading).processor.value 32769 = .ok 32767 := by rfl
  refine ⟨hadd, ?_, hjump, ?_, haddress, ?_⟩
  · cases (fault_payloads .empty (Transcript.ofBytes []) none overreaching).1 _ hadd with
    | addressOutOfRange hf hw _ => exact ⟨_, hf, hw⟩
  · exact (fault_payloads .empty (Transcript.ofBytes []) none departing).1 _ hjump
  · exact (fault_payloads .empty (Transcript.ofBytes []) none loading).2.1 _ _ _ hload haddress

end Machine

end WordMachine
