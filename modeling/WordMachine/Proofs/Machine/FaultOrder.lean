import WordMachine.Device.Transcript
import WordMachine.Proofs.Machine.Execution

/-!
# Which fault

The checks of a step as a list: those of the fetch, those of the instruction, and the device last.
A step ends in a fault exactly if one of them fails, and then in the fault of the first that does
(`step_error_iff`). Each stage of a step has its part of the list.
-/

namespace WordMachine

/-! ## Checks -/

/-- The fault that the check reports, if it fails. -/
abbrev Check := Option Fault

namespace Check

def when (failed : Prop) [Decidable failed] (fault : Fault) : Check := if failed then some fault else none

/-- An operand is a literal or names a register. -/
def operand (w : Word) : Check := when (32776 ≤ w.toNat) (.addressOutOfRange w)

/-- A destination names a register. -/
def destination (w : Word) : Check :=
  if w.toNat < 32768 then some (.invalidWriteTarget w) else operand w

/-- A memory cell has the address. -/
def address (w : Word) : Check := when (32768 ≤ w.toNat) (.addressOutOfRange w)

/-- The device answers. -/
def device {α : Type} : Except FailureKind α → Check
  | .ok _ => none
  | .error .unexpectedEnd => some .inputClosed
  | .error kind => some (.device kind)

/-- The fault of the first check that fails. -/
def first (checks : List Check) : Option Fault := checks.findSome? id

theorem when_pos {failed : Prop} [Decidable failed] (h : failed) (fault : Fault) :
    when failed fault = some fault :=
  if_pos h

theorem when_neg {failed : Prop} [Decidable failed] (h : ¬ failed) (fault : Fault) :
    when failed fault = none :=
  if_neg h

theorem first_append (checks rest : List Check) : first (checks ++ rest) = (first checks).or (first rest) :=
  List.findSome?_append

theorem first_eq_some_iff {checks : List Check} {fault : Fault} :
    first checks = some fault ↔
      ∃ passed rest, checks = passed ++ some fault :: rest ∧ ∀ check ∈ passed, check = none := by
  unfold first
  rw [List.findSome?_eq_some_iff]
  refine ⟨?_, ?_⟩
  · rintro ⟨passed, check, rest, rfl, hc, hpassed⟩
    exact ⟨passed, rest, by rw [show check = some fault from hc], hpassed⟩
  · rintro ⟨passed, rest, rfl, hpassed⟩
    exact ⟨passed, some fault, rest, rfl, rfl, hpassed⟩

end Check

/-- What a literal or the name of a register stands for. Of any other word this is 0. -/
def Processor.content (p : Processor) (w : Word) : Word :=
  if w.toNat < 32768 then w else (p.registers[w.toNat - 32768]?).getD 0

/-- The checks of an instruction whose operands are the first of `a`, `b` and `c`, but for the
device. -/
def Processor.checks (p : Processor) (emptyReturn : EmptyReturn) (a b c : Word) : Opcode → List Check
  | .halt | .noop => []
  | .set | .not => [.operand b, .destination a]
  | .push | .jump | .call | .output => [.operand a]
  | .input => [.destination a]
  | .pop => [.destination a, .when (p.stack = []) .stackUnderflow]
  | .binary op =>
    [.operand b, .operand c, .when (op = .modulo ∧ p.content c = 0) .modulusByZero, .destination a]
  | .jumpIf true => .operand a :: if p.content a ≠ 0 then [.operand b] else []
  | .jumpIf false => .operand a :: if p.content a = 0 then [.operand b] else []
  | .readMemory => [.operand b, .address (p.content b), .destination a]
  | .writeMemory => [.operand a, .operand b, .address (p.content a)]
  | .ret => [.when (p.stack = [] ∧ emptyReturn = .fault) .stackUnderflow]

namespace Machine

section
variable {δ : Type} (m : Machine δ)

/-- The word so many places behind the program counter, or 0 behind the end of memory. -/
def wordBehind (k : Nat) : Word := (m.processor.memory.words[m.processor.pc.toNat + k]?).getD 0

def fetchChecks : List Check :=
  let pc := m.processor.pc.toNat
  let word := m.wordBehind 0
  [.when (32768 ≤ pc) (.fetchOutOfBounds pc), .when (22 ≤ word.toNat) (.unknownOpcode word pc),
    .when (∃ op ∈ Opcode.ofWord? word, 32768 ≤ pc + op.arity) (.fetchOutOfBounds 32768)]

variable [Device δ]

/-- The call of the device, which is made when nothing else is left to fail. -/
def deviceChecks (a : Word) : Opcode → List Check
  | .output => [.device (Device.output m.device (m.processor.content a)).1]
  | .input => [.device (Device.input m.device).1]
  | _ => []

def instructionChecks (a b c : Word) (op : Opcode) : List Check :=
  m.processor.checks m.emptyReturn a b c op ++ m.deviceChecks a op

/-- The checks of the next step, in their order. -/
def checks : List Check :=
  m.fetchChecks ++
    match Opcode.ofWord? (m.wordBehind 0) with
    | none => []
    | some op => m.instructionChecks (m.wordBehind 1) (m.wordBehind 2) (m.wordBehind 3) op

end

end Machine

/-! ## Checks in sequence -/

/-- The fault in which a computation ends, if it does. -/
def faultOf {α : Type} : Except Fault α → Option Fault
  | .ok _ => none
  | .error fault => some fault

theorem faultOf_eq_some_iff {α : Type} {x : Except Fault α} {fault : Fault} :
    faultOf x = some fault ↔ x = .error fault := by
  cases x <;> simp [faultOf]

/-- What a computation checks first stands in front of what it checks then. -/
theorem faultOf_bind {α β : Type} {x : Except Fault α} {f : α → Except Fault β} {check : Check}
    {checks : List Check} (hx : faultOf x = check)
    (hf : ∀ a, x = .ok a → faultOf (f a) = Check.first checks) :
    faultOf (x >>= f) = Check.first (check :: checks) := by
  subst hx
  cases x with
  | ok a => exact hf a rfl
  | error fault => rfl

theorem faultOf_ite {α : Type} {failed : Prop} [Decidable failed] {fault : Fault} {x : Except Fault α}
    {checks : List Check} (hx : ¬ failed → faultOf x = Check.first checks) :
    faultOf (if failed then .error fault else x) = Check.first (.when failed fault :: checks) := by
  by_cases h : failed
  · rw [if_pos h, Check.when_pos h]
    rfl
  · rw [if_neg h, Check.when_neg h]
    exact hx h

/-- What is not done is not checked. -/
theorem faultOf_branch {α : Type} {taken taken' : Prop} [Decidable taken] [Decidable taken']
    (h : taken ↔ taken')
    {x : Except Fault α} {a : α} {checks : List Check} (hx : faultOf x = Check.first checks) :
    faultOf (if taken then x else .ok a) = Check.first (if taken' then checks else []) := by
  by_cases ht : taken
  · rw [if_pos ht, if_pos (h.mp ht)]
    exact hx
  · rw [if_neg ht, if_neg (mt h.mpr ht)]
    rfl

namespace Processor

theorem content_of_value {p : Processor} {w v : Word} (h : p.value w = .ok v) : p.content w = v := by
  unfold content
  rcases value_eq_ok_iff.mp h with ⟨hw, rfl⟩ | ⟨r, hw, rfl⟩
  · exact if_pos hw
  · have hr : w.toNat - 32768 = r.val := by omega
    rw [if_neg (by omega), hr, Vector.getElem?_eq_getElem r.isLt]
    rfl

theorem faultOf_value (p : Processor) (w : Word) : faultOf (p.value w) = Check.operand w := by
  unfold value Check.operand
  rcases Operand.ofWord_cases w with ⟨h, ho⟩ | ⟨r, h, ho⟩ | ⟨h, ho⟩ <;> rw [ho]
  · exact (Check.when_neg (by omega) _).symm
  · exact (Check.when_neg (by omega) _).symm
  · exact (Check.when_pos h _).symm

theorem faultOf_destination (w : Word) : faultOf (destination w) = Check.destination w := by
  unfold destination Check.destination Check.operand
  rcases Operand.ofWord_cases w with ⟨h, ho⟩ | ⟨r, h, ho⟩ | ⟨h, ho⟩ <;> rw [ho]
  · exact (if_pos h).symm
  · rw [if_neg (by omega)]
    exact (Check.when_neg (by omega) _).symm
  · rw [if_neg (by omega)]
    exact (Check.when_pos h _).symm

end Processor

theorem Memory.faultOf_addressOf (w : Word) : faultOf (Memory.addressOf w) = Check.address w := by
  unfold addressOf Check.address
  split
  · rename_i h
    exact (Check.when_neg (Nat.not_le_of_lt h) _).symm
  · rename_i h
    exact (Check.when_pos (Nat.le_of_not_lt h) _).symm

theorem Memory.faultOf_read (memory : Memory) (w : Word) : faultOf (memory.read w) = Check.address w := by
  rw [← faultOf_addressOf]
  unfold read
  cases addressOf w <;> rfl

/-! ## The stages of a step -/

namespace Processor

theorem faultOf_plan (p : Processor) (emptyReturn : EmptyReturn) {i : Instruction} {a b c : Word}
    (h : i.operands <+: [a, b, c]) :
    faultOf (p.plan emptyReturn i) = Check.first (p.checks emptyReturn a b c i.opcode) := by
  cases i with
  | halt | noop => rfl
  | set d s | not d s =>
    simp only [Instruction.operands, List.cons_prefix_cons] at h
    obtain ⟨rfl, rfl, -⟩ := h
    exact faultOf_bind (p.faultOf_value s) fun v _ => faultOf_bind (faultOf_destination d) fun r _ => rfl
  | push s | jump s | call s | output s =>
    obtain ⟨rfl, -⟩ := List.cons_prefix_cons.mp h
    exact faultOf_bind (p.faultOf_value s) fun v _ => rfl
  | input d =>
    obtain ⟨rfl, -⟩ := List.cons_prefix_cons.mp h
    exact faultOf_bind (faultOf_destination d) fun r _ => rfl
  | pop d =>
    obtain ⟨rfl, -⟩ := List.cons_prefix_cons.mp h
    refine faultOf_bind (faultOf_destination d) fun r _ => ?_
    cases p.stack <;> rfl
  | binary op d x y =>
    simp only [Instruction.operands, List.cons_prefix_cons] at h
    obtain ⟨rfl, rfl, rfl, -⟩ := h
    refine faultOf_bind (p.faultOf_value x) fun v _ => faultOf_bind (p.faultOf_value y) fun w hw => ?_
    rw [content_of_value hw]
    exact faultOf_ite fun _ => faultOf_bind (faultOf_destination d) fun r _ => rfl
  | jumpIf nonzero x t =>
    simp only [Instruction.operands, List.cons_prefix_cons] at h
    obtain ⟨rfl, rfl, -⟩ := h
    have htarget : faultOf (p.value t >>= fun v => .ok (Action.jump v)) = Check.first [.operand t] :=
      faultOf_bind (p.faultOf_value t) fun v _ => rfl
    cases nonzero with
    | true =>
      refine faultOf_bind (p.faultOf_value x) fun v hv => ?_
      rw [content_of_value hv]
      exact faultOf_branch bne_iff_ne htarget
    | false =>
      refine faultOf_bind (p.faultOf_value x) fun v hv => ?_
      rw [content_of_value hv]
      exact faultOf_branch bne_eq_false_iff_eq htarget
  | readMemory d x =>
    simp only [Instruction.operands, List.cons_prefix_cons] at h
    obtain ⟨rfl, rfl, -⟩ := h
    refine faultOf_bind (p.faultOf_value x) fun v hv => ?_
    rw [content_of_value hv]
    exact faultOf_bind (p.memory.faultOf_read v) fun _ _ =>
      faultOf_bind (faultOf_destination d) fun r _ => rfl
  | writeMemory x s =>
    simp only [Instruction.operands, List.cons_prefix_cons] at h
    obtain ⟨rfl, rfl, -⟩ := h
    refine faultOf_bind (p.faultOf_value x) fun v hv => faultOf_bind (p.faultOf_value s) fun w _ => ?_
    rw [content_of_value hv]
    exact faultOf_bind (Memory.faultOf_addressOf v) fun cell _ => rfl
  | ret =>
    unfold plan checks
    cases p.stack with
    | nil => cases emptyReturn <;> rfl
    | cons v rest => rfl

end Processor

namespace Machine

section
variable {δ : Type}

theorem wordBehind_of_lt (m : Machine δ) {k : Nat} (h : m.processor.pc.toNat + k < 32768) :
    m.processor.memory.words[m.processor.pc.toNat + k]? = some (m.wordBehind k) := by
  unfold wordBehind
  rw [Vector.getElem?_eq_getElem h, Option.getD_some]

theorem faultOf_fetch (m : Machine δ) : faultOf m.fetch = Check.first m.fetchChecks := by
  unfold fetch Instruction.decodeFrom fetchChecks
  simp only
  by_cases hpc : 32768 ≤ m.processor.pc.toNat
  · rw [Vector.getElem?_eq_none hpc, Check.when_pos hpc]
    rfl
  · have hw := m.wordBehind_of_lt (k := 0) (by omega)
    rw [Nat.add_zero] at hw
    rw [hw, Check.when_neg hpc]
    cases hop : Opcode.ofWord? (m.wordBehind 0) with
    | none =>
      rw [Check.when_pos (Opcode.ofWord?_eq_none_iff.mp hop)]
      simp only [hop]
      rfl
    | some op =>
      have hknown : ¬ 22 ≤ (m.wordBehind 0).toNat := by
        rw [← Opcode.ofWord?_eq_none_iff, hop]
        exact Option.some_ne_none op
      rw [Check.when_neg hknown]
      simp only [hop]
      have hwords : ∀ k : Nat, m.processor.memory.words[k]? = none ↔ 32768 ≤ k :=
        fun k => Vector.getElem?_eq_none_iff
      have hb := Instruction.build?_behind_eq_none_iff hwords (Nat.lt_of_not_le hpc) op
      by_cases hend : 32768 ≤ m.processor.pc.toNat + op.arity
      · rw [hb.mpr hend, Check.when_pos ⟨op, rfl, hend⟩]
        rfl
      · obtain ⟨i, hi⟩ := Option.ne_none_iff_exists'.mp (mt hb.mp hend)
        rw [hi, Check.when_neg (by rintro ⟨_, ⟨⟩, h⟩; exact hend h)]
        rfl

theorem faultOf_conclude (pc : Word) (x : Except Fault Unit × Machine δ) :
    faultOf (conclude pc x).1 = faultOf x.1 := by
  obtain ⟨result, m⟩ := x
  cases result with
  | ok u => rw [(conclude_ok pc m).1]; rfl
  | error fault => rfl

theorem wordBehind_of_fetch {m : Machine δ} {i : Instruction} (h : m.fetch = .ok i) {k : Nat} {w : Word}
    (hw : i.words[k]? = some w) : m.wordBehind k = w := by
  have hk : k < i.size := by
    rw [← i.length_words]
    exact (List.getElem?_eq_some_iff.mp hw).1
  unfold wordBehind
  rw [fetch_eq_ok_iff.mp h k hk, hw, Option.getD_some]

theorem ofWord?_of_fetch {m : Machine δ} {i : Instruction} (h : m.fetch = .ok i) :
    Opcode.ofWord? (m.wordBehind 0) = some i.opcode := by
  have hw : m.wordBehind 0 = i.opcode.word := wordBehind_of_fetch h rfl
  rw [hw, Opcode.ofWord?_word]

theorem operands_prefix_of_fetch {m : Machine δ} {i : Instruction} (h : m.fetch = .ok i) :
    i.operands <+: [m.wordBehind 1, m.wordBehind 2, m.wordBehind 3] := by
  have hw : ∀ k w, i.operands[k]? = some w → m.wordBehind (k + 1) = w :=
    fun k w hk => wordBehind_of_fetch h hk
  have hlen : i.operands.length ≤ 3 := by
    rw [i.length_operands]
    exact i.opcode.arity_le
  refine List.prefix_iff_getElem?.mpr fun k hk => ?_
  have hb := hw k _ (List.getElem?_eq_getElem hk)
  match k with
  | 0 | 1 | 2 => exact congrArg some hb
  | k + 3 => omega

end

section
variable {δ : Type} [Device δ]

theorem faultOf_perform {m : Machine δ} {i : Instruction} {a b c : Word} (h : i.operands <+: [a, b, c])
    {action : Action} (hp : m.processor.Planned m.emptyReturn i action) :
    faultOf (m.perform action).1 = Check.first (m.deviceChecks a i.opcode) := by
  cases hp with
  | @output s v hv =>
    obtain ⟨rfl, -⟩ := List.cons_prefix_cons.mp h
    show _ = Check.first [.device (Device.output m.device (m.processor.content s)).1]
    rw [Processor.content_of_value hv]
    cases ho : Device.output m.device v with
    | mk result device =>
      cases result with
      | ok u => rw [perform_print_ok ho]; rfl
      | error kind => rw [perform_print_error ho]; cases kind <;> rfl
  | @input d r hr =>
    show _ = Check.first [.device (Device.input m.device).1]
    cases ho : Device.input m.device with
    | mk result device =>
      cases result with
      | ok code => rw [perform_read_ok ho]; rfl
      | error kind => rw [perform_read_error ho]; cases kind <;> rfl
  | _ => rfl

theorem faultOf_execute (m : Machine δ) {i : Instruction} {a b c : Word} (h : i.operands <+: [a, b, c]) :
    faultOf (m.execute i).1 = Check.first (m.instructionChecks a b c i.opcode) := by
  unfold instructionChecks
  rw [Check.first_append, ← m.processor.faultOf_plan m.emptyReturn h]
  rcases execute_cases m i with ⟨fault, hp, he⟩ | ⟨action, hp, he⟩
  · rw [hp, he]
    rfl
  · rw [hp.plan_eq, he]
    exact faultOf_perform h hp

theorem faultOf_step {m : Machine δ} (h : m.status = .running) : faultOf m.step.1 = Check.first m.checks := by
  unfold checks
  rw [Check.first_append, ← faultOf_fetch]
  rcases step_cases h with ⟨fault, hf, hs⟩ | ⟨i, hf, hs⟩
  · rw [hf, hs, faultOf_conclude]
    rfl
  · rw [hf, hs, faultOf_conclude, ofWord?_of_fetch hf]
    exact (m.past i).faultOf_execute (operands_prefix_of_fetch hf)

/-- A step ends in a fault exactly if one of its checks fails, and reports the first. -/
theorem step_error_iff {m : Machine δ} (h : m.status = .running) (fault : Fault) :
    m.step.1 = .error fault ↔
      ∃ passed rest, m.checks = passed ++ some fault :: rest ∧ ∀ check ∈ passed, check = none := by
  rw [← faultOf_eq_some_iff, faultOf_step h, Check.first_eq_some_iff]

end

/-- A remainder by an empty register, written to a literal. -/
def defective : Machine Transcript :=
  start (Memory.empty.overlay 0 [11, 5, 7, 32769] (by decide)) (.ofBytes [])

/-- A jump on zero, which is not taken, to a word that is no operand. -/
def harmless : Machine Transcript :=
  start (Memory.empty.overlay 0 [8, 1, 65535] (by decide)) (.ofBytes [])

theorem step_error_iff_defective :
    defective.checks =
        [none, none, none, none, none, some .modulusByZero, some (.invalidWriteTarget 5)] ∧
      defective.step.1 = .error .modulusByZero ∧
      harmless.checks = [none, none, none, none] ∧ ∀ fault, harmless.step.1 ≠ .error fault := by
  have hdefects : defective.checks =
      [none, none, none, none, none, some .modulusByZero, some (.invalidWriteTarget 5)] := by
    decide +kernel
  have hnone : harmless.checks = [none, none, none, none] := by decide +kernel
  refine ⟨hdefects, ?_, hnone, ?_⟩
  · exact (step_error_iff rfl _).mpr ⟨[none, none, none, none, none], _, hdefects, by simp⟩
  · intro fault hf
    obtain ⟨passed, rest, hc, _⟩ := (step_error_iff rfl fault).mp hf
    have hmem : some fault ∈ harmless.checks := by
      rw [hc]
      exact List.mem_append_right passed List.mem_cons_self
    rw [hnone] at hmem
    simp at hmem

end Machine

end WordMachine
