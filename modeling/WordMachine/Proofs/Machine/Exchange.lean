import WordMachine.Device.Transcript
import WordMachine.Proofs.Input.Delivery
import WordMachine.Proofs.Machine.Runs

/-!
# What a run reads and prints

The instructions that the steps of a run execute without a fault, in order, and among them those
that read and those that print. The codes read are the codes of the device's input, in order and
without a gap, and the device keeps the codes printed (`exchanges_in_order`).
-/

namespace WordMachine

theorem LineBuffer.next_of_consumed {buffer : LineBuffer} (h : buffer.source.obstacle = none)
    (hr : buffer.remaining = []) : buffer.next = (.error ended, buffer) := by
  obtain ⟨⟨bytes, obstacle⟩, pending⟩ := buffer
  cases h
  obtain ⟨rfl, hcodes⟩ := List.append_eq_nil_iff.mp hr
  have hbytes : bytes = [] := by
    cases bytes using line_induction with
    | nil => rfl
    | last content hne hl =>
      rw [normalise_of_not_mem hne hl, codes_append] at hcodes
      simp at hcodes
    | line content rest hl _ =>
      rw [normalise_append hl, codes_append] at hcodes
      simp at hcodes
  subst hbytes
  rfl

section
variable {t : Transcript} (h : t.input.source.obstacle = none)
include h

theorem Transcript.input_of_consumed (hr : t.input.remaining = []) :
    Device.input t = (.error .unexpectedEnd, t) := by
  simp only [Device.input, LineBuffer.next_of_consumed h hr]
  rfl

theorem Transcript.input_of_remaining {code : Word} {rest : List Word}
    (hr : t.input.remaining = code :: rest) :
    Device.input t = (.ok code, { t with input := t.input.next.2 }) := by
  have hcode := (LineBuffer.next_remaining h).1
  rw [hr] at hcode
  simp only [Device.input, hcode, List.head?_cons]
  rfl

end

def Instruction.input? : Instruction → Option Word
  | .input destination => some destination
  | _ => none

def Instruction.output? : Instruction → Option Word
  | .output source => some source
  | _ => none

namespace Machine

section
variable {δ : Type} [Device δ]

/-- The instruction that the next step executes, unless it faults. -/
def executed? (m : Machine δ) : Option Instruction :=
  match m.status, m.fetch, m.step.1 with
  | .running, .ok i, .ok _ => some i
  | _, _, _ => none

/-- The instructions executed without a fault, each with the number of steps before it. -/
def executed (m : Machine δ) (n : Nat) : List (Nat × Instruction) :=
  (List.range n).filterMap fun k => (m.after k).executed?.map (k, ·)

/-- Those that read, with their destinations. -/
def inputs (m : Machine δ) (n : Nat) : List (Nat × Word) :=
  (m.executed n).filterMap fun (k, i) => i.input?.map (k, ·)

/-- Those that print, with their operands. -/
def outputs (m : Machine δ) (n : Nat) : List (Nat × Word) :=
  (m.executed n).filterMap fun (k, i) => i.output?.map (k, ·)

theorem executed_succ (m : Machine δ) (n : Nat) :
    m.executed (n + 1) = m.executed n ++ ((m.after n).executed?.map (n, ·)).toList := by
  unfold executed
  rw [List.range_succ, List.filterMap_append]
  cases h : (m.after n).executed? <;> simp [h]

theorem inputs_succ (m : Machine δ) (n : Nat) :
    m.inputs (n + 1) = m.inputs n ++ (((m.after n).executed?.bind Instruction.input?).map (n, ·)).toList := by
  unfold inputs
  rw [executed_succ, List.filterMap_append]
  cases (m.after n).executed? with
  | none => rfl
  | some i => cases h : i.input? <;> simp [h]

theorem outputs_succ (m : Machine δ) (n : Nat) :
    m.outputs (n + 1) = m.outputs n ++
      (((m.after n).executed?.bind Instruction.output?).map (n, ·)).toList := by
  unfold outputs
  rw [executed_succ, List.filterMap_append]
  cases (m.after n).executed? with
  | none => rfl
  | some i => cases h : i.output? <;> simp [h]

variable {m n : Machine δ} {i : Instruction} {fault : Fault}

theorem step_of_execute_ok (hr : m.status = .running) (hf : m.fetch = .ok i)
    (he : (m.past i).execute i = (.ok (), n)) :
    m.executed? = some i ∧ m.step.2.device = n.device ∧ m.step.2.processor = n.processor := by
  have hs := step_of_fetch_ok hr hf
  rw [he] at hs
  refine ⟨?_, ?_⟩
  · unfold executed?
    rw [hr, hf, hs, (conclude_ok _ _).1]
  · rw [hs]
    unfold conclude
    simp only
    split <;> exact ⟨rfl, rfl⟩

theorem step_of_execute_error (hr : m.status = .running) (hf : m.fetch = .ok i)
    (he : (m.past i).execute i = (.error fault, n)) :
    m.executed? = none ∧ m.step.1 = .error fault ∧ m.step.2.device = n.device := by
  have hs := step_of_fetch_ok hr hf
  rw [he] at hs
  unfold executed?
  rw [hr, hf, hs]
  exact ⟨rfl, rfl, rfl⟩

theorem step_of_not_executed (h : m.status ≠ .running ∨ ∃ fault, m.fetch = .error fault) :
    m.executed? = none ∧ m.step.2.device = m.device := by
  by_cases hr : m.status = .running
  · rcases h with h | ⟨fault, hf⟩
    · exact absurd hr h
    · rw [step_of_fetch_error hr hf]
      unfold executed?
      rw [hr, hf]
      exact ⟨rfl, rfl⟩
  · rw [step_of_stopped hr]
    unfold executed?
    cases hs : m.status with
    | running => exact absurd hs hr
    | _ => exact ⟨rfl, rfl⟩

end

section
variable {m : Machine Transcript}

theorem perform_print (m : Machine Transcript) (code : Word) :
    m.perform (.print code) = (.ok (), { m with device.printed := m.device.printed.push code }) :=
  perform_print_ok rfl

theorem perform_read_transcript (h : m.device.input.source.obstacle = none) (r : Register) :
    (∃ code rest n, m.device.input.remaining = code :: rest ∧ m.perform (.read r) = (.ok (), n) ∧
        n.processor = m.processor.setRegister r code.toNat ∧ n.device.printed = m.device.printed ∧
        n.device.input.remaining = rest ∧ n.device.input.source.obstacle = none) ∨
      (m.device.input.remaining = [] ∧ m.perform (.read r) = (.error .inputClosed, m)) := by
  obtain ⟨_, hrest, hnone⟩ := LineBuffer.next_remaining h
  cases hrem : m.device.input.remaining with
  | nil => exact Or.inr ⟨rfl, perform_read_error (Transcript.input_of_consumed h hrem)⟩
  | cons code rest =>
    rw [hrem] at hrest
    exact Or.inl ⟨code, rest, _, rfl, perform_read_ok (Transcript.input_of_remaining h hrem), rfl,
      rfl, hrest, hnone⟩

/-- What a step does to the transcript. -/
inductive Exchange (m : Machine Transcript) : Prop
  | read {d r code} : m.executed? = some (.input d) → Processor.destination d = .ok r →
      m.device.input.remaining = code :: m.step.2.device.input.remaining →
      m.step.2.device.input.source.obstacle = none → m.step.2.device.printed = m.device.printed →
      m.step.2.processor.register r = Word.wrap code.toNat → Exchange m
  | print {s code} : m.executed? = some (.output s) → m.processor.value s = .ok code →
      m.step.2.device.input = m.device.input → m.step.2.device.printed = m.device.printed.push code →
        Exchange m
  | silent : m.executed?.bind Instruction.input? = none → m.executed?.bind Instruction.output? = none →
      m.step.2.device = m.device → Exchange m

theorem exchange_of_not_executed (h : m.executed? = none) (hd : m.step.2.device = m.device) : m.Exchange :=
  .silent (by rw [h]; rfl) (by rw [h]; rfl) hd

section
variable {i : Instruction} (hr : m.status = .running) (hf : m.fetch = .ok i)
include hr hf

theorem exchange_of_execute_error {n : Machine Transcript} {fault : Fault}
    (he : (m.past i).execute i = (.error fault, n)) (hd : n.device = m.device) : m.Exchange := by
  obtain ⟨hnone, _, hdevice⟩ := step_of_execute_error hr hf he
  exact exchange_of_not_executed hnone (hdevice.trans hd)

/-- Without a call of the device a step is silent, whether it succeeds or not. -/
theorem exchange_of_quiet {action : Action} (he : (m.past i).execute i = (m.past i).perform action)
    (hc : action.callsDevice = false) (hin : i.input? = none) (hout : i.output? = none) : m.Exchange := by
  have hd : ((m.past i).perform action).2.device = m.device := device_perform _ hc
  cases hx : (m.past i).perform action with
  | mk result n =>
    rw [hx] at he hd
    cases result with
    | error fault => exact exchange_of_execute_error hr hf he hd
    | ok u =>
      obtain ⟨hsome, hdevice, _⟩ := step_of_execute_ok hr hf he
      exact .silent (by rw [hsome]; exact hin) (by rw [hsome]; exact hout) (hdevice.trans hd)

end

theorem exchange_of_output {w code : Word} (hr : m.status = .running) (hf : m.fetch = .ok (.output w))
    (hv : m.processor.value w = .ok code) : m.Exchange := by
  have he : (m.past (.output w)).execute (.output w) = (m.past (.output w)).perform (.print code) :=
    execute_of_planned (.output hv)
  obtain ⟨hsome, hdevice, _⟩ := step_of_execute_ok hr hf (he.trans (perform_print _ code))
  exact .print hsome hv (by rw [hdevice]; rfl) (by rw [hdevice]; rfl)

theorem exchange_of_input {d : Word} {r : Register} (hr : m.status = .running) (hf : m.fetch = .ok (.input d))
    (hd : Processor.destination d = .ok r) (h : m.device.input.source.obstacle = none) : m.Exchange := by
  have he : (m.past (.input d)).execute (.input d) = (m.past (.input d)).perform (.read r) :=
    execute_of_planned (.input hd)
  rcases perform_read_transcript (m := m.past (.input d)) h r with
    ⟨code, rest, n, hrem, hn, hproc, hprinted, hrest, hnone⟩ | ⟨_, hn⟩
  · obtain ⟨hsome, hdevice, hprocessor⟩ := step_of_execute_ok hr hf (he.trans hn)
    have hread : m.device.input.remaining = code :: m.step.2.device.input.remaining := by
      rw [hdevice, hrest]
      exact hrem
    refine .read hsome hd hread (by rw [hdevice, hnone]) (by rw [hdevice, hprinted]; rfl) ?_
    rw [hprocessor, hproc, Processor.register_setRegister_self]
  · exact exchange_of_execute_error hr hf (he.trans hn) rfl

theorem exchange (h : m.device.input.source.obstacle = none) : m.Exchange := by
  by_cases hr : m.status = .running
  · cases hf : m.fetch with
    | error fault =>
      obtain ⟨hnone, hdevice⟩ := step_of_not_executed (Or.inr ⟨fault, hf⟩)
      exact exchange_of_not_executed hnone hdevice
    | ok i =>
      rcases execute_cases (m.past i) i with ⟨fault, _, he⟩ | ⟨action, hp, he⟩
      · exact exchange_of_execute_error hr hf he rfl
      · cases hp with
        | output hv => exact exchange_of_output hr hf hv
        | input hd => exact exchange_of_input hr hf hd h
        | _ => exact exchange_of_quiet hr hf he rfl rfl rfl
  · obtain ⟨hnone, hdevice⟩ := step_of_not_executed (Or.inl hr)
    exact exchange_of_not_executed hnone hdevice

/-- After so many steps: what is left of the input, what each reading instruction got, and what was
printed. -/
structure Exchanged (m : Machine Transcript) (s : List Word) (n : Nat) : Prop where
  obstacle : (m.after n).device.input.source.obstacle = none
  remaining : (m.after n).device.input.remaining = s.drop (m.inputs n).length
  received : ∀ (j k : Nat) (d : Word), (m.inputs n)[j]? = some (k, d) → ∃ (r : Register) (code : Word),
    Processor.destination d = .ok r ∧ s[j]? = some code ∧
      (m.after (k + 1)).processor.register r = Word.wrap code.toNat
  printed : (m.after n).device.printed.toList.map .ok =
    (m.outputs n).map fun (k, w) => (m.after k).processor.value w

section
variable {s : List Word} {n : Nat} (hx : m.Exchanged s n)
include hx

theorem Exchanged.read {d code : Word} {r : Register} (hsome : (m.after n).executed? = some (.input d))
    (hd : Processor.destination d = .ok r)
    (hrem : (m.after n).device.input.remaining = code :: (m.after (n + 1)).device.input.remaining)
    (hnone : (m.after (n + 1)).device.input.source.obstacle = none)
    (hprinted : (m.after (n + 1)).device.printed = (m.after n).device.printed)
    (hreg : (m.after (n + 1)).processor.register r = Word.wrap code.toNat) : m.Exchanged s (n + 1) := by
  have hin : m.inputs (n + 1) = m.inputs n ++ [(n, d)] := by
    rw [inputs_succ, hsome]
    rfl
  have hout : m.outputs (n + 1) = m.outputs n := by
    rw [outputs_succ, hsome]
    exact List.append_nil _
  -- what is left begins with the code behind those of the instructions before
  rw [hx.remaining] at hrem
  refine ⟨hnone, ?_, ?_, ?_⟩
  · rw [hin, List.length_append, List.length_singleton, ← List.drop_drop, hrem]
    rfl
  · intro j k d' hj
    rw [hin] at hj
    by_cases hlt : j < (m.inputs n).length
    · rw [List.getElem?_append_left hlt] at hj
      exact hx.received j k d' hj
    · rw [List.getElem?_append_right (by omega), List.getElem?_singleton] at hj
      split at hj
      · cases hj
        refine ⟨r, code, hd, ?_, hreg⟩
        have hjn : j = (m.inputs n).length := by omega
        rw [hjn, ← List.head?_drop, hrem]
        rfl
      · cases hj
  · rw [hprinted, hout]
    exact hx.printed

theorem Exchanged.print {w code : Word} (hsome : (m.after n).executed? = some (.output w))
    (hv : (m.after n).processor.value w = .ok code)
    (hinput : (m.after (n + 1)).device.input = (m.after n).device.input)
    (hprinted : (m.after (n + 1)).device.printed = (m.after n).device.printed.push code) :
    m.Exchanged s (n + 1) := by
  have hin : m.inputs (n + 1) = m.inputs n := by
    rw [inputs_succ, hsome]
    exact List.append_nil _
  have hout : m.outputs (n + 1) = m.outputs n ++ [(n, w)] := by
    rw [outputs_succ, hsome]
    rfl
  refine ⟨?_, ?_, by rw [hin]; exact hx.received, ?_⟩
  · rw [hinput]
    exact hx.obstacle
  · rw [hinput, hin]
    exact hx.remaining
  · rw [hprinted, hout, Array.toList_push, List.map_append, List.map_append, hx.printed, List.map_singleton,
      List.map_singleton, ← hv]

theorem Exchanged.silent (hin : (m.after n).executed?.bind Instruction.input? = none)
    (hout : (m.after n).executed?.bind Instruction.output? = none)
    (hdevice : (m.after (n + 1)).device = (m.after n).device) : m.Exchanged s (n + 1) := by
  have hin : m.inputs (n + 1) = m.inputs n := by
    rw [inputs_succ, hin]
    exact List.append_nil _
  have hout : m.outputs (n + 1) = m.outputs n := by
    rw [outputs_succ, hout]
    exact List.append_nil _
  refine ⟨?_, ?_, by rw [hin]; exact hx.received, ?_⟩
  · rw [hdevice]
    exact hx.obstacle
  · rw [hdevice, hin]
    exact hx.remaining
  · rw [hdevice, hout]
    exact hx.printed

end

theorem exchanged {bytes : List UInt8} (h : m.device = .ofBytes bytes) (n : Nat) :
    m.Exchanged (LineBuffer.codes (LineBuffer.normalise bytes)) n := by
  induction n with
  | zero =>
    have hin : m.inputs 0 = [] := rfl
    have hout : m.outputs 0 = [] := rfl
    refine ⟨by rw [after, h]; rfl, by rw [after, h, hin]; rfl, by simp [hin], by rw [after, h, hout]; rfl⟩
  | succ n ih =>
    cases exchange ih.obstacle with
    | read hsome hd hrem hnone hprinted hreg => exact ih.read hsome hd hrem hnone hprinted hreg
    | print hsome hv hinput hprinted => exact ih.print hsome hv hinput hprinted
    | silent hin hout hdevice => exact ih.silent hin hout hdevice

/-! ## Instructions that read -/

section
variable {d : Word} (hr : m.status = .running) (hf : m.fetch = .ok (.input d))
include hr hf

theorem step_input_of_no_destination {fault : Fault} (hd : Processor.destination d = .error fault) :
    m.step.1 = .error fault ∧ m.step.2.device = m.device := by
  have he : (m.past (.input d)).execute (.input d) = (.error fault, m.past (.input d)) := by
    simp [execute, Processor.plan, hd, bind, Except.bind]
  exact (step_of_execute_error hr hf he).2

variable {r : Register} (hd : Processor.destination d = .ok r) (h : m.device.input.source.obstacle = none)
include hd h

theorem step_input_of_consumed (hc : m.device.input.remaining = []) :
    m.step.1 = .error .inputClosed ∧ m.step.2.device = m.device := by
  have hx : (m.past (.input d)).execute (.input d) = (m.past (.input d)).perform (.read r) :=
    execute_of_planned (.input hd)
  rcases perform_read_transcript (m := m.past (.input d)) h r with ⟨code, rest, _, hrem, _⟩ | ⟨_, hn⟩
  · cases hc.symm.trans hrem
  · exact (step_of_execute_error hr hf (hx.trans hn)).2

theorem executed?_input (hc : m.device.input.remaining ≠ []) : m.executed? = some (.input d) := by
  have hx : (m.past (.input d)).execute (.input d) = (m.past (.input d)).perform (.read r) :=
    execute_of_planned (.input hd)
  rcases perform_read_transcript (m := m.past (.input d)) h r with ⟨_, _, n, _, hn, _⟩ | ⟨hrem, _⟩
  · exact (step_of_execute_ok hr hf (hx.trans hn)).1
  · exact absurd hrem hc

end

/-- With `s` the codes that the input delivers, the j-th instruction to read receives `s[j]`. An
instruction without a register to read into takes no code, and one that comes after the last code
faults and takes none either. What the device has kept are the codes printed, in order. -/
theorem exchanges_in_order (m : Machine Transcript) (bytes : List UInt8) (h : m.device = .ofBytes bytes) :
    ∃ s : List Word,
      (∀ k, (LineBuffer.ofBytes bytes).answer k =
        match s[k]? with | some code => .ok code | none => .error LineBuffer.ended) ∧
      ∀ n,
        (∀ (j k : Nat) (d : Word), (m.inputs n)[j]? = some (k, d) → ∃ (r : Register) (code : Word),
          Processor.destination d = .ok r ∧ s[j]? = some code ∧
            (m.after (k + 1)).processor.register r = Word.wrap code.toNat) ∧
        (m.after n).device.input.remaining = s.drop (m.inputs n).length ∧
        (∀ d, (m.after n).status = .running → (m.after n).fetch = .ok (.input d) →
          (∀ fault, Processor.destination d = .error fault →
            (m.after n).step.1 = .error fault ∧ (m.after (n + 1)).device = (m.after n).device) ∧
          (∀ r, Processor.destination d = .ok r → s.length ≤ (m.inputs n).length →
            (m.after n).step.1 = .error .inputClosed ∧ (m.after (n + 1)).device = (m.after n).device) ∧
          ∀ r, Processor.destination d = .ok r → (m.inputs n).length < s.length →
            (m.after n).executed? = some (.input d)) ∧
        (m.after n).device.printed.toList.map .ok =
          (m.outputs n).map fun (k, w) => (m.after k).processor.value w := by
  refine ⟨LineBuffer.codes (LineBuffer.normalise bytes), fun k => LineBuffer.answer_eq rfl k, ?_⟩
  intro n
  have hx := exchanged h n
  refine ⟨hx.received, hx.remaining, ?_, hx.printed⟩
  intro d hr hf
  refine ⟨?_, ?_, ?_⟩
  · intro fault hd
    exact step_input_of_no_destination hr hf hd
  · intro r hd hle
    apply step_input_of_consumed hr hf hd hx.obstacle
    rw [hx.remaining, List.drop_eq_nil_iff]
    exact hle
  · intro r hd hlt
    apply executed?_input hr hf hd hx.obstacle
    rw [hx.remaining, ne_eq, List.drop_eq_nil_iff]
    omega

end

/-- Reads a character, prints it and reads twice more. -/
def echoing : Machine Transcript where
  device := .ofBytes [65]
  processor := { memory := Memory.empty.overlay 0 [20, 32768, 19, 32768, 20, 32769, 20, 32770] (by decide) }

theorem exchanges_in_order_echoing :
    echoing.device = .ofBytes [65] ∧ echoing.inputs 3 = [(0, 32768), (2, 32769)] ∧
      echoing.outputs 3 = [(1, 32768)] ∧
      (echoing.after 1).processor.register 0 = 65 ∧ (echoing.after 3).processor.register 1 = 10 ∧
      (echoing.after 3).device.printed.toList.map .ok = [(echoing.after 1).processor.value 32768] ∧
      (echoing.after 3).step.1 = .error .inputClosed ∧
        (echoing.after 4).device = (echoing.after 3).device := by
  have hin : echoing.inputs 3 = [(0, 32768), (2, 32769)] := by decide +kernel
  have hout : echoing.outputs 3 = [(1, 32768)] := by decide +kernel
  obtain ⟨s, hs, hall⟩ := exchanges_in_order echoing [65] rfl
  obtain ⟨hreceived, _, hread, hprinted⟩ := hall 3
  have hlength : s.length ≤ 2 := by
    have h2 : (LineBuffer.ofBytes [65]).answer 2 = .error LineBuffer.ended := rfl
    rw [hs 2] at h2
    cases hc : s[2]? with
    | none => exact List.getElem?_eq_none_iff.mp hc
    | some code => simp [hc] at h2
  have hcode : ∀ j code, (LineBuffer.ofBytes [65]).answer j = .ok code → s[j]? = some code := by
    intro j code hj
    rw [hs j] at hj
    cases hc : s[j]? with
    | none => simp [hc] at hj
    | some code' => simpa [hc] using hj
  have hreg : ∀ j k (r : Register) code, (LineBuffer.ofBytes [65]).answer j = .ok code →
      (echoing.inputs 3)[j]? = some (k, r.word) →
        (echoing.after (k + 1)).processor.register r = Word.wrap code.toNat := by
    intro j k r code hj hk
    obtain ⟨r', code', hd, hc, hr⟩ := hreceived j k r.word hk
    cases hc.symm.trans (hcode j code hj)
    cases hd.symm.trans (Processor.destination_eq_ok_iff.mpr (Register.toNat_word r))
    exact hr
  have hclosed := (hread 32770 (by decide +kernel) (fetch_eq_ok_iff.mpr (by decide +kernel))).2.1 2
    (Processor.destination_eq_ok_iff.mpr rfl) (by rw [hin]; exact hlength)
  rw [hout] at hprinted
  exact ⟨rfl, hin, hout, hreg 0 0 0 65 rfl (by rw [hin]; rfl), hreg 1 2 1 10 rfl (by rw [hin]; rfl), hprinted,
    hclosed⟩

end Machine

end WordMachine
