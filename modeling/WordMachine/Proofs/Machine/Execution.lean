import WordMachine.Machine.Step

/-!
# What a step can do

The checks of an instruction and the action they lead to, as a relation with one case for each
kind of action (`Planned`); then a step by how far it gets: the fetch fails, a check fails, or the
action is carried out (`step_cases`). Proofs about steps go by these cases and unfold no step.
-/

namespace WordMachine

/-! ## Operands -/

theorem Register.ofWord?_eq_some_iff {w : Word} {r : Register} :
    Register.ofWord? w = some r ↔ w.toNat = 32768 + r.val := by
  refine ⟨?_, ?_⟩
  · intro h
    rw [Register.eq_word_of_ofWord? h, Register.toNat_word]
  · intro h
    have hw : w = r.word := UInt16.toNat_inj.mp (by rw [h, Register.toNat_word])
    rw [hw, Register.ofWord?_word]

theorem Operand.ofWord_eq_literal {w : Word} (h : w.toNat < 32768) : Operand.ofWord w = .literal w :=
  if_pos h

theorem Operand.ofWord_eq_register {w : Word} {r : Register} (h : w.toNat = 32768 + r.val) :
    Operand.ofWord w = .register r := by
  unfold ofWord
  rw [if_neg (by simp only [Register.base, Word.modulus]; omega), Register.ofWord?_eq_some_iff.mpr h]

theorem Operand.ofWord_cases (w : Word) :
    (w.toNat < 32768 ∧ Operand.ofWord w = .literal w) ∨
      (∃ r : Register, w.toNat = 32768 + r.val ∧ Operand.ofWord w = .register r) ∨
      (32776 ≤ w.toNat ∧ Operand.ofWord w = .invalid w) := by
  by_cases h : w.toNat < 32768
  · exact Or.inl ⟨h, ofWord_eq_literal h⟩
  · by_cases h' : w.toNat < 32776
    · let r : Register := ⟨w.toNat - 32768, by omega⟩
      have hr : w.toNat = 32768 + r.val := by simp only [r]; omega
      exact Or.inr (Or.inl ⟨r, hr, ofWord_eq_register hr⟩)
    · refine Or.inr (Or.inr ⟨by omega, ?_⟩)
      have hn : Register.ofWord? w = none := by
        refine Option.eq_none_iff_forall_ne_some.mpr fun r hr => ?_
        have := Register.ofWord?_eq_some_iff.mp hr
        omega
      unfold ofWord
      rw [if_neg (by simp only [Register.base, Word.modulus]; omega), hn]

namespace Processor

theorem value_eq_ok_iff {p : Processor} {w v : Word} :
    p.value w = .ok v ↔ (w.toNat < 32768 ∧ v = w) ∨
      ∃ r : Register, w.toNat = 32768 + r.val ∧ v = p.register r := by
  unfold value
  rcases Operand.ofWord_cases w with ⟨h, ho⟩ | ⟨r, h, ho⟩ | ⟨h, ho⟩ <;> rw [ho]
  · refine ⟨?_, ?_⟩
    · intro hv
      exact Or.inl ⟨h, (Except.ok.inj hv).symm⟩
    · intro hv
      rcases hv with ⟨_, rfl⟩ | ⟨r, hr, _⟩
      · rfl
      · omega
  · refine ⟨?_, ?_⟩
    · intro hv
      exact Or.inr ⟨r, h, (Except.ok.inj hv).symm⟩
    · intro hv
      rcases hv with ⟨hl, _⟩ | ⟨s, hs, rfl⟩
      · omega
      · rw [show s = r from Fin.ext (by omega)]
  · refine ⟨?_, ?_⟩
    · intro hv
      cases hv
    · intro hv
      rcases hv with ⟨hl, _⟩ | ⟨r, hr, _⟩ <;> omega

theorem destination_eq_ok_iff {w : Word} {r : Register} :
    Processor.destination w = .ok r ↔ w.toNat = 32768 + r.val := by
  unfold destination
  rcases Operand.ofWord_cases w with ⟨h, ho⟩ | ⟨s, h, ho⟩ | ⟨h, ho⟩ <;> rw [ho]
  · exact iff_of_false (by simp) (by omega)
  · refine ⟨?_, ?_⟩
    · intro hr
      rw [← Except.ok.inj hr]; exact h
    · intro hr
      rw [show s = r from Fin.ext (by omega)]
  · exact iff_of_false (by simp) (by omega)

theorem value_setRegister {d : Word} {r : Register} (hd : Processor.destination d = .ok r)
    (p : Processor) (n : Nat) : (p.setRegister r n).value d = .ok (Word.wrap n) :=
  value_eq_ok_iff.mpr (Or.inr ⟨r, destination_eq_ok_iff.mp hd, (register_setRegister_self p r n).symm⟩)

end Processor

theorem Memory.addressOf_eq_ok_iff {w : Word} {a : Memory.Address} :
    Memory.addressOf w = .ok a ↔ w.toNat = a.val := by
  unfold addressOf
  split
  · rw [Except.ok.injEq, Fin.ext_iff]
  · rename_i h
    exact iff_of_false (by simp) (by have := a.isLt; omega)

/-! ## Plans -/

def Action.callsDevice : Action → Bool
  | .print _ | .read _ => true
  | _ => false

theorem except_bind_eq_ok_iff {ε α β : Type} {x : Except ε α} {f : α → Except ε β} {b : β} :
    x >>= f = .ok b ↔ ∃ a, x = .ok a ∧ f a = .ok b := by
  cases x with
  | error e => exact iff_of_false (by simp [bind, Except.bind]) (by simp)
  | ok a => simp [bind, Except.bind]

theorem except_bind_eq_error_iff {ε α β : Type} {x : Except ε α} {f : α → Except ε β} {e : ε} :
    x >>= f = .error e ↔ x = .error e ∨ ∃ a, x = .ok a ∧ f a = .error e := by
  cases x with
  | error e' => simp [bind, Except.bind]
  | ok a => simp [bind, Except.bind]

namespace Processor

/-- The checks of the instruction all pass and leave the action. -/
inductive Planned (p : Processor) (emptyReturn : EmptyReturn) : Instruction → Action → Prop
  | halt : Planned p emptyReturn .halt .halt
  | set {d s v r} : p.value s = .ok v → destination d = .ok r →
      Planned p emptyReturn (.set d s) (.setRegister r v.toNat)
  | push {s v} : p.value s = .ok v → Planned p emptyReturn (.push s) (.push v)
  | pop {d r v rest} : destination d = .ok r → p.stack = v :: rest →
      Planned p emptyReturn (.pop d) (.pop r v)
  | binary {op d x y a b r} : p.value x = .ok a → p.value y = .ok b → ¬ (op = .modulo ∧ b = 0) →
      destination d = .ok r →
      Planned p emptyReturn (.binary op d x y) (.setRegister r (op.eval a.toNat b.toNat))
  | jump {t v} : p.value t = .ok v → Planned p emptyReturn (.jump t) (.jump v)
  | jumpTaken {nonzero c t a v} : p.value c = .ok a → (a != 0) = nonzero → p.value t = .ok v →
      Planned p emptyReturn (.jumpIf nonzero c t) (.jump v)
  | jumpPassed {nonzero c t a} : p.value c = .ok a → (a != 0) ≠ nonzero →
      Planned p emptyReturn (.jumpIf nonzero c t) .proceed
  | not {d s v r} : p.value s = .ok v → destination d = .ok r →
      Planned p emptyReturn (.not d s) (.setRegister r (Word.modulus - 1 - v.toNat % Word.modulus))
  | readMemory {d x a cell r} : p.value x = .ok a → Memory.addressOf a = .ok cell → destination d = .ok r →
      Planned p emptyReturn (.readMemory d x) (.setRegister r (p.memory.get cell).toNat)
  | writeMemory {x s a v cell} : p.value x = .ok a → p.value s = .ok v → Memory.addressOf a = .ok cell →
      Planned p emptyReturn (.writeMemory x s) (.store cell v)
  | call {t v} : p.value t = .ok v → Planned p emptyReturn (.call t) (.call v)
  | ret {v rest} : p.stack = v :: rest → Planned p emptyReturn .ret (.ret v)
  | retHalt : p.stack = [] → emptyReturn = .halt → Planned p emptyReturn .ret .halt
  | output {s v} : p.value s = .ok v → Planned p emptyReturn (.output s) (.print v)
  | input {d r} : destination d = .ok r → Planned p emptyReturn (.input d) (.read r)
  | noop : Planned p emptyReturn .noop .proceed

theorem Planned.of_plan {p : Processor} {emptyReturn : EmptyReturn} {i : Instruction} {action : Action}
    (h : p.plan emptyReturn i = .ok action) : Planned p emptyReturn i action := by
  cases i with
  | halt => cases h; exact .halt
  | noop => cases h; exact .noop
  | set d s =>
    obtain ⟨v, hv, h⟩ := except_bind_eq_ok_iff.mp h
    obtain ⟨r, hr, h⟩ := except_bind_eq_ok_iff.mp h
    cases h; exact .set hv hr
  | push s =>
    obtain ⟨v, hv, h⟩ := except_bind_eq_ok_iff.mp h
    cases h; exact .push hv
  | pop d =>
    obtain ⟨r, hr, h⟩ := except_bind_eq_ok_iff.mp h
    split at h
    · rename_i v rest hs
      cases h; exact .pop hr hs
    · cases h
  | binary op d x y =>
    obtain ⟨a, ha, h⟩ := except_bind_eq_ok_iff.mp h
    obtain ⟨b, hb, h⟩ := except_bind_eq_ok_iff.mp h
    split at h
    · cases h
    · rename_i hz
      obtain ⟨r, hr, h⟩ := except_bind_eq_ok_iff.mp h
      cases h; exact .binary ha hb hz hr
  | jump t =>
    obtain ⟨v, hv, h⟩ := except_bind_eq_ok_iff.mp h
    cases h; exact .jump hv
  | jumpIf nonzero c t =>
    obtain ⟨a, ha, h⟩ := except_bind_eq_ok_iff.mp h
    split at h
    · rename_i hc
      obtain ⟨v, hv, h⟩ := except_bind_eq_ok_iff.mp h
      cases h; exact .jumpTaken ha hc hv
    · rename_i hc
      cases h; exact .jumpPassed ha hc
  | not d s =>
    obtain ⟨v, hv, h⟩ := except_bind_eq_ok_iff.mp h
    obtain ⟨r, hr, h⟩ := except_bind_eq_ok_iff.mp h
    cases h; exact .not hv hr
  | readMemory d x =>
    obtain ⟨a, ha, h⟩ := except_bind_eq_ok_iff.mp h
    obtain ⟨v, hv, h⟩ := except_bind_eq_ok_iff.mp h
    obtain ⟨cell, hc, hv⟩ := except_bind_eq_ok_iff.mp hv
    obtain ⟨r, hr, h⟩ := except_bind_eq_ok_iff.mp h
    cases hv; cases h; exact .readMemory ha hc hr
  | writeMemory x s =>
    obtain ⟨a, ha, h⟩ := except_bind_eq_ok_iff.mp h
    obtain ⟨v, hv, h⟩ := except_bind_eq_ok_iff.mp h
    obtain ⟨cell, hc, h⟩ := except_bind_eq_ok_iff.mp h
    cases h; exact .writeMemory ha hv hc
  | call t =>
    obtain ⟨v, hv, h⟩ := except_bind_eq_ok_iff.mp h
    cases h; exact .call hv
  | ret =>
    cases hs : p.stack with
    | cons v rest =>
      simp only [plan, hs] at h
      cases h; exact .ret hs
    | nil =>
      simp only [plan, hs] at h
      cases emptyReturn with
      | fault => cases h
      | halt => cases h; exact .retHalt hs rfl
  | output s =>
    obtain ⟨v, hv, h⟩ := except_bind_eq_ok_iff.mp h
    cases h; exact .output hv
  | input d =>
    obtain ⟨r, hr, h⟩ := except_bind_eq_ok_iff.mp h
    cases h; exact .input hr

theorem Planned.plan_eq {p : Processor} {emptyReturn : EmptyReturn} {i : Instruction} {action : Action}
    (h : Planned p emptyReturn i action) : p.plan emptyReturn i = .ok action := by
  cases h with
  | halt | noop => rfl
  | set h h' | not h h' => simp only [plan, h, h']; rfl
  | push h | jump h | call h | output h | input h => simp only [plan, h]; rfl
  | pop h h' => simp only [plan, h, h']; rfl
  | binary ha hb hz hr =>
    simp only [plan, ha, hb, hr]
    exact if_neg hz
  | jumpTaken ha hc hv =>
    simp only [plan, ha, hv]
    exact if_pos hc
  | jumpPassed ha hc =>
    simp only [plan, ha]
    exact if_neg hc
  | @readMemory d x a cell r ha hc hr =>
    refine except_bind_eq_ok_iff.mpr ⟨a, ha, except_bind_eq_ok_iff.mpr ⟨p.memory.get cell, ?_, ?_⟩⟩
    · exact except_bind_eq_ok_iff.mpr ⟨_, hc, rfl⟩
    · exact except_bind_eq_ok_iff.mpr ⟨_, hr, rfl⟩
  | writeMemory ha hv hc =>
    refine except_bind_eq_ok_iff.mpr ⟨_, ha, except_bind_eq_ok_iff.mpr ⟨_, hv, ?_⟩⟩
    exact except_bind_eq_ok_iff.mpr ⟨_, hc, rfl⟩
  | ret h => simp only [plan, h]
  | retHalt h h' => simp only [plan, h, h']

end Processor

/-! ## Steps -/

namespace Machine

section
variable {δ : Type}

/-- The machine between the fetch of an instruction and its execution. -/
def past (m : Machine δ) (i : Instruction) : Machine δ := (m.note (.fetched m.processor.pc i)).advance i

theorem fetch_eq_ok_iff {m : Machine δ} {i : Instruction} :
    m.fetch = .ok i ↔
      ∀ k, k < i.size → m.processor.memory.words[m.processor.pc.toNat + k]? = i.words[k]? :=
  Instruction.decodeFrom_eq_ok_iff

theorem pc_add_size_le {m : Machine δ} {i : Instruction} (h : m.fetch = .ok i) :
    m.processor.pc.toNat + i.size ≤ 32768 := by
  have hs : i.size = i.opcode.arity + 1 := Nat.add_comm ..
  have hlast := fetch_eq_ok_iff.mp h i.opcode.arity (by omega)
  have hw : i.opcode.arity < i.words.length := by rw [i.length_words]; omega
  rw [Memory.getElem?_words, List.getElem?_eq_getElem hw] at hlast
  split at hlast
  · rename_i hlt
    simp only [Word.modulus] at hlt
    omega
  · cases hlast

theorem toNat_pc_past {m : Machine δ} {i : Instruction} (h : m.fetch = .ok i) :
    (m.past i).processor.pc.toNat = m.processor.pc.toNat + i.size := by
  have hle := pc_add_size_le h
  show (UInt16.ofNat (m.processor.pc.toNat + i.size)).toNat = _
  rw [UInt16.toNat_ofNat', Nat.mod_eq_of_lt (by omega)]

theorem conclude_ok (pc : Word) (m : Machine δ) :
    (conclude pc (.ok (), m)).1 = .ok m.status ∧ (conclude pc (.ok (), m)).2.status = m.status := by
  unfold conclude
  simp only
  split
  · rename_i h
    exact ⟨by rw [h], rfl⟩
  · exact ⟨rfl, rfl⟩

/-- A map that goes through the changes of status and journal goes through the end of a step. -/
theorem conclude_map {ε : Type} {g : Machine δ → Machine ε} (hstatus : ∀ m, (g m).status = m.status)
    (hnote : ∀ m event, g (m.note event) = (g m).note event)
    (hfault : ∀ m, g { m with status := .faulted } = { g m with status := .faulted })
    (pc : Word) (x : Except Fault Unit × Machine δ) :
    conclude pc (x.1, g x.2) = ((conclude pc x).1, g (conclude pc x).2) := by
  obtain ⟨result, m⟩ := x
  cases result with
  | ok u =>
    unfold conclude
    simp only [hstatus]
    split
    · rw [hnote]
    · rfl
  | error fault =>
    unfold conclude
    simp only [hfault, hnote]

theorem conclude_of_running (pc : Word) {m : Machine δ} (h : m.status = .running) :
    conclude pc (.ok (), m) = (.ok .running, m) := by
  unfold conclude
  simp only [h, reduceCtorEq, if_false]

theorem conclude_of_halted (pc : Word) {m : Machine δ} (h : m.status = .halted) :
    conclude pc (.ok (), m) = (.ok .halted, m.note (.halted pc)) := by
  unfold conclude
  simp only [h, if_true]

end

section
variable {δ : Type} [Device δ] {m : Machine δ}

theorem step_of_fetch_error (h : m.status = .running) {fault : Fault} (hf : m.fetch = .error fault) :
    m.step = conclude m.processor.pc (.error fault, m) := by
  unfold step executeNext
  rw [if_pos h, hf]

theorem step_of_fetch_ok (h : m.status = .running) {i : Instruction} (hf : m.fetch = .ok i) :
    m.step = conclude m.processor.pc ((m.past i).execute i) := by
  unfold step executeNext
  rw [if_pos h, hf]
  rfl

theorem step_cases (h : m.status = .running) :
    (∃ fault, m.fetch = .error fault ∧ m.step = conclude m.processor.pc (.error fault, m)) ∨
      ∃ i, m.fetch = .ok i ∧ m.step = conclude m.processor.pc ((m.past i).execute i) := by
  cases hf : m.fetch with
  | error fault => exact Or.inl ⟨fault, rfl, step_of_fetch_error h hf⟩
  | ok i => exact Or.inr ⟨i, rfl, step_of_fetch_ok h hf⟩

theorem execute_cases (m : Machine δ) (i : Instruction) :
    (∃ fault, m.processor.plan m.emptyReturn i = .error fault ∧ m.execute i = (.error fault, m)) ∨
      ∃ action, m.processor.Planned m.emptyReturn i action ∧ m.execute i = m.perform action := by
  unfold execute
  cases hp : m.processor.plan m.emptyReturn i with
  | error fault => exact Or.inl ⟨fault, rfl, rfl⟩
  | ok action => exact Or.inr ⟨action, .of_plan hp, rfl⟩

theorem execute_of_planned {i : Instruction} {action : Action}
    (h : m.processor.Planned m.emptyReturn i action) :
    m.execute i = m.perform action := by
  unfold execute
  rw [h.plan_eq]

theorem step_of_planned {n : Machine δ} {i : Instruction} {action : Action} (hr : m.status = .running)
    (hf : m.fetch = .ok i) (hp : (m.past i).processor.Planned m.emptyReturn i action)
    (hn : (m.past i).perform action = (.ok (), n)) (hs : n.status = .running) :
    m.step = (.ok .running, n) := by
  have he : (m.past i).execute i = (m.past i).perform action := execute_of_planned hp
  rw [step_of_fetch_ok hr hf, he, hn, conclude_of_running _ hs]

theorem step_of_plan_error {i : Instruction} {fault : Fault} (hr : m.status = .running) (hf : m.fetch = .ok i)
    (hp : (m.past i).processor.plan m.emptyReturn i = .error fault) :
    m.step = conclude m.processor.pc (.error fault, m.past i) := by
  have he : (m.past i).execute i = (.error fault, m.past i) := by
    unfold execute
    rw [show (m.past i).emptyReturn = m.emptyReturn from rfl, hp]
  rw [step_of_fetch_ok hr hf, he]

theorem perform_print_ok {code : Word} {device : δ} (h : Device.output m.device code = (.ok (), device)) :
    m.perform (.print code) = (.ok (), { m with device }) := by
  unfold perform
  simp only [h]

theorem perform_print_error {code : Word} {kind : FailureKind} {device : δ}
    (h : Device.output m.device code = (.error kind, device)) :
    m.perform (.print code) = (.error (.ofFailure kind), { m with device }) := by
  unfold perform
  simp only [h]

theorem perform_read_ok {r : Register} {code : Word} {device : δ}
    (h : Device.input m.device = (.ok code, device)) :
    m.perform (.read r) =
      (.ok (), { m with device, processor := m.processor.setRegister r code.toNat }) := by
  unfold perform
  simp only [h]

theorem perform_read_error {r : Register} {kind : FailureKind} {device : δ}
    (h : Device.input m.device = (.error kind, device)) :
    m.perform (.read r) = (.error (.ofFailure kind), { m with device }) := by
  unfold perform
  simp only [h]

theorem device_perform (m : Machine δ) {action : Action} (h : action.callsDevice = false) :
    (m.perform action).2.device = m.device := by
  cases action with
  | print | read => cases h
  | _ => rfl

theorem device_perform_print (m : Machine δ) (code : Word) :
    (m.perform (.print code)).2.device = (Device.output m.device code).2 := by
  cases h : Device.output m.device code with
  | mk result device =>
    cases result with
    | ok u => rw [perform_print_ok h]
    | error kind => rw [perform_print_error h]

theorem device_perform_read (m : Machine δ) (r : Register) :
    (m.perform (.read r)).2.device = (Device.input m.device).2 := by
  cases h : Device.input m.device with
  | mk result device =>
    cases result with
    | ok code => rw [perform_read_ok h]
    | error kind => rw [perform_read_error h]

theorem processor_perform (m : Machine δ) (action : Action) :
    (m.perform action).2.processor = m.processor.commit action ∨
      ∃ r code, action = .read r ∧ (m.perform action).2.processor = m.processor.setRegister r code := by
  cases action with
  | print code =>
    cases h : Device.output m.device code with
    | mk result device =>
      cases result with
      | ok u => exact Or.inl (by rw [perform_print_ok h]; rfl)
      | error kind => exact Or.inl (by rw [perform_print_error h]; rfl)
  | read r =>
    cases h : Device.input m.device with
    | mk result device =>
      cases result with
      | ok code => exact Or.inr ⟨r, code.toNat, rfl, by rw [perform_read_ok h]⟩
      | error kind => exact Or.inl (by rw [perform_read_error h]; rfl)
  | _ => exact Or.inl rfl

/-- What executing an instruction leaves of the processor, whether it succeeds or not. -/
theorem processor_execute (m : Machine δ) (i : Instruction) :
    (m.execute i).2.processor = m.processor ∨
      (∃ action, m.processor.Planned m.emptyReturn i action ∧
        (m.execute i).2.processor = m.processor.commit action) ∨
      ∃ r code, (m.execute i).2.processor = m.processor.setRegister r code := by
  rcases execute_cases m i with ⟨fault, _, he⟩ | ⟨action, hp, he⟩
  · exact Or.inl (by rw [he])
  · rw [he]
    rcases processor_perform m action with h | ⟨r, code, _, h⟩
    · exact Or.inr (Or.inl ⟨action, hp, h⟩)
    · exact Or.inr (Or.inr ⟨r, code, h⟩)

/-- But for status and journal, a step leaves what it found or what the instruction at the
program counter leaves. -/
theorem step_snd (m : Machine δ) :
    ∃ status journal, m.step.2 = { m with status, journal } ∨
      ∃ i, m.fetch = .ok i ∧ m.step.2 = { ((m.past i).execute i).2 with status, journal } := by
  have hc : ∀ pc (x : Except Fault Unit × Machine δ), ∃ status journal,
      (conclude pc x).2 = { x.2 with status, journal } := by
    intro pc ⟨result, n⟩
    cases result with
    | ok u =>
      unfold conclude
      simp only
      split <;> exact ⟨_, _, rfl⟩
    | error fault => exact ⟨_, _, rfl⟩
  by_cases h : m.status = .running
  · rcases step_cases h with ⟨fault, _, hs⟩ | ⟨i, hf, hs⟩
    · obtain ⟨status, journal, hx⟩ := hc m.processor.pc (.error fault, m)
      exact ⟨status, journal, Or.inl (hs ▸ hx)⟩
    · obtain ⟨status, journal, hx⟩ := hc m.processor.pc ((m.past i).execute i)
      exact ⟨status, journal, Or.inr ⟨i, hf, hs ▸ hx⟩⟩
  · exact ⟨m.status, m.journal, Or.inl (by rw [step_of_stopped h])⟩

end

end Machine

end WordMachine
