import WordMachine.Proofs.Machine.Acts

/-!
# The width of words

Memory may hold any words, and so may the operands of an instruction that a host hands in. All the
same registers keep 15 bits, no code of more is ever printed, and neither the program counter nor
a stack entry goes beyond the first address behind memory (`words_narrow`).
-/

namespace WordMachine

section
variable {p : Processor} (h : ∀ r, (p.register r).toNat ≤ 32767)
include h

theorem Processor.value_le {w v : Word} (hv : p.value w = .ok v) : v.toNat ≤ 32767 := by
  rcases value_eq_ok_iff.mp hv with ⟨hl, rfl⟩ | ⟨r, _, rfl⟩
  · omega
  · exact h r

theorem Processor.register_setRegister_le (r : Register) (n : Nat) (s : Register) :
    ((p.setRegister r n).register s).toNat ≤ 32767 := by
  by_cases hs : r = s
  · subst hs
    have := Word.wrap_lt n
    rw [register_setRegister_self]
    simp only [Word.modulus] at this
    omega
  · rw [register_setRegister_of_ne p n hs]
    exact h s

theorem Processor.register_commit_le (action : Action) (r : Register) :
    ((p.commit action).register r).toNat ≤ 32767 := by
  cases action with
  | setRegister s n => exact register_setRegister_le h s n r
  | pop s v => exact register_setRegister_le h s v.toNat r
  | _ => exact h r

theorem Processor.register_patch_le {q : Processor} {patch : Patch} (hp : p.patch patch = .ok q)
    (r : Register) : (q.register r).toNat ≤ 32767 := by
  rcases patch_cases hp with ⟨cell, _, rfl⟩ | ⟨s, _, rfl⟩
  · exact h r
  · exact register_setRegister_le h s _ r

end

structure Processor.Narrow (p : Processor) : Prop where
  registers : ∀ r, (p.register r).toNat ≤ 32767
  pc : p.pc.toNat ≤ 32768
  stack : ∀ w ∈ p.stack, w.toNat ≤ 32768

section
variable {p : Processor} (h : p.Narrow)
include h

theorem Processor.Narrow.setRegister (r : Register) (n : Nat) : (p.setRegister r n).Narrow :=
  ⟨register_setRegister_le h.registers r n, h.pc, h.stack⟩

theorem Processor.Narrow.commit {emptyReturn : EmptyReturn} {i : Instruction} {action : Action}
    (hp : p.Planned emptyReturn i action) : (p.commit action).Narrow := by
  refine ⟨register_commit_le h.registers action, ?_, ?_⟩
  · cases hp with
    | jump hv | jumpTaken _ _ hv | call hv => exact Nat.le_succ_of_le (value_le h.registers hv)
    | ret hs => exact h.stack _ (hs ▸ List.mem_cons_self)
    | _ => exact h.pc
  · have hpush : ∀ {v : Word}, v.toNat ≤ 32768 → ∀ w ∈ v :: p.stack, w.toNat ≤ 32768 := by
      intro v hv w hw
      rcases List.mem_cons.mp hw with rfl | hw
      · exact hv
      · exact h.stack w hw
    have htail : ∀ w ∈ p.stack.tail, w.toNat ≤ 32768 := fun w hw => h.stack w (List.mem_of_mem_tail hw)
    cases hp with
    | push hv => exact hpush (Nat.le_succ_of_le (value_le h.registers hv))
    | call => exact hpush h.pc
    | pop | ret => exact htail
    | _ => exact h.stack

end

theorem Processor.Narrow.patch {p q : Processor} {patch : Patch} (hp : p.patch patch = .ok q)
    (h : p.Narrow) : q.Narrow := by
  have hr := register_patch_le h.registers hp
  rcases patch_cases hp with ⟨cell, _, rfl⟩ | ⟨s, _, rfl⟩
  · exact ⟨hr, h.pc, h.stack⟩
  · exact ⟨hr, h.pc, h.stack⟩

/-! ## Watched devices -/

/-- A device with every code that it was handed, the latest first. -/
structure Recorded (δ : Type) where
  device : δ
  handed : List Word := []

instance {δ : Type} [Device δ] : Device (Recorded δ) where
  input d :=
    let (code, device) := Device.input d.device
    (code, { d with device })
  output d code :=
    let (result, device) := Device.output d.device code
    (result, { device, handed := code :: d.handed })

theorem Recorded.respects {δ : Type} [Device δ] : Device.Respects (Recorded.device : Recorded δ → δ) :=
  ⟨fun _ => rfl, fun _ _ => rfl⟩

namespace Machine

structure Narrow {δ : Type} (m : Machine (Recorded δ)) : Prop where
  processor : m.processor.Narrow
  handed : ∀ code ∈ m.device.handed, code.toNat ≤ 32767

section
variable {δ : Type} {m : Machine (Recorded δ)} (h : m.Narrow)
include h

theorem Narrow.past {i : Instruction} (hf : m.fetch = .ok i) : (m.past i).Narrow := by
  refine ⟨⟨h.processor.registers, ?_, h.processor.stack⟩, h.handed⟩
  rw [toNat_pc_past hf]
  exact pc_add_size_le hf

theorem Narrow.patch (patches : List Patch) : (m.patch patches).2.Narrow := by
  refine ⟨patch_induction Processor.Narrow.patch h.processor patches, ?_⟩
  rw [device_patch]
  exact h.handed

end

section
variable {δ : Type} [Device δ] {m : Machine (Recorded δ)} (h : m.Narrow)
include h

theorem Narrow.execute (i : Instruction) : (m.execute i).2.Narrow := by
  refine ⟨?_, ?_⟩
  · rcases processor_execute m i with he | ⟨action, hp, he⟩ | ⟨r, code, he⟩ <;> rw [he]
    · exact h.processor
    · exact h.processor.commit hp
    · exact h.processor.setRegister r code
  · rcases execute_cases m i with ⟨fault, _, he⟩ | ⟨action, hp, he⟩ <;> rw [he]
    · exact h.handed
    · cases hp with
      | @output s v hv =>
        rw [device_perform_print]
        intro code hc
        rcases List.mem_cons.mp hc with rfl | hc
        · exact Processor.value_le h.processor.registers hv
        · exact h.handed code hc
      | input =>
        rw [device_perform_read]
        exact h.handed
      | _ =>
        rw [device_perform m rfl]
        exact h.handed

theorem Narrow.step : m.step.2.Narrow := by
  obtain ⟨status, journal, hs | ⟨i, hf, hs⟩⟩ := step_snd m <;> rw [hs]
  · exact ⟨h.processor, h.handed⟩
  · have he := (h.past hf).execute i
    exact ⟨he.processor, he.handed⟩

theorem Narrow.act (a : Act) : (m.act a).Narrow := by
  cases a with
  | step => exact h.step
  | run fuel =>
    show (m.run fuel).2.Narrow
    rw [run_snd]
    exact after_induction (fun _ h => h.step) h fuel
  | execute i => exact h.execute i
  | patch patches => exact h.patch patches
  | setRegister r w => exact ⟨h.processor.setRegister r w.toNat, h.handed⟩
  | load base image =>
    obtain ⟨memory, he⟩ := act_load m base image
    rw [he]
    exact ⟨⟨h.processor.registers, h.processor.pc, h.processor.stack⟩, h.handed⟩
  | write address value =>
    obtain ⟨memory, he⟩ := act_write m address value
    rw [he]
    exact ⟨⟨h.processor.registers, h.processor.pc, h.processor.stack⟩, h.handed⟩
  | setEmptyReturn emptyReturn => exact ⟨h.processor, h.handed⟩

theorem Narrow.foldl_act (acts : List Act) : (acts.foldl Machine.act m).Narrow := by
  induction acts generalizing m with
  | nil => exact h
  | cons a acts ih => exact ih (h.act a)

end

theorem narrow_start {δ : Type} (memory : Memory) (device : δ) (journal : Option (Array Event)) :
    Narrow { start memory (⟨device, []⟩ : Recorded δ) with journal } := by
  refine ⟨⟨?_, by simp [start], by simp [start]⟩, by simp [start]⟩
  intro r
  simp [start, Processor.register]

theorem processor_narrow {δ : Type} [Device δ] (memory : Memory) (device : δ) (journal : Option (Array Event))
    (acts : List Act) :
    (acts.foldl act { start memory device with journal } : Machine δ).processor.Narrow := by
  have hm := foldl_act_mapDevice Recorded.respects acts
    { start memory (⟨device, []⟩ : Recorded δ) with journal }
  have hp := congrArg Machine.processor hm
  exact hp ▸ ((narrow_start memory device journal).foldl_act acts).processor

/-- The codes are those that the same acts hand to the device when it is watched. -/
theorem words_narrow {δ : Type} [Device δ] (memory : Memory) (device : δ)
    (journal : Option (Array Event)) (acts : List Act) :
    let m : Machine δ := acts.foldl act { start memory device with journal }
    let watched : Machine (Recorded δ) := acts.foldl act { start memory ⟨device, []⟩ with journal }
    m.processor.memory.words.toList.length = 32768 ∧
      (∀ r, (m.processor.register r).toNat ≤ 32767) ∧
      m.processor.pc.toNat ≤ 32768 ∧
      (∀ w ∈ m.processor.stack, w.toNat ≤ 32768) ∧
      watched.mapDevice Recorded.device = m ∧
      ∀ code ∈ watched.device.handed, code.toNat ≤ 32767 := by
  intro m watched
  have hn : watched.Narrow := (narrow_start memory device journal).foldl_act acts
  have hm : watched.mapDevice Recorded.device = m :=
    (foldl_act_mapDevice Recorded.respects acts _).symm
  have hp : m.processor = watched.processor := by rw [← hm]; rfl
  rw [hp]
  exact ⟨Vector.length_toList, hn.processor.registers, hn.processor.pc, hn.processor.stack, hm, hn.handed⟩

end Machine

end WordMachine
