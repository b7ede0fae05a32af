import WordMachine.Machine.Patching
import WordMachine.Proofs.Machine.Runs

/-!
# What a host does to a machine

A host steps a machine, runs it, has it execute an instruction from outside, patches it, loads
images and writes words into its memory and registers. All this goes through any map of devices
that respects their calls (`foldl_act_mapDevice`), so a device can be watched without a
difference to the machine.
-/

namespace WordMachine

namespace Machine

inductive Act
  | step
  | run (fuel : Nat)
  | execute (i : Instruction)
  | patch (patches : List Patch)
  | setRegister (r : Register) (w : Word)
  | load (base : Nat) (image : Image)
  | write (address value : Word)
  | setEmptyReturn (emptyReturn : EmptyReturn)

section
variable {δ : Type} [Device δ]

/-- The machine after an act, whatever the act answers. -/
def act (m : Machine δ) : Act → Machine δ
  | .step => m.step.2
  | .run fuel => (m.run fuel).2
  | .execute i => (m.execute i).2
  | .patch patches => (m.patch patches).2
  | .setRegister r w => { m with processor := m.processor.setRegister r w.toNat }
  | .load base image =>
    match m.processor.memory.load base image with
    | .ok memory => { m with processor.memory := memory }
    | .error _ => m
  | .write address value =>
    match m.processor.memory.write address value with
    | .ok memory => { m with processor.memory := memory }
    | .error _ => m
  | .setEmptyReturn emptyReturn => { m with emptyReturn }

theorem act_load (m : Machine δ) (base : Nat) (image : Image) :
    ∃ memory, m.act (.load base image) = { m with processor.memory := memory } := by
  unfold act
  simp only
  split
  · exact ⟨_, rfl⟩
  · exact ⟨m.processor.memory, rfl⟩

theorem act_write (m : Machine δ) (address value : Word) :
    ∃ memory, m.act (.write address value) = { m with processor.memory := memory } := by
  unfold act
  simp only
  split
  · exact ⟨_, rfl⟩
  · exact ⟨m.processor.memory, rfl⟩

end

end Machine

/-! ## Patches -/

theorem Processor.patch_cases {p q : Processor} {patch : Patch} (h : p.patch patch = .ok q) :
    (∃ cell : Memory.Address, patch.address.toNat = cell.val ∧ q = p.store cell patch.value) ∨
      ∃ r : Register, patch.address.toNat = 32768 + r.val ∧ q = p.setRegister r patch.value.toNat := by
  unfold Processor.patch at h
  rcases Operand.ofWord_cases patch.address with ⟨_, ho⟩ | ⟨r, hr, ho⟩ | ⟨_, ho⟩ <;> rw [ho] at h
  · obtain ⟨cell, hc, hq⟩ := except_bind_eq_ok_iff.mp h
    exact Or.inl ⟨cell, Memory.addressOf_eq_ok_iff.mp hc, (Except.ok.inj hq).symm⟩
  · exact Or.inr ⟨r, hr, (Except.ok.inj h).symm⟩
  · cases h

namespace Machine

section
variable {δ : Type}

/-- What every single patch keeps, any list of them keeps. -/
theorem patch_induction {P : Processor → Prop} (hpatch : ∀ {p q patch}, p.patch patch = .ok q → P p → P q)
    {m : Machine δ} (h : P m.processor) (patches : List Patch) : P (m.patch patches).2.processor := by
  induction patches generalizing m with
  | nil => exact h
  | cons p rest ih =>
    unfold patch
    cases hp : m.processor.patch p with
    | error fault => exact h
    | ok processor =>
      have hprocessor : P processor := hpatch hp h
      simp only
      exact ih hprocessor

theorem device_patch (m : Machine δ) (patches : List Patch) : (m.patch patches).2.device = m.device := by
  induction patches generalizing m with
  | nil => rfl
  | cons p rest ih =>
    unfold patch
    cases hp : m.processor.patch p with
    | error fault => rfl
    | ok processor =>
      simp only
      exact ih _

end

end Machine

/-! ## Maps of devices -/

/-- Calls give the same answers on both sides of the map. -/
structure Device.Respects {δ ε : Type} [Device δ] [Device ε] (f : δ → ε) : Prop where
  input : ∀ d, Device.input (f d) = ((Device.input d).1, f (Device.input d).2)
  output : ∀ d code, Device.output (f d) code = ((Device.output d code).1, f (Device.output d code).2)

namespace Machine

variable {δ ε : Type}

def mapDevice (f : δ → ε) (m : Machine δ) : Machine ε where
  device := f m.device
  processor := m.processor
  status := m.status
  emptyReturn := m.emptyReturn
  journal := m.journal

/-- An answer with the machine it leaves, the device mapped. -/
def mapResult {α : Type} (f : δ → ε) (x : α × Machine δ) : α × Machine ε := (x.1, x.2.mapDevice f)

theorem patch_mapDevice (f : δ → ε) (patches : List Patch) (m : Machine δ) :
    (m.mapDevice f).patch patches = mapResult f (m.patch patches) := by
  induction patches generalizing m with
  | nil => rfl
  | cons p rest ih =>
    unfold patch
    rw [show (m.mapDevice f).processor = m.processor from rfl]
    cases m.processor.patch p with
    | ok processor => exact ih ({ m with processor }.note (.patched p))
    | error fault => rfl

section
variable [Device δ] [Device ε] {f : δ → ε} (hf : Device.Respects f)
include hf

theorem perform_mapDevice (m : Machine δ) (action : Action) :
    (m.mapDevice f).perform action = mapResult f (m.perform action) := by
  cases action with
  | print code =>
    have ho : Device.output (m.mapDevice f).device code = _ := hf.output m.device code
    cases h : Device.output m.device code with
    | mk result device =>
      rw [h] at ho
      cases result with
      | ok u => rw [perform_print_ok h, perform_print_ok ho]; rfl
      | error kind => rw [perform_print_error h, perform_print_error ho]; rfl
  | read r =>
    have hi : Device.input (m.mapDevice f).device = _ := hf.input m.device
    cases h : Device.input m.device with
    | mk result device =>
      rw [h] at hi
      cases result with
      | ok code => rw [perform_read_ok h, perform_read_ok hi]; rfl
      | error kind => rw [perform_read_error h, perform_read_error hi]; rfl
  | _ => rfl

theorem execute_mapDevice (m : Machine δ) (i : Instruction) :
    (m.mapDevice f).execute i = mapResult f (m.execute i) := by
  unfold execute
  rw [show (m.mapDevice f).processor.plan (m.mapDevice f).emptyReturn i =
      m.processor.plan m.emptyReturn i from rfl]
  cases m.processor.plan m.emptyReturn i with
  | ok action => exact perform_mapDevice hf m action
  | error fault => rfl

theorem step_mapDevice (m : Machine δ) : (m.mapDevice f).step = mapResult f m.step := by
  have hc :
      ∀ pc (x : Except Fault Unit × Machine δ), conclude pc (mapResult f x) = mapResult f (conclude pc x) :=
    conclude_map (g := fun m => m.mapDevice f) (fun _ => rfl) (fun _ _ => rfl) (fun _ => rfl)
  by_cases h : m.status = .running
  · rcases step_cases h with ⟨fault, hfe, hs⟩ | ⟨i, hfe, hs⟩
    · rw [hs, step_of_fetch_error (m := m.mapDevice f) h hfe, ← hc]
      rfl
    · rw [hs, step_of_fetch_ok (m := m.mapDevice f) h hfe, ← hc, ← execute_mapDevice hf]
      rfl
  · rw [step_of_stopped h, step_of_stopped (m := m.mapDevice f) h]
    rfl

theorem after_mapDevice (m : Machine δ) (n : Nat) : (m.mapDevice f).after n = (m.after n).mapDevice f := by
  induction n with
  | zero => rfl
  | succ n ih => rw [after, after, ih, step_mapDevice hf]; rfl

theorem act_mapDevice (m : Machine δ) (a : Act) : (m.mapDevice f).act a = (m.act a).mapDevice f := by
  cases a with
  | step => exact congrArg Prod.snd (step_mapDevice hf m)
  | run fuel =>
    unfold act
    simp only [run_snd]
    exact after_mapDevice hf m fuel
  | execute i => exact congrArg Prod.snd (execute_mapDevice hf m i)
  | patch patches => exact congrArg Prod.snd (patch_mapDevice f patches m)
  | setRegister r w => rfl
  | load base image =>
    unfold act
    simp only
    rw [show (m.mapDevice f).processor = m.processor from rfl]
    cases m.processor.memory.load base image <;> rfl
  | write address value =>
    unfold act
    simp only
    rw [show (m.mapDevice f).processor = m.processor from rfl]
    cases m.processor.memory.write address value <;> rfl
  | setEmptyReturn emptyReturn => rfl

theorem foldl_act_mapDevice (acts : List Act) (m : Machine δ) :
    acts.foldl act (m.mapDevice f) = (acts.foldl act m).mapDevice f := by
  induction acts generalizing m with
  | nil => rfl
  | cons a acts ih => rw [List.foldl_cons, List.foldl_cons, act_mapDevice hf, ih]

end

end Machine

end WordMachine
