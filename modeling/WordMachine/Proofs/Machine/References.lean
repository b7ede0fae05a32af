import Mathlib.Data.List.Induction
import WordMachine.Device.Transcript
import WordMachine.Proofs.Machine.WordWidth

/-!
# References to registers

An operand that names a register is a word of 16 bits, and a program computes with 15. It can store
no such word, so those that it executes stand where its host put them (`references_given`).
-/

namespace WordMachine

/-- Each word of 16 bits in the newer memory was there before. -/
def Memory.Grants (old new : Memory) : Prop := ∀ a, 32768 ≤ (new.get a).toNat → new.get a = old.get a

theorem Memory.Grants.trans {old mid new : Memory} (h : old.Grants mid) (h' : mid.Grants new) :
    old.Grants new := by
  intro a hw
  have he := h' a hw
  rw [he] at hw ⊢
  exact h a hw

theorem Memory.grants_set (memory : Memory) (cell : Memory.Address) {v : Word} (hv : v.toNat ≤ 32767) :
    memory.Grants (memory.set cell v) := by
  intro a hw
  by_cases ha : cell = a
  · subst ha
    rw [Memory.get_set_self] at hw
    omega
  · exact Memory.get_set_of_ne memory v ha

/-- What becomes of a processor that forges no reference. -/
structure Processor.Unforged (p q : Processor) : Prop where
  registers : ∀ r, (q.register r).toNat ≤ 32767
  memory : p.memory.Grants q.memory

namespace Processor

theorem Unforged.of_memory_eq {p q : Processor} (h : ∀ r, (q.register r).toNat ≤ 32767)
    (hm : q.memory = p.memory) : p.Unforged q :=
  ⟨h, fun a _ => by rw [hm]⟩

theorem Unforged.trans {p q s : Processor} (h : p.Unforged q) (h' : q.Unforged s) : p.Unforged s :=
  ⟨h'.registers, h.memory.trans h'.memory⟩

section
variable {p : Processor} (h : ∀ r, (p.register r).toNat ≤ 32767)
include h

theorem unforged_commit {emptyReturn : EmptyReturn} {i : Instruction} {action : Action}
    (hp : p.Planned emptyReturn i action) : p.Unforged (p.commit action) := by
  refine ⟨register_commit_le h action, ?_⟩
  cases hp with
  | writeMemory _ hs _ => exact p.memory.grants_set _ (value_le h hs)
  | _ => exact fun _ _ => rfl

end

end Processor

namespace Machine

/-- The acts by which a host puts words into memory. -/
def Act.fills : Act → Bool
  | .patch _ | .load .. | .write .. => true
  | _ => false

section
variable {δ : Type} [Device δ] {m : Machine δ} (h : ∀ r, (m.processor.register r).toNat ≤ 32767)
include h

theorem unforged_execute (i : Instruction) : m.processor.Unforged (m.execute i).2.processor := by
  rcases processor_execute m i with he | ⟨action, hp, he⟩ | ⟨r, code, he⟩ <;> rw [he]
  · exact .of_memory_eq h rfl
  · exact Processor.unforged_commit h hp
  · exact .of_memory_eq (Processor.register_setRegister_le h r code) rfl

theorem unforged_step : m.processor.Unforged m.step.2.processor := by
  obtain ⟨status, journal, hs | ⟨i, _, hs⟩⟩ := step_snd m <;> rw [hs]
  · exact .of_memory_eq h rfl
  · -- the fetch has moved the program counter and nothing else
    have he := unforged_execute (m := m.past i) h i
    exact ⟨he.registers, he.memory⟩

theorem unforged_after (n : Nat) : m.processor.Unforged (m.after n).processor := by
  induction n with
  | zero => exact .of_memory_eq h rfl
  | succ n ih => exact ih.trans (unforged_step ih.registers)

theorem register_act_le (a : Act) (r : Register) : ((m.act a).processor.register r).toNat ≤ 32767 := by
  cases a with
  | step => exact (unforged_step h).registers r
  | run fuel =>
    show ((m.run fuel).2.processor.register r).toNat ≤ 32767
    rw [run_snd]
    exact (unforged_after h fuel).registers r
  | execute i => exact (unforged_execute h i).registers r
  | patch patches => exact patch_induction (fun hp h => Processor.register_patch_le h hp) h patches r
  | setRegister s w => exact Processor.register_setRegister_le h s w.toNat r
  | load base image =>
    obtain ⟨memory, he⟩ := act_load m base image
    rw [he]
    exact h r
  | write address value =>
    obtain ⟨memory, he⟩ := act_write m address value
    rw [he]
    exact h r
  | setEmptyReturn emptyReturn => exact h r

theorem register_foldl_act_le (acts : List Act) (r : Register) :
    ((acts.foldl act m).processor.register r).toNat ≤ 32767 := by
  induction acts generalizing m with
  | nil => exact h r
  | cons a acts ih => exact ih (register_act_le h a)

theorem unforged_act {a : Act} (ha : a.fills = false) : m.processor.Unforged (m.act a).processor := by
  refine ⟨register_act_le h a, ?_⟩
  cases a with
  | step => exact (unforged_step h).memory
  | run fuel =>
    show m.processor.memory.Grants (m.run fuel).2.processor.memory
    rw [run_snd]
    exact (unforged_after h fuel).memory
  | execute i => exact (unforged_execute h i).memory
  | setRegister | setEmptyReturn => exact fun _ _ => rfl
  | patch | load | write => cases ha

/-- The word was in the cell before all acts, or one of those that fill memory has put it there, and
none has touched it since. -/
def Given (m : Machine δ) (acts : List Act) (a : Memory.Address) (w : Word) : Prop :=
  ∃ front back, acts = front ++ back ∧
    (∀ seen, seen <+: back → (seen.foldl act (front.foldl act m)).processor.memory.get a = w) ∧
    (front = [] ∨ ∃ earlier last, front = earlier ++ [last] ∧ last.fills = true ∧
      (earlier.foldl act m).processor.memory.get a ≠ w)

theorem given_of_get {acts : List Act} {a : Memory.Address} {w : Word} (hw : 32768 ≤ w.toNat)
    (hget : (acts.foldl act m).processor.memory.get a = w) : m.Given acts a w := by
  induction acts using List.reverseRecOn with
  | nil =>
    refine ⟨[], [], rfl, ?_, Or.inl rfl⟩
    intro seen hs
    rw [List.prefix_nil.mp hs]
    exact hget
  | append_singleton acts last ih =>
    by_cases hbefore : (acts.foldl act m).processor.memory.get a = w
    · obtain ⟨front, back, rfl, hback, hfront⟩ := ih hbefore
      refine ⟨front, back ++ [last], List.append_assoc .., ?_, hfront⟩
      intro seen hs
      rcases List.prefix_concat_iff.mp hs with rfl | hs
      · rw [← List.foldl_append, ← List.append_assoc]
        exact hget
      · exact hback seen hs
    · -- what is not there before an act and is there after it, that act has put there
      refine ⟨acts ++ [last], [], (List.append_nil _).symm, ?_, Or.inr ⟨acts, last, rfl, ?_, hbefore⟩⟩
      · intro seen hs
        rw [List.prefix_nil.mp hs]
        exact hget
      · apply Classical.byContradiction
        intro hfills
        rw [List.foldl_append, List.foldl_cons, List.foldl_nil] at hget
        apply hbefore
        rw [← hget]
        rw [← hget] at hw
        have hu := unforged_act (register_foldl_act_le h acts) (eq_false_of_ne_true hfills)
        exact (hu.memory a hw).symm

end

theorem exists_cell_of_operand {δ : Type} {m : Machine δ} {i : Instruction} (hf : m.fetch = .ok i)
    {j : Nat} {w : Word} (hj : i.operands[j]? = some w) :
    ∃ a : Memory.Address, a.val = m.processor.pc.toNat + 1 + j ∧ m.processor.memory.get a = w := by
  have hlt : j < i.operands.length := (List.getElem?_eq_some_iff.mp hj).1
  have hk : 1 + j < i.size := by
    rw [i.length_operands] at hlt
    rw [Instruction.size]
    omega
  have hcell := fetch_eq_ok_iff.mp hf (1 + j) hk
  rw [Memory.getElem?_words, Nat.add_comm 1 j] at hcell
  split at hcell
  · rename_i hlt'
    refine ⟨⟨_, hlt'⟩, ?_, Option.some.inj (hcell.trans hj)⟩
    show m.processor.pc.toNat + (j + 1) = m.processor.pc.toNat + 1 + j
    omega
  · cases hcell.trans hj

/-- A run brings no word of 16 bits into memory, and no store of it tries to. So whatever a host does
in between, each such operand of an instruction that is fetched was in its place from the start, or
the host has put it there. -/
theorem references_given {δ : Type} [Device δ] (m : Machine δ)
    (h : ∀ r, (m.processor.register r).toNat ≤ 32767) :
    (∀ n a, 32768 ≤ ((m.after n).processor.memory.get a).toNat →
      m.processor.memory.get a = (m.after n).processor.memory.get a) ∧
      (∀ n x s v, (m.after n).fetch = .ok (.writeMemory x s) → (m.after n).processor.value s = .ok v →
        v.toNat ≤ 32767) ∧
      ∀ acts i j w, (acts.foldl act m).fetch = .ok i → i.operands[j]? = some w → 32768 ≤ w.toNat →
        ∃ a : Memory.Address, a.val = (acts.foldl act m).processor.pc.toNat + 1 + j ∧ m.Given acts a w := by
  refine ⟨?_, ?_, ?_⟩
  · intro n a hw
    exact ((unforged_after h n).memory a hw).symm
  · intro n x s v _ hv
    exact Processor.value_le (unforged_after h n).registers hv
  · intro acts i j w hf hj hw
    obtain ⟨a, ha, hget⟩ := exists_cell_of_operand hf hj
    exact ⟨a, ha, given_of_get h hw hget⟩

/-- Loads a reference to a register, stores what the register got as the operand of the next
instruction, and prints. -/
def copying : Machine Transcript where
  device := .ofBytes []
  processor := { memory := Memory.empty.overlay 0 [15, 32768, 8, 16, 7, 32768, 19, 0, 32769] (by decide) }

theorem references_given_copying :
    (∀ r, (copying.processor.register r).toNat ≤ 32767) ∧
      (copying.after 2).processor.memory.get 7 = 1 ∧
        copying.processor.memory.get 8 = (copying.after 2).processor.memory.get 8 ∧
      ∃ a : Memory.Address, a.val = 7 ∧ copying.Given [.run 2, .write 7 32769] a 32769 := by
  have hr : ∀ r, (copying.processor.register r).toNat ≤ 32767 := by decide +kernel
  obtain ⟨hrun, _, hgiven⟩ := references_given copying hr
  have hf : ([.run 2, .write 7 32769].foldl act copying).fetch = .ok (.output 32769) :=
    fetch_eq_ok_iff.mpr (by decide +kernel)
  have hpc : ([.run 2, .write 7 32769].foldl act copying).processor.pc.toNat = 6 := by decide +kernel
  obtain ⟨a, ha, hg⟩ := hgiven _ _ 0 32769 hf rfl (by decide)
  rw [hpc] at ha
  have hstored : (copying.after 2).processor.memory.get 7 = 1 := by decide +kernel
  have hkept := hrun 2 8 (by decide +kernel)
  exact ⟨hr, hstored, hkept, a, ha, hg⟩

end Machine

end WordMachine
