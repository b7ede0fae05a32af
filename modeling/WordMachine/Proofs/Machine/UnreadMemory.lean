import WordMachine.Proofs.Machine.Completion

/-!
# Memory that is not read

A step reads the words of the instruction that it fetches and the word that it loads, and no other
memory. A run that never reads a word goes the same way whatever that word is, and once it has
stored there nothing is left of the difference (`unread_harmless`).
-/

namespace WordMachine

namespace Memory

theorem set_set_self (memory : Memory) (a : Address) (v w : Word) :
    (memory.set a v).set a w = memory.set a w := by
  simp [set]

theorem set_comm (memory : Memory) {a b : Address} (v w : Word) (h : a ≠ b) :
    (memory.set a v).set b w = (memory.set b w).set a v := by
  have : a.val ≠ b.val := fun e => h (Fin.ext e)
  simp [set, Vector.set_comm _ _ this]

end Memory

theorem Processor.plan_store (p : Processor) (emptyReturn : EmptyReturn) (i : Instruction)
    {a : Memory.Address} (w : Word)
    (h : ∀ d x v r, i = .readMemory d x → p.value x = .ok v → v.toNat = a.val →
      Processor.destination d ≠ .ok r) :
    (p.store a w).plan emptyReturn i = p.plan emptyReturn i := by
  cases i with
  | readMemory d x =>
    have hx : (p.store a w).value x = p.value x := rfl
    simp only [plan, hx]
    cases hv : p.value x with
    | error fault => rfl
    | ok v =>
      cases hc : Memory.addressOf v with
      | error fault => simp [Memory.read, hc, bind, Except.bind]
      | ok cell =>
        by_cases ha : a = cell
        · subst ha
          cases hd : Processor.destination d with
          | error fault => simp [Memory.read, hc, bind, Except.bind, pure, Except.pure]
          | ok r => exact absurd hd (h d x v r rfl hv (Memory.addressOf_eq_ok_iff.mp hc))
        · have hg : (p.store a w).memory.get cell = p.memory.get cell := Memory.get_set_of_ne p.memory w ha
          simp [Memory.read, hc, hg, bind, Except.bind, pure, Except.pure]
  | _ => rfl

namespace Machine

section
variable {δ : Type}

/-- The machine with one word of memory replaced. -/
def poke (m : Machine δ) (a : Memory.Address) (w : Word) : Machine δ :=
  { m with processor := m.processor.store a w }

/-- The next step reads the word: it fetches it as an opcode, be it a known one or not, fetches it
as an operand, or loads it into a register. -/
def Reads (m : Machine δ) (a : Memory.Address) : Prop :=
  m.status = .running ∧
    (m.processor.pc.toNat = a.val ∨
      (∃ i, m.fetch = .ok i ∧ m.processor.pc.toNat < a.val ∧ a.val < m.processor.pc.toNat + i.size) ∨
      ∃ d x v r, m.fetch = .ok (.readMemory d x) ∧ m.processor.value x = .ok v ∧ v.toNat = a.val ∧
        Processor.destination d = .ok r)

def Stores (m : Machine δ) (a : Memory.Address) : Prop :=
  m.status = .running ∧ ∃ x s v w, m.fetch = .ok (.writeMemory x s) ∧ m.processor.value x = .ok v ∧
    v.toNat = a.val ∧ m.processor.value s = .ok w

theorem fetch_poke {m : Machine δ} {a : Memory.Address} (hr : m.status = .running) (h : ¬ m.Reads a)
    (w : Word) : (m.poke a w).fetch = m.fetch := by
  have hget : ∀ k, k ≠ a.val → m.processor.memory.words[k]? = (m.poke a w).processor.memory.words[k]? := by
    intro k hk
    simp only [Memory.getElem?_words]
    split
    · rename_i hlt
      have hne : a ≠ ⟨k, hlt⟩ := fun e => hk (congrArg Fin.val e).symm
      exact congrArg some (Memory.get_set_of_ne m.processor.memory w hne).symm
    · rfl
  apply Instruction.decodeFrom_eq_of_words
  · intro k
    simp only [Memory.getElem?_words]
    split <;> rfl
  · exact hget _ fun hpc => h ⟨hr, Or.inl hpc⟩
  · intro i hf k hk
    have hk' : m.processor.pc.toNat + k ≠ a.val := by
      intro hpc
      by_cases h0 : k = 0
      · exact h ⟨hr, Or.inl (by omega)⟩
      · exact h ⟨hr, Or.inr (Or.inl ⟨i, hf, by omega, by omega⟩)⟩
    exact hget _ hk'

theorem stores_iff_planned {m : Machine δ} {a : Memory.Address} {i : Instruction}
    (hr : m.status = .running) (hf : m.fetch = .ok i) :
    m.Stores a ↔ ∃ v, (m.past i).processor.Planned m.emptyReturn i (.store a v) := by
  refine ⟨?_, ?_⟩
  · rintro ⟨_, x, s, u, v, hfs, hx, ha, hs⟩
    cases hf.symm.trans hfs
    exact ⟨v, .writeMemory hx hs (Memory.addressOf_eq_ok_iff.mpr ha)⟩
  · rintro ⟨v, hp⟩
    cases hp with
    | writeMemory hx hs hc => exact ⟨hr, _, _, _, v, hf, hx, Memory.addressOf_eq_ok_iff.mp hc, hs⟩

end

section
variable {δ : Type} [Device δ] {m : Machine δ} {a : Memory.Address}

theorem perform_poke (m : Machine δ) (w : Word) {action : Action} (h : ∀ v, action ≠ .store a v) :
    (m.poke a w).perform action = ((m.perform action).1, (m.perform action).2.poke a w) := by
  cases action with
  | store b v =>
    have hne : a ≠ b := fun e => h v (by rw [e])
    simp [perform, poke, Processor.commit, Processor.store, Memory.set_comm _ w v hne]
  | print code =>
    cases ho : Device.output m.device code with
    | mk result device =>
      cases result with
      | ok u => rw [perform_print_ok ho]; exact perform_print_ok ho
      | error kind => rw [perform_print_error ho]; exact perform_print_error ho
  | read r =>
    cases hi : Device.input m.device with
    | mk result device =>
      cases result with
      | ok code => rw [perform_read_ok hi]; exact perform_read_ok hi
      | error kind => rw [perform_read_error hi]; exact perform_read_error hi
  | _ => rfl

theorem perform_store_poke (m : Machine δ) (v w : Word) :
    (m.poke a w).perform (.store a v) = m.perform (.store a v) := by
  simp [perform, poke, Processor.commit, Processor.store, Memory.set_set_self]

theorem execute_poke {i : Instruction} {w : Word}
    (hplan : (m.poke a w).processor.plan m.emptyReturn i = m.processor.plan m.emptyReturn i) :
    ((¬ ∃ v, m.processor.Planned m.emptyReturn i (.store a v)) ∧
        (m.poke a w).execute i = ((m.execute i).1, (m.execute i).2.poke a w)) ∨
      ((∃ v, m.processor.Planned m.emptyReturn i (.store a v)) ∧ (m.poke a w).execute i = m.execute i) := by
  rcases execute_cases m i with ⟨fault, hp, he⟩ | ⟨action, hp, he⟩
  · refine Or.inl ⟨?_, ?_⟩
    · rintro ⟨v, hv⟩
      cases hp.symm.trans hv.plan_eq
    · have hp' : (m.poke a w).processor.plan m.emptyReturn i = .error fault := hplan.trans hp
      rw [he]
      unfold execute
      rw [show (m.poke a w).emptyReturn = m.emptyReturn from rfl, hp']
  · have he' : (m.poke a w).execute i = (m.poke a w).perform action :=
      execute_of_planned (.of_plan (hplan.trans hp.plan_eq))
    rw [he, he']
    by_cases ha : ∃ v, action = .store a v
    · obtain ⟨v, rfl⟩ := ha
      exact Or.inr ⟨⟨v, hp⟩, perform_store_poke m v w⟩
    · refine Or.inl ⟨?_, perform_poke m w fun v e => ha ⟨v, e⟩⟩
      rintro ⟨v, hv⟩
      exact ha ⟨v, Except.ok.inj (hp.plan_eq.symm.trans hv.plan_eq)⟩

/-- A step that does not read a word leaves it as different as it was, or stores over it. -/
theorem step_poke (h : ¬ m.Reads a) (w : Word) :
    (¬ m.Stores a ∧ (m.poke a w).step = (m.step.1, m.step.2.poke a w)) ∨
      (m.Stores a ∧ (m.poke a w).step = m.step) := by
  by_cases hr : m.status = .running
  · have hf := fetch_poke hr h w
    rcases step_cases hr with ⟨fault, hfe, hs⟩ | ⟨i, hfe, hs⟩
    · refine Or.inl ⟨?_, ?_⟩
      · rintro ⟨_, x, s, v, u, hfs, _⟩
        cases hfe.symm.trans hfs
      · rw [hs, step_of_fetch_error (m := m.poke a w) hr (hf.trans hfe)]
        rfl
    · have hs' : (m.poke a w).step = conclude m.processor.pc (((m.past i).poke a w).execute i) :=
        step_of_fetch_ok (m := m.poke a w) hr (hf.trans hfe)
      -- only a load looks at memory while it is planned, and this one loads another word
      have hplan :
          ((m.past i).poke a w).processor.plan m.emptyReturn i =
            (m.past i).processor.plan m.emptyReturn i := by
        apply Processor.plan_store
        rintro d x v r rfl hv ha hd
        exact h ⟨hr, Or.inr (Or.inr ⟨d, x, v, r, hfe, hv, ha, hd⟩)⟩
      rw [stores_iff_planned hr hfe, hs, hs']
      rcases execute_poke (m := m.past i) hplan with ⟨hno, he⟩ | ⟨hst, he⟩
      · refine Or.inl ⟨hno, ?_⟩
        rw [he]
        exact conclude_map (g := fun m => m.poke a w) (fun _ => rfl) (fun _ _ => rfl) (fun _ => rfl) _ _
      · exact Or.inr ⟨hst, by rw [he]⟩
  · refine Or.inl ⟨fun hs => hr hs.1, ?_⟩
    rw [step_of_stopped hr, step_of_stopped (m := m.poke a w) hr]
    rfl

/-- Up to a step that reads it, the word is the only difference, and none once it is stored over. -/
theorem after_poke {n : Nat} (h : ∀ k, k < n → ¬ (m.after k).Reads a) (w : Word) :
    ((∀ k, k < n → ¬ (m.after k).Stores a) ∧ (m.poke a w).after n = (m.after n).poke a w) ∨
      ((∃ k, k < n ∧ (m.after k).Stores a) ∧ (m.poke a w).after n = m.after n) := by
  induction n with
  | zero => exact Or.inl ⟨by simp, rfl⟩
  | succ n ih =>
    rcases ih fun k hk => h k (by omega) with ⟨hno, he⟩ | ⟨⟨k, hk, hst⟩, he⟩
    · rcases step_poke (h n (by omega)) w with ⟨hn, hs⟩ | ⟨hn, hs⟩
      · refine Or.inl ⟨?_, by rw [after, he, hs]; rfl⟩
        intro k hk
        by_cases hkn : k = n
        · exact hkn ▸ hn
        · exact hno k (by omega)
      · exact Or.inr ⟨⟨n, by omega, hn⟩, by rw [after, he, hs]; rfl⟩
    · exact Or.inr ⟨⟨k, by omega, hst⟩, by rw [after, he]; rfl⟩

theorem step_after_poke {n : Nat} (h : ∀ k, k ≤ n → ¬ (m.after k).Reads a) (w : Word) :
    ((m.poke a w).after n).step.1 = (m.after n).step.1 := by
  rcases after_poke (n := n) (fun k hk => h k (by omega)) w with ⟨_, he⟩ | ⟨_, he⟩
  · rw [he]
    rcases step_poke (h n (by omega)) w with ⟨_, hs⟩ | ⟨_, hs⟩ <;> rw [hs]
  · rw [he]

theorem after_traced (m : Machine δ) (k : Nat) :
    m.after k = ((m.traced []).after k).mapDevice Traced.device := by
  rw [← after_mapDevice Traced.respects]
  rfl

/-- As long as the steps of a run do not read a word, they answer the same whatever that word is,
call the device in the same way and leave the same machine. Only the word itself may differ, until
it is stored over. -/
theorem unread_harmless (m : Machine δ) (a : Memory.Address) (v : Word) (n : Nat)
    (h : ∀ k, k < n → ¬ (m.after k).Reads a) :
    (∀ k, k < n → ((m.poke a v).after k).step.1 = (m.after k).step.1) ∧
      ∀ k, k ≤ n → ∃ memory,
        (m.poke a v).after k = { m.after k with processor.memory := memory } ∧
        (∀ b, b ≠ a → memory.get b = (m.after k).processor.memory.get b) ∧
        ((∃ j, j < k ∧ (m.after j).Stores a) → memory = (m.after k).processor.memory) ∧
        (((m.poke a v).traced []).after k).device = ((m.traced []).after k).device := by
  refine ⟨?_, ?_⟩
  · intro k hk
    exact step_after_poke (fun j hj => h j (by omega)) v
  · intro k hk
    have hdevice : (((m.poke a v).traced []).after k).device = ((m.traced []).after k).device := by
      have ht : ∀ j, j < k → ¬ ((m.traced []).after j).Reads a := by
        intro j hj hread
        apply h j (by omega)
        rw [after_traced]
        exact hread
      have he := after_poke ht v
      rw [show (m.traced []).poke a v = (m.poke a v).traced [] from rfl] at he
      rcases he with ⟨_, he⟩ | ⟨_, he⟩
      · rw [he]
        rfl
      · rw [he]
    rcases after_poke (n := k) (fun j hj => h j (by omega)) v with ⟨hno, he⟩ | ⟨_, he⟩
    · refine ⟨(m.after k).processor.memory.set a v, he, ?_, ?_, hdevice⟩
      · intro b hb
        exact Memory.get_set_of_ne _ v hb.symm
      · rintro ⟨j, hj, hst⟩
        exact absurd hst (hno j hj)
    · exact ⟨(m.after k).processor.memory, he, fun _ _ => rfl, fun _ => rfl, hdevice⟩

end

/-- Stores 42 at 100 and loads the word behind it. -/
def overwriting : Machine Transcript where
  device := .ofBytes []
  processor := { memory := Memory.empty.overlay 0 [16, 100, 42, 15, 32768, 101] (by decide) }

theorem unread_harmless_overwriting :
    (∀ k, k < 2 → ¬ (overwriting.after k).Reads 100) ∧
      (∀ v : Word, (overwriting.poke 100 v).after 2 = overwriting.after 2) ∧
      (overwriting.after 2).processor.memory.get 100 = 42 := by
  have h0 : (overwriting.after 0).fetch = .ok (.writeMemory 100 42) := fetch_eq_ok_iff.mpr (by decide +kernel)
  have h1 : (overwriting.after 1).fetch = .ok (.readMemory 32768 101) :=
    fetch_eq_ok_iff.mpr (by decide +kernel)
  have hpc : (overwriting.after 1).processor.pc = 3 := by decide +kernel
  have hread : ∀ k, k < 2 → ¬ (overwriting.after k).Reads 100 := by
    intro k hk
    obtain rfl | rfl : k = 0 ∨ k = 1 := by omega
    · rintro ⟨_, h | ⟨i, hf, _, hi⟩ | ⟨d, x, v, r, hf, _⟩⟩
      · cases h
      · cases h0.symm.trans hf
        exact absurd hi (by decide)
      · cases h0.symm.trans hf
    · rintro ⟨_, h | ⟨i, hf, _, hi⟩ | ⟨d, x, v, r, hf, hv, hw, _⟩⟩
      · rw [hpc] at h
        exact absurd h (by decide)
      · cases h1.symm.trans hf
        rw [hpc] at hi
        exact absurd hi (by decide)
      · cases h1.symm.trans hf
        cases hv
        exact absurd hw (by decide)
  refine ⟨hread, ?_, by decide +kernel⟩
  intro v
  obtain ⟨memory, he, _, hst, _⟩ := (unread_harmless overwriting 100 v 2 hread).2 2 (by decide)
  rw [he, hst ⟨0, by decide, rfl, 100, 42, 100, 42, h0, rfl, rfl, rfl⟩]

end Machine

end WordMachine
