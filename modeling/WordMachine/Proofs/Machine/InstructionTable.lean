import Mathlib.Logic.Function.Basic
import WordMachine.Device.Transcript
import WordMachine.Proofs.Machine.Execution

/-!
# The instruction table

What each instruction does, on exact numbers: a row gives the whole state after it, so what a row
does not mention is unchanged. A running machine steps without a fault exactly where a row applies
to the instruction that memory holds at the program counter (`step_eq_ok_iff_row`).
-/

namespace WordMachine

/-- A machine in numbers, without its journal. -/
structure View (δ : Type) where
  pc : Nat
  register : Register → Nat
  cell : Memory.Address → Nat
  stack : List Nat
  device : δ
  status : Status
  emptyReturn : EmptyReturn

namespace View

variable {δ : Type}

/-- A literal stands for itself, a register for its content. -/
inductive Denotes (v : View δ) (w : Word) : Nat → Prop
  | literal : w.toNat < 32768 → Denotes v w w.toNat
  | register {r : Register} : w.toNat = 32768 + r.val → Denotes v w (v.register r)

def Names (w : Word) (r : Register) : Prop := w.toNat = 32768 + r.val

/-- The state with a number put into a register and the program counter moved. -/
def put (v : View δ) (pc : Nat) (r : Register) (n : Nat) : View δ :=
  { v with pc, register := Function.update v.register r n }

/-- What an action does that calls no device. -/
def commit (v : View δ) : Action → View δ
  | .proceed | .print _ | .read _ => v
  | .halt => { v with status := .halted }
  | .setRegister r n => v.put v.pc r (n % 32768)
  | .store a w => { v with cell := Function.update v.cell a w.toNat }
  | .push w => { v with stack := w.toNat :: v.stack }
  | .pop r w => { v.put v.pc r (w.toNat % 32768) with stack := v.stack.tail }
  | .jump t => { v with pc := t.toNat }
  | .call t => { v with pc := t.toNat, stack := v.pc :: v.stack }
  | .ret t => { v with pc := t.toNat, stack := v.stack.tail }

inductive Row [Device δ] (v : View δ) : Instruction → View δ → Prop
  | halt : Row v .halt { v with pc := v.pc + 1, status := .halted }
  | set {d s r A} : v.Denotes s A → Names d r → Row v (.set d s) (v.put (v.pc + 3) r (A % 32768))
  | push {s A} : v.Denotes s A → Row v (.push s) { v with pc := v.pc + 2, stack := A :: v.stack }
  | pop {d r A rest} : Names d r → v.stack = A :: rest →
      Row v (.pop d) { v.put (v.pc + 2) r (A % 32768) with stack := rest }
  | equal {d x y r A B} : v.Denotes x A → v.Denotes y B → Names d r →
      Row v (.binary .equal d x y) (v.put (v.pc + 4) r (if A = B then 1 else 0))
  | greater {d x y r A B} : v.Denotes x A → v.Denotes y B → Names d r →
      Row v (.binary .greater d x y) (v.put (v.pc + 4) r (if A > B then 1 else 0))
  | jump {t A} : v.Denotes t A → Row v (.jump t) { v with pc := A }
  | jumpTrue {c t C A} : v.Denotes c C → C ≠ 0 → v.Denotes t A → Row v (.jumpIf true c t) { v with pc := A }
  | passTrue {c t} : v.Denotes c 0 → Row v (.jumpIf true c t) { v with pc := v.pc + 3 }
  | jumpFalse {c t A} : v.Denotes c 0 → v.Denotes t A → Row v (.jumpIf false c t) { v with pc := A }
  | passFalse {c t C} : v.Denotes c C → C ≠ 0 → Row v (.jumpIf false c t) { v with pc := v.pc + 3 }
  /-- Neither the sum nor the product of two words leaves 32 bits. -/
  | add {d x y r A B} : v.Denotes x A → v.Denotes y B → Names d r → A + B < 4294967296 →
      Row v (.binary .add d x y) (v.put (v.pc + 4) r ((A + B) % 32768))
  | multiply {d x y r A B} : v.Denotes x A → v.Denotes y B → Names d r → A * B < 4294967296 →
      Row v (.binary .multiply d x y) (v.put (v.pc + 4) r (A * B % 32768))
  | modulo {d x y r A B} : v.Denotes x A → v.Denotes y B → B ≠ 0 → Names d r →
      Row v (.binary .modulo d x y) (v.put (v.pc + 4) r (A % B % 32768))
  | and {d x y r A B} : v.Denotes x A → v.Denotes y B → Names d r →
      Row v (.binary .and d x y) (v.put (v.pc + 4) r ((A &&& B) % 32768))
  | or {d x y r A B} : v.Denotes x A → v.Denotes y B → Names d r →
      Row v (.binary .or d x y) (v.put (v.pc + 4) r ((A ||| B) % 32768))
  | not {d s r A} : v.Denotes s A → Names d r → Row v (.not d s) (v.put (v.pc + 3) r (32767 - A % 32768))
  | readMemory {d x r} {a : Memory.Address} : v.Denotes x a.val → Names d r →
      Row v (.readMemory d x) (v.put (v.pc + 3) r (v.cell a % 32768))
  | writeMemory {x s B} {a : Memory.Address} : v.Denotes x a.val → v.Denotes s B →
      Row v (.writeMemory x s) { v with pc := v.pc + 3, cell := Function.update v.cell a B }
  | call {t A} : v.Denotes t A → Row v (.call t) { v with pc := A, stack := (v.pc + 2) :: v.stack }
  | ret {A rest} : v.stack = A :: rest → Row v .ret { v with pc := A, stack := rest }
  | retHalt : v.stack = [] → v.emptyReturn = .halt →
      Row v .ret { v with pc := v.pc + 1, status := .halted }
  | output {s code device} : v.Denotes s code.toNat → Device.output v.device code = (.ok (), device) →
      Row v (.output s) { v with pc := v.pc + 2, device }
  | input {d r code device} : Names d r → Device.input v.device = (.ok code, device) →
      Row v (.input d) { v.put (v.pc + 2) r (code.toNat % 32768) with device }
  | noop : Row v .noop { v with pc := v.pc + 1 }

end View

namespace Machine

section
variable {δ : Type} (m : Machine δ)

def view : View δ where
  pc := m.processor.pc.toNat
  register r := (m.processor.register r).toNat
  cell a := (m.processor.memory.get a).toNat
  stack := m.processor.stack.map UInt16.toNat
  device := m.device
  status := m.status
  emptyReturn := m.emptyReturn

theorem view_past {i : Instruction} (h : m.fetch = .ok i) :
    (m.past i).view = { m.view with pc := m.view.pc + i.size } := by
  have hpc := toNat_pc_past h
  unfold view
  rw [hpc]
  rfl

theorem view_setRegister (r : Register) (n : Nat) :
    { m with processor := m.processor.setRegister r n }.view = m.view.put m.view.pc r (n % 32768) := by
  have hr : ∀ s, ((m.processor.setRegister r n).register s).toNat =
      Function.update (fun s => (m.processor.register s).toNat) r (n % 32768) s := by
    intro s
    by_cases hs : s = r
    · subst hs
      rw [Processor.register_setRegister_self, Function.update_self, Word.toNat_wrap]
    · rw [Processor.register_setRegister_of_ne _ _ (Ne.symm hs), Function.update_of_ne hs]
  unfold view
  simp only [hr]
  rfl

theorem view_read (device : δ) (r : Register) (n : Nat) :
    { m with device, processor := m.processor.setRegister r n }.view =
      { m.view.put m.view.pc r (n % 32768) with device } := by
  have h := view_setRegister m r n
  unfold view at h ⊢
  simp only [← h]

theorem view_store (a : Memory.Address) (w : Word) :
    { m with processor := m.processor.store a w }.view =
      { m.view with cell := Function.update m.view.cell a w.toNat } := by
  have hc : ∀ b, ((m.processor.memory.set a w).get b).toNat =
      Function.update (fun b => (m.processor.memory.get b).toNat) a w.toNat b := by
    intro b
    by_cases hb : b = a
    · subst hb
      rw [Memory.get_set_self, Function.update_self]
    · rw [Memory.get_set_of_ne _ _ (Ne.symm hb), Function.update_of_ne hb]
  unfold view Processor.store
  simp only [hc]
  rfl

theorem view_conclude_ok (pc : Word) : (conclude pc (.ok (), m)).2.view = m.view := by
  unfold conclude
  simp only
  split <;> rfl

theorem denotes_iff {m : Machine δ} {w : Word} {n : Nat} :
    m.view.Denotes w n ↔ ∃ a, m.processor.value w = .ok a ∧ a.toNat = n := by
  refine ⟨?_, ?_⟩
  · intro h
    cases h with
    | literal h => exact ⟨w, Processor.value_eq_ok_iff.mpr (Or.inl ⟨h, rfl⟩), rfl⟩
    | @register r h => exact ⟨_, Processor.value_eq_ok_iff.mpr (Or.inr ⟨r, h, rfl⟩), rfl⟩
  · intro ⟨a, ha, hn⟩
    subst hn
    rcases Processor.value_eq_ok_iff.mp ha with ⟨h, rfl⟩ | ⟨r, h, rfl⟩
    · exact .literal h
    · exact .register h

end

section
variable {δ : Type} [Device δ] {m n : Machine δ} {i : Instruction}

theorem view_perform (m : Machine δ) {action : Action} (h : action.callsDevice = false) :
    ∃ n, m.perform action = (.ok (), n) ∧ n.view = m.view.commit action := by
  cases action with
  | print | read => cases h
  | setRegister r k => exact ⟨_, rfl, view_setRegister m r k⟩
  | store a w => exact ⟨_, rfl, view_store m a w⟩
  | pop r w =>
    refine ⟨_, rfl, ?_⟩
    have hr := view_setRegister m r w.toNat
    have hs : m.processor.stack.tail.map UInt16.toNat = (m.processor.stack.map UInt16.toNat).tail :=
      List.map_tail
    unfold view at hr ⊢
    simp only [Processor.commit, hs, View.commit, ← hr]
    rfl
  | ret t =>
    refine ⟨_, rfl, ?_⟩
    unfold view
    simp only [Processor.commit, List.map_tail, View.commit]
    rfl
  | _ => exact ⟨_, rfl, rfl⟩

theorem toNat_ne_zero_iff {a : Word} : a.toNat ≠ 0 ↔ (a != 0) = true := by
  rw [bne_iff_ne, ne_eq, ne_eq, ← UInt16.toNat_inj]
  rfl

theorem mul_lt_of_words (a b : Word) : a.toNat * b.toNat < 4294967296 := by
  have ha := a.toNat_lt
  have hb := b.toNat_lt
  calc a.toNat * b.toNat ≤ 65535 * 65535 := Nat.mul_le_mul (by omega) (by omega)
    _ < 4294967296 := by decide

theorem eval_equal_mod (a b : Nat) : BinaryOp.equal.eval a b % 32768 = if a = b then 1 else 0 := by
  show (if a = b then 1 else 0) % 32768 = if a = b then 1 else 0
  split <;> rfl

theorem eval_greater_mod (a b : Nat) : BinaryOp.greater.eval a b % 32768 = if a > b then 1 else 0 := by
  show (if b < a then 1 else 0) % 32768 = if b < a then 1 else 0
  split <;> rfl

theorem complement_mod (a : Nat) :
    (Word.modulus - 1 - a % Word.modulus) % 32768 = 32767 - a % 32768 := by
  simp only [Word.modulus]; omega

theorem row_of_planned (m : Machine δ) {action : Action}
    (hp : (m.past i).processor.Planned m.emptyReturn i action) (hd : action.callsDevice = false) :
    View.Row m.view i (View.commit { m.view with pc := m.view.pc + i.size } action) := by
  have hden : ∀ {w a}, (m.past i).processor.value w = .ok a → m.view.Denotes w a.toNat :=
    fun h => denotes_iff.mpr ⟨_, h, rfl⟩
  have hname : ∀ {w r}, Processor.destination w = .ok r → View.Names w r := Processor.destination_eq_ok_iff.mp
  have hcell : ∀ {w a b}, (m.past i).processor.value w = .ok b → Memory.addressOf b = .ok a →
      m.view.Denotes w a.val :=
    fun h h' => denotes_iff.mpr ⟨_, h, Memory.addressOf_eq_ok_iff.mp h'⟩
  have hstack : ∀ {a rest}, (m.past i).processor.stack = a :: rest →
      m.view.stack = a.toNat :: rest.map UInt16.toNat :=
    fun h => congrArg (List.map UInt16.toNat) h
  cases hp with
  | output | input => cases hd
  | halt => exact .halt
  | noop => exact .noop
  | set hv hr => exact .set (hden hv) (hname hr)
  | push hv => exact .push (hden hv)
  | pop hr hs =>
    have h := View.Row.pop (v := m.view) (hname hr) (hstack hs)
    simp only [View.commit, View.put, hstack hs] at h ⊢
    exact h
  | @binary op d x y a b r ha hb hz hr =>
    cases op with
    | equal =>
      simp only [View.commit, eval_equal_mod]
      exact .equal (hden ha) (hden hb) (hname hr)
    | greater =>
      simp only [View.commit, eval_greater_mod]
      exact .greater (hden ha) (hden hb) (hname hr)
    | add =>
      have := a.toNat_lt
      have := b.toNat_lt
      exact .add (hden ha) (hden hb) (hname hr) (by omega)
    | multiply => exact .multiply (hden ha) (hden hb) (hname hr) (mul_lt_of_words a b)
    | modulo =>
      refine .modulo (hden ha) (hden hb) ?_ (hname hr)
      intro hzero
      exact hz ⟨rfl, UInt16.toNat_inj.mp hzero⟩
    | and => exact .and (hden ha) (hden hb) (hname hr)
    | or => exact .or (hden ha) (hden hb) (hname hr)
  | jump hv => exact .jump (hden hv)
  | @jumpTaken nonzero c t a v ha hc hv =>
    cases nonzero with
    | true => exact .jumpTrue (hden ha) (toNat_ne_zero_iff.mpr hc) (hden hv)
    | false =>
      have hz : a.toNat = 0 := by
        refine Classical.byContradiction fun h => ?_
        rw [toNat_ne_zero_iff.mp h] at hc
        cases hc
      exact .jumpFalse (hz ▸ hden ha) (hden hv)
  | @jumpPassed nonzero c t a ha hc =>
    cases nonzero with
    | true =>
      have hz : a.toNat = 0 := by
        refine Classical.byContradiction fun h => ?_
        exact hc (toNat_ne_zero_iff.mp h)
      exact .passTrue (hz ▸ hden ha)
    | false => exact .passFalse (hden ha) (toNat_ne_zero_iff.mpr (eq_true_of_ne_false hc))
  | not hv hr =>
    simp only [View.commit, complement_mod]
    exact .not (hden hv) (hname hr)
  | readMemory ha hc hr => exact .readMemory (hcell ha hc) (hname hr)
  | writeMemory ha hv hc => exact .writeMemory (hcell ha hc) (hden hv)
  | call hv => exact .call (hden hv)
  | ret hs =>
    have h := View.Row.ret (v := m.view) (hstack hs)
    simp only [View.commit, hstack hs] at h ⊢
    exact h
  | retHalt hs he => exact .retHalt (congrArg (List.map UInt16.toNat) hs) he

theorem row_of_execute (hf : m.fetch = .ok i) (he : (m.past i).execute i = (.ok (), n)) :
    View.Row m.view i n.view := by
  have hpast := view_past m hf
  rcases execute_cases (m.past i) i with ⟨fault, _, he'⟩ | ⟨action, hp, he'⟩
  · rw [he'] at he
    cases he
  · rw [he'] at he
    by_cases hd : action.callsDevice = false
    · obtain ⟨n', hn, hv⟩ := view_perform (m.past i) hd
      rw [hn] at he
      cases he
      rw [hv, hpast]
      exact row_of_planned m hp hd
    · cases hp with
      | @output s code hv =>
        cases ho : Device.output (m.past (.output s)).device code with
        | mk result device =>
          cases result with
          | error kind =>
            rw [perform_print_error ho] at he
            cases he
          | ok u =>
            rw [perform_print_ok ho] at he
            cases he
            show View.Row m.view _ { (m.past (.output s)).view with device }
            rw [hpast]
            exact .output (denotes_iff.mpr ⟨_, hv, rfl⟩) ho
      | @input d r hr =>
        cases hi : Device.input (m.past (.input d)).device with
        | mk result device =>
          cases result with
          | error kind =>
            rw [perform_read_error hi] at he
            cases he
          | ok code =>
            rw [perform_read_ok hi] at he
            cases he
            rw [view_read (m.past (.input d)), hpast]
            exact .input (Processor.destination_eq_ok_iff.mp hr) hi
      | _ => exact absurd rfl hd

theorem execute_of_row (hf : m.fetch = .ok i) {v : View δ} (h : View.Row m.view i v) :
    ∃ n, (m.past i).execute i = (.ok (), n) ∧ n.view = v := by
  have hpast := view_past m hf
  have hval : ∀ {w k}, m.view.Denotes w k → ∃ a, (m.past i).processor.value w = .ok a ∧ a.toNat = k :=
    denotes_iff.mp
  have hdest : ∀ {w r}, View.Names w r → Processor.destination w = .ok r :=
    Processor.destination_eq_ok_iff.mpr
  have hrun : ∀ {action}, (m.past i).processor.Planned m.emptyReturn i action → action.callsDevice = false →
      ∃ n, (m.past i).execute i = (.ok (), n) ∧
        n.view = View.commit { m.view with pc := m.view.pc + i.size } action := by
    intro action hp hd
    obtain ⟨n, hn, hv⟩ := view_perform (m.past i) hd
    rw [hpast] at hv
    refine ⟨n, ?_, hv⟩
    rw [execute_of_planned hp]
    exact hn
  have hbinary : ∀ {op d x y r A B}, i = .binary op d x y → m.view.Denotes x A → m.view.Denotes y B →
      ¬ (op = .modulo ∧ B = 0) → View.Names d r → ∃ n, (m.past i).execute i = (.ok (), n) ∧
        n.view = m.view.put (m.view.pc + i.size) r (op.eval A B % 32768) := by
    intro op d x y r A B hi hx hy hz hr
    subst hi
    obtain ⟨a, ha, rfl⟩ := hval hx
    obtain ⟨b, hb, rfl⟩ := hval hy
    refine hrun (.binary ha hb ?_ (hdest hr)) rfl
    intro ⟨ho, hb0⟩
    exact hz ⟨ho, congrArg UInt16.toNat hb0⟩
  cases h with
  | halt => exact hrun .halt rfl
  | noop => exact hrun .noop rfl
  | set hs hr =>
    obtain ⟨a, ha, rfl⟩ := hval hs
    exact hrun (.set ha (hdest hr)) rfl
  | push hs =>
    obtain ⟨a, ha, rfl⟩ := hval hs
    exact hrun (.push ha) rfl
  | pop hr hs =>
    obtain ⟨a, rest, hst, rfl, rfl⟩ := List.map_eq_cons_iff.mp hs
    have h := hrun (.pop (hdest hr) hst) rfl
    simp only [View.commit, View.put, hs, List.tail_cons] at h
    exact h
  | equal hx hy hr =>
    have h := hbinary rfl hx hy (by simp) hr
    rw [eval_equal_mod] at h
    exact h
  | greater hx hy hr =>
    have h := hbinary rfl hx hy (by simp) hr
    rw [eval_greater_mod] at h
    exact h
  | add hx hy hr => exact hbinary rfl hx hy (by simp) hr
  | multiply hx hy hr => exact hbinary rfl hx hy (by simp) hr
  | modulo hx hy hB hr => exact hbinary rfl hx hy (fun h => hB h.2) hr
  | and hx hy hr => exact hbinary rfl hx hy (by simp) hr
  | or hx hy hr => exact hbinary rfl hx hy (by simp) hr
  | jump ht =>
    obtain ⟨a, ha, rfl⟩ := hval ht
    exact hrun (.jump ha) rfl
  | jumpTrue hc hne ht =>
    obtain ⟨c, hv, rfl⟩ := hval hc
    obtain ⟨a, ha, rfl⟩ := hval ht
    exact hrun (.jumpTaken hv (toNat_ne_zero_iff.mp hne) ha) rfl
  | passTrue hc =>
    obtain ⟨c, hc, h0⟩ := hval hc
    exact hrun (.jumpPassed hc (fun h => toNat_ne_zero_iff.mpr h h0)) rfl
  | jumpFalse hc ht =>
    obtain ⟨c, hc, h0⟩ := hval hc
    obtain ⟨a, ha, rfl⟩ := hval ht
    refine hrun (.jumpTaken hc ?_ ha) rfl
    exact eq_false_of_ne_true (fun h => toNat_ne_zero_iff.mpr h h0)
  | passFalse hc hne =>
    obtain ⟨c, hv, rfl⟩ := hval hc
    exact hrun (.jumpPassed hv (ne_false_of_eq_true (toNat_ne_zero_iff.mp hne))) rfl
  | not hs hr =>
    obtain ⟨a, ha, rfl⟩ := hval hs
    have h := hrun (.not ha (hdest hr)) rfl
    simp only [View.commit, complement_mod] at h
    exact h
  | readMemory hx hr =>
    obtain ⟨a, ha, hcell⟩ := hval hx
    exact hrun (.readMemory ha (Memory.addressOf_eq_ok_iff.mpr hcell) (hdest hr)) rfl
  | writeMemory hx hs =>
    obtain ⟨a, ha, hcell⟩ := hval hx
    obtain ⟨b, hb, rfl⟩ := hval hs
    exact hrun (.writeMemory ha hb (Memory.addressOf_eq_ok_iff.mpr hcell)) rfl
  | call ht =>
    obtain ⟨a, ha, rfl⟩ := hval ht
    exact hrun (.call ha) rfl
  | ret hs =>
    obtain ⟨a, rest, hst, rfl, rfl⟩ := List.map_eq_cons_iff.mp hs
    have h := hrun (.ret hst) rfl
    simp only [View.commit, hs, List.tail_cons] at h
    exact h
  | retHalt hs he => exact hrun (.retHalt (List.map_eq_nil_iff.mp hs) he) rfl
  | @output s code device hs ho =>
    obtain ⟨a, ha, hc⟩ := hval hs
    obtain rfl := UInt16.toNat_inj.mp hc
    refine ⟨{ m.past (.output s) with device }, ?_, ?_⟩
    · rw [execute_of_planned (.output ha)]
      exact perform_print_ok ho
    · show { (m.past (.output s)).view with device } = _
      rw [hpast]
      rfl
  | @input d r code device hr hi =>
    refine ⟨{ m.past (.input d) with
      device, processor := (m.past (.input d)).processor.setRegister r code.toNat }, ?_, ?_⟩
    · rw [execute_of_planned (.input (hdest hr))]
      exact perform_read_ok hi
    · rw [view_read, hpast]
      rfl

/-- A running machine takes a step without a fault exactly if memory holds an instruction at the
program counter and a row for it applies, and then it is as the row says. -/
theorem step_eq_ok_iff_row (h : m.status = .running) (status : Status) (v : View δ) :
    (∃ m', m.step = (.ok status, m') ∧ m'.view = v) ↔
      ∃ i : Instruction,
        (∀ k, k < i.size → m.processor.memory.words[m.processor.pc.toNat + k]? = i.words[k]?) ∧
        m.processor.pc.toNat + i.size < 65536 ∧ View.Row m.view i v ∧ status = v.status := by
  refine ⟨?_, ?_⟩
  · intro ⟨m', hs, hv⟩
    rcases step_cases h with ⟨fault, _, hs'⟩ | ⟨i, hf, hs'⟩
    · rw [hs'] at hs
      cases hs
    · have hle := pc_add_size_le hf
      rw [hs'] at hs
      cases hx : (m.past i).execute i with
      | mk result n =>
        rw [hx] at hs
        cases result with
        | error fault => cases hs
        | ok u =>
          have hm : (conclude m.processor.pc (.ok (), n)).2 = m' := congrArg Prod.snd hs
          have hn : m'.view = n.view := by rw [← hm, view_conclude_ok]
          have hst : (conclude m.processor.pc (.ok (), n)).1 = .ok status := congrArg Prod.fst hs
          rw [(conclude_ok _ n).1] at hst
          have hvn : v = n.view := hv.symm.trans hn
          subst hvn
          exact ⟨i, fetch_eq_ok_iff.mp hf, by omega, row_of_execute hf hx, (Except.ok.inj hst).symm⟩
  · intro ⟨i, hw, _, hrow, hst⟩
    have hf := fetch_eq_ok_iff.mpr hw
    obtain ⟨n, hn, hv⟩ := execute_of_row hf hrow
    have hs := step_of_fetch_ok h hf
    rw [hn] at hs
    refine ⟨_, Prod.ext ?_ rfl, ?_⟩
    · rw [hs, (conclude_ok _ n).1, hst, ← hv]
      rfl
    · rw [hs, view_conclude_ok, hv]

end

/-- About to square register 0, which holds a word of 16 bits, in place. -/
def squaring : Machine Transcript where
  device := .ofBytes []
  processor := {
    memory := Memory.empty.overlay 0 [10, 32768, 32768, 32768] (by decide)
    registers := Vector.replicate 8 65535 }

theorem step_squaring :
    squaring.status = .running ∧
      ∃ m', squaring.step = (.ok .running, m') ∧ m'.view = squaring.view.put 4 0 1 := by
  have hden : squaring.view.Denotes 32768 65535 := .register (r := 0) rfl
  refine ⟨rfl, (step_eq_ok_iff_row rfl .running _).mpr
    ⟨.binary .multiply 32768 32768 32768, ?_, by decide, ?_, rfl⟩⟩
  · decide +kernel
  · exact .multiply hden hden rfl (by decide)

end Machine

end WordMachine
