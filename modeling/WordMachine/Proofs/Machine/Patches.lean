import Mathlib.Data.List.TakeWhile
import WordMachine.Proofs.Machine.Stepwise

/-!
# Lists of patches

A list of patches is applied one by one, as far as its addresses are those of cells and registers.
What a cell or a register holds then is decided by the last patch with its address, so patches with
different addresses can change places (`patch_in_order`).
-/

namespace WordMachine

namespace Patch

/-- The address is that of a memory cell or a register. -/
def fits (p : Patch) : Bool := p.address.toNat ≤ 32775

/-- The last of the patches with this address. -/
def last? (patches : List Patch) (address : Nat) : Option Patch :=
  patches.reverse.find? (·.address.toNat == address)

theorem last?_append (ps qs : List Patch) (address : Nat) :
    last? (ps ++ qs) address = (last? qs address).or (last? ps address) := by
  rw [last?, List.reverse_append, List.find?_append]
  rfl

theorem mem_of_last? {ps : List Patch} {address : Nat} {p : Patch} (h : last? ps address = some p) :
    p ∈ ps ∧ p.address.toNat = address :=
  ⟨List.mem_reverse.mp (List.mem_of_find?_eq_some h), by simpa using List.find?_some h⟩

theorem last?_eq_none {ps : List Patch} {address : Nat} (h : ∀ p ∈ ps, p.address.toNat ≠ address) :
    last? ps address = none := by
  rw [last?, List.find?_eq_none]
  intro p hp
  simpa using h p (List.mem_reverse.mp hp)

theorem last?_append_comm {ps qs : List Patch} (h : ∀ p ∈ ps, ∀ q ∈ qs, p.address ≠ q.address)
    (address : Nat) : last? (ps ++ qs) address = last? (qs ++ ps) address := by
  rw [last?_append, last?_append]
  cases hp : last? ps address with
  | none => cases last? qs address <;> rfl
  | some p =>
    cases hq : last? qs address with
    | none => rfl
    | some q =>
      obtain ⟨hp, hpa⟩ := mem_of_last? hp
      obtain ⟨hq, hqa⟩ := mem_of_last? hq
      exact absurd (UInt16.toNat_inj.mp (hpa.trans hqa.symm)) (h p hp q hq)

end Patch

theorem Memory.eq_of_get {memory other : Memory} (h : ∀ a, memory.get a = other.get a) : memory = other := by
  rw [Memory.mk.injEq]
  apply Vector.ext
  intro i hi
  exact h ⟨i, hi⟩

theorem Processor.registers_eq_of_register {p q : Processor} (h : ∀ r, p.register r = q.register r) :
    p.registers = q.registers := by
  apply Vector.ext
  intro i hi
  exact h ⟨i, hi⟩

theorem Processor.exists_patch (p : Processor) {patch : Patch} (h : patch.address.toNat < 32776) :
    ∃ q, p.patch patch = .ok q := by
  unfold Processor.patch
  rcases Operand.ofWord_cases patch.address with ⟨hl, ho⟩ | ⟨r, _, ho⟩ | ⟨hi, _⟩
  · rw [ho]
    simp only [Memory.addressOf_of_lt hl]
    exact ⟨_, rfl⟩
  · rw [ho]
    exact ⟨_, rfl⟩
  · omega

theorem Processor.patch_of_not_fits (p : Processor) {patch : Patch} (h : patch.fits = false) :
    p.patch patch = .error (.addressOutOfRange patch.address) := by
  have hi : ¬ patch.address.toNat ≤ 32775 := of_decide_eq_false h
  unfold Processor.patch
  rcases Operand.ofWord_cases patch.address with ⟨hl, _⟩ | ⟨r, hr, _⟩ | ⟨_, ho⟩
  · omega
  · omega
  · rw [ho]

namespace Machine

variable {δ : Type}

/-- `n` is `m` with the patches applied: the last patch of each cell and register has decided what it
holds, and nothing else has changed but the journal. -/
structure Written (m : Machine δ) (patches : List Patch) (n : Machine δ) : Prop where
  cell : ∀ a : Memory.Address, n.processor.memory.get a =
    match Patch.last? patches a.val with
    | some p => p.value
    | none => m.processor.memory.get a
  register : ∀ r : Register, n.processor.register r =
    match Patch.last? patches (32768 + r.val) with
    | some p => Word.wrap p.value.toNat
    | none => m.processor.register r
  pc : n.processor.pc = m.processor.pc
  stack : n.processor.stack = m.processor.stack
  status : n.status = m.status
  emptyReturn : n.emptyReturn = m.emptyReturn
  device : n.device = m.device
  journal : n.journal = m.journal.map (patches.foldl fun events p => events.push (.patched p))

namespace Written

variable {m n o : Machine δ} {ps qs : List Patch}

theorem nil (m : Machine δ) : m.Written [] m where
  cell _ := rfl
  register _ := rfl
  pc := rfl
  stack := rfl
  status := rfl
  emptyReturn := rfl
  device := rfl
  journal := Option.map_id'.symm

theorem single {p : Patch} {q : Processor} (h : m.processor.patch p = .ok q) :
    m.Written [p] ({ m with processor := q }.note (.patched p)) := by
  have hlast : ∀ address, Patch.last? [p] address = if p.address.toNat = address then some p else none := by
    intro address
    simp [Patch.last?]
  rcases Processor.patch_cases h with ⟨cell, hcell, rfl⟩ | ⟨r, hr, rfl⟩
  · refine ⟨?_, ?_, rfl, rfl, rfl, rfl, rfl, rfl⟩
    · intro a
      rw [hlast, hcell]
      by_cases ha : cell = a
      · rw [if_pos (congrArg Fin.val ha), ← ha]
        exact Memory.get_set_self m.processor.memory cell p.value
      · rw [if_neg fun e => ha (Fin.ext e)]
        exact Memory.get_set_of_ne m.processor.memory p.value ha
    · intro r
      have hlt : cell.val < 32768 := cell.isLt
      rw [hlast, if_neg (by omega)]
      rfl
  · refine ⟨?_, ?_, rfl, rfl, rfl, rfl, rfl, rfl⟩
    · intro a
      have hlt : a.val < 32768 := a.isLt
      rw [hlast, if_neg (by omega)]
      rfl
    · intro s
      rw [hlast, hr]
      by_cases hs : r = s
      · rw [if_pos (by rw [hs]), ← hs]
        exact m.processor.register_setRegister_self r p.value.toNat
      · rw [if_neg fun e => hs (Fin.ext (Nat.add_left_cancel e))]
        exact m.processor.register_setRegister_of_ne p.value.toNat hs

theorem append (hn : m.Written ps n) (ho : n.Written qs o) : m.Written (ps ++ qs) o where
  cell a := by
    rw [ho.cell, hn.cell, Patch.last?_append]
    cases Patch.last? qs a.val <;> rfl
  register r := by
    rw [ho.register, hn.register, Patch.last?_append]
    cases Patch.last? qs (32768 + r.val) <;> rfl
  pc := ho.pc.trans hn.pc
  stack := ho.stack.trans hn.stack
  status := ho.status.trans hn.status
  emptyReturn := ho.emptyReturn.trans hn.emptyReturn
  device := ho.device.trans hn.device
  journal := by
    rw [ho.journal, hn.journal, Option.map_map]
    congr 1
    funext events
    exact List.foldl_append.symm

theorem cell_of_unpatched (hn : m.Written ps n) {a : Memory.Address} (h : ∀ p ∈ ps, p.address.toNat ≠ a.val) :
    n.processor.memory.get a = m.processor.memory.get a := by
  rw [hn.cell, Patch.last?_eq_none h]

/-- Patches of cells change nothing but memory and journal. -/
theorem eq_of_cells (hn : m.Written ps n) (h : ∀ p ∈ ps, p.address.toNat < 32768) :
    n = { m with processor.memory := n.processor.memory, journal := n.journal } := by
  have hregisters : n.processor.registers = m.processor.registers := by
    apply Processor.registers_eq_of_register
    intro r
    have hr : ∀ p ∈ ps, p.address.toNat ≠ 32768 + r.val := by
      intro p hp
      have := h p hp
      omega
    rw [hn.register, Patch.last?_eq_none hr]
  have hprocessor : n.processor = { m.processor with memory := n.processor.memory } := by
    rw [Processor.mk.injEq]
    exact ⟨rfl, hn.pc, hregisters, hn.stack⟩
  rw [Machine.mk.injEq]
  exact ⟨hn.device, hprocessor, hn.status, hn.emptyReturn, rfl⟩

/-- The last patches decide everything but the journal. -/
theorem muted_eq (hn : m.Written ps n) (ho : m.Written qs o) (h : ∀ a, Patch.last? ps a = Patch.last? qs a) :
    n.muted = o.muted := by
  have hmemory : n.processor.memory = o.processor.memory := by
    apply Memory.eq_of_get
    intro a
    rw [hn.cell, ho.cell, h]
  have hregisters : n.processor.registers = o.processor.registers := by
    apply Processor.registers_eq_of_register
    intro r
    rw [hn.register, ho.register, h]
  have hprocessor : n.processor = o.processor := by
    rw [Processor.mk.injEq]
    exact ⟨hmemory, hn.pc.trans ho.pc.symm, hregisters, hn.stack.trans ho.stack.symm⟩
  unfold muted
  rw [Machine.mk.injEq]
  exact ⟨hn.device.trans ho.device.symm, hprocessor, hn.status.trans ho.status.symm,
    hn.emptyReturn.trans ho.emptyReturn.symm, rfl⟩

end Written

/-! ## What a list answers and leaves -/

theorem patch_append (m : Machine δ) (ps qs : List Patch) :
    m.patch (ps ++ qs) = match m.patch ps with
      | (.ok (), n) => n.patch qs
      | (.error fault, n) => (.error fault, n) := by
  induction ps generalizing m with
  | nil => rfl
  | cons p ps ih =>
    rw [List.cons_append, patch, patch]
    cases m.processor.patch p with
    | ok processor => exact ih _
    | error fault => rfl

theorem patch_cons_of_fits (m : Machine δ) {p : Patch} (h : p.fits) (rest : List Patch) :
    ∃ n, m.patch (p :: rest) = n.patch rest ∧ m.Written [p] n := by
  obtain ⟨q, hq⟩ := m.processor.exists_patch (Nat.lt_succ_of_le (of_decide_eq_true h))
  refine ⟨_, ?_, .single hq⟩
  rw [patch, hq]

theorem patch_cons_of_not_fits (m : Machine δ) {p : Patch} (h : p.fits = false) (rest : List Patch) :
    m.patch (p :: rest) = (.error (.addressOutOfRange p.address), m) := by
  rw [patch, m.processor.patch_of_not_fits h]

/-- Patches are applied as far as they fit. -/
theorem written_patch (m : Machine δ) (patches : List Patch) :
    m.Written (patches.takeWhile Patch.fits) (m.patch patches).2 := by
  induction patches generalizing m with
  | nil => exact .nil m
  | cons p rest ih =>
    cases hp : p.fits with
    | true =>
      obtain ⟨n, hn, hw⟩ := m.patch_cons_of_fits hp rest
      rw [List.takeWhile_cons_of_pos hp, hn]
      exact hw.append (ih n)
    | false =>
      rw [List.takeWhile_cons_of_neg (by simp [hp]), m.patch_cons_of_not_fits hp]
      exact .nil m

/-- The first patch that does not fit is refused. -/
theorem answer_patch (m : Machine δ) (patches : List Patch) :
    (m.patch patches).1 = match patches.find? (!·.fits) with
      | some p => .error (.addressOutOfRange p.address)
      | none => .ok () := by
  induction patches generalizing m with
  | nil => rfl
  | cons p rest ih =>
    cases hp : p.fits with
    | true =>
      obtain ⟨n, hn, _⟩ := m.patch_cons_of_fits hp rest
      rw [List.find?_cons_of_neg (by simp [hp]), hn]
      exact ih n
    | false => rw [List.find?_cons_of_pos (by simp [hp]), m.patch_cons_of_not_fits hp]

theorem patch_of_fits (m : Machine δ) {patches : List Patch} (h : ∀ p ∈ patches, p.fits) :
    ∃ n, m.patch patches = (.ok (), n) ∧ m.Written patches n := by
  have hw := m.written_patch patches
  have ha := m.answer_patch patches
  rw [List.takeWhile_eq_self_iff.mpr h] at hw
  rw [List.find?_eq_none.mpr (by simpa using h)] at ha
  exact ⟨_, Prod.ext ha rfl, hw⟩

/-! ## Order -/

theorem muted_patch_comm (m : Machine δ) {ps qs : List Patch}
    (h : ∀ p ∈ ps, ∀ q ∈ qs, p.address ≠ q.address) :
    ((m.patch ps).2.patch qs).2.muted = ((m.patch qs).2.patch ps).2.muted := by
  have hpq := (m.written_patch ps).append ((m.patch ps).2.written_patch qs)
  have hqp := (m.written_patch qs).append ((m.patch qs).2.written_patch ps)
  apply hpq.muted_eq hqp
  apply Patch.last?_append_comm
  intro p hp q hq
  exact h p ((List.takeWhile_sublist _).subset hp) q ((List.takeWhile_sublist _).subset hq)

theorem answer_patch_patch (m n : Machine δ) (patches : List Patch) :
    (m.patch patches).1 = (n.patch patches).1 := by
  rw [answer_patch, answer_patch]

/-- Two patches with different addresses can change places in a list. -/
theorem patch_swap (m : Machine δ) (front back : List Patch) {p q : Patch} (hne : p.address ≠ q.address)
    (hp : p.fits) (hq : q.fits) :
    (m.patch (front ++ p :: q :: back)).1 = (m.patch (front ++ q :: p :: back)).1 ∧
      (m.patch (front ++ p :: q :: back)).2.muted = (m.patch (front ++ q :: p :: back)).2.muted := by
  have hfits : ∀ {a b : Patch}, a.fits → b.fits → ∀ x ∈ [a, b], x.fits := by
    intro a b ha hb
    simp [ha, hb]
  have hpq : ∀ a ∈ [p], ∀ b ∈ [q], a.address ≠ b.address := by simpa using hne
  rw [patch_append, patch_append]
  cases m.patch front with
  | mk result n =>
    cases result with
    | error fault => exact ⟨rfl, rfl⟩
    | ok _ =>
      obtain ⟨x, hx, hwx⟩ := n.patch_of_fits (hfits hp hq)
      obtain ⟨y, hy, hwy⟩ := n.patch_of_fits (hfits hq hp)
      have hxy : x.muted = y.muted := hwx.muted_eq hwy (Patch.last?_append_comm hpq)
      have hmuted : (x.patch back).2.muted = (y.patch back).2.muted := by
        have hx := congrArg Prod.snd (x.patch_muted back)
        have hy := congrArg Prod.snd (y.patch_muted back)
        rw [hxy] at hx
        exact hx.symm.trans hy
      have hfront : ∀ {a b : Patch} {z : Machine δ}, n.patch [a, b] = (.ok (), z) →
          n.patch (a :: b :: back) = z.patch back := by
        intro a b z hz
        rw [show a :: b :: back = [a, b] ++ back from rfl, patch_append, hz]
      simp only [hfront hx, hfront hy]
      exact ⟨answer_patch_patch x y back, hmuted⟩

/-- Patches are written one by one up to the first whose address is neither a cell's nor a register's,
which is the fault. A list is its parts one after the other. Patches with different addresses commute,
as calls whatever their addresses are and as neighbours in a list where neither is refused; only the
journal tells their order. -/
theorem patch_in_order (m : Machine δ) :
    (∀ patches, (∀ p ∈ patches, p.address.toNat ≤ 32775) →
      ∃ n, m.patch patches = (.ok (), n) ∧ m.Written patches n) ∧
    (∀ front bad back, (∀ p ∈ front, p.address.toNat ≤ 32775) → 32775 < bad.address.toNat →
      ∃ n, m.patch (front ++ bad :: back) = (.error (.addressOutOfRange bad.address), n) ∧
        m.patch front = (.ok (), n) ∧ m.Written front n) ∧
    (∀ ps qs, m.patch (ps ++ qs) = match m.patch ps with
      | (.ok (), n) => n.patch qs
      | (.error fault, n) => (.error fault, n)) ∧
    (∀ ps qs : List Patch, (∀ p ∈ ps, ∀ q ∈ qs, p.address ≠ q.address) →
      ((m.patch ps).2.patch qs).2.muted = ((m.patch qs).2.patch ps).2.muted ∧
        ((m.patch ps).2.patch qs).1 = (m.patch qs).1) ∧
    ∀ front back (p q : Patch), p.address ≠ q.address → p.address.toNat ≤ 32775 → q.address.toNat ≤ 32775 →
      (m.patch (front ++ p :: q :: back)).1 = (m.patch (front ++ q :: p :: back)).1 ∧
        (m.patch (front ++ p :: q :: back)).2.muted = (m.patch (front ++ q :: p :: back)).2.muted := by
  have hfits : ∀ {patches : List Patch}, (∀ p ∈ patches, p.address.toNat ≤ 32775) → ∀ p ∈ patches, p.fits :=
    fun h p hp => decide_eq_true (h p hp)
  refine ⟨fun _ h => m.patch_of_fits (hfits h), ?_, m.patch_append, ?_, ?_⟩
  · intro front bad back hfront hbad
    obtain ⟨n, hn, hw⟩ := m.patch_of_fits (hfits hfront)
    refine ⟨n, ?_, hn, hw⟩
    rw [patch_append, hn]
    exact n.patch_cons_of_not_fits (decide_eq_false (Nat.not_le_of_lt hbad)) back
  · intro ps qs h
    exact ⟨m.muted_patch_comm h, answer_patch_patch _ _ qs⟩
  · intro front back p q hne hp hq
    exact m.patch_swap front back hne (decide_eq_true hp) (decide_eq_true hq)

/-- A cell written twice, a register, and an address behind the registers. -/
theorem patch_in_order_refused : ∃ n : Machine Unit,
    (Machine.start .empty ()).patch [⟨1, 66⟩, ⟨32775, 0x8123⟩, ⟨1, 7⟩, ⟨32776, 0⟩, ⟨2, 5⟩] =
        (.error (.addressOutOfRange 32776), n) ∧
      n.processor.memory.get ⟨1, by decide⟩ = 7 ∧ n.processor.register ⟨7, by decide⟩ = 0x123 ∧
      n.processor.memory.get ⟨2, by decide⟩ = 0 := by
  obtain ⟨n, hn, _, hw⟩ :=
    (patch_in_order (Machine.start .empty ())).2.1 [⟨1, 66⟩, ⟨32775, 0x8123⟩, ⟨1, 7⟩] ⟨32776, 0⟩
    [⟨2, 5⟩] (by decide) (by decide)
  refine ⟨n, hn, hw.cell _, hw.register _, (hw.cell _).trans ?_⟩
  exact Memory.get_empty _

end Machine

end WordMachine
