import Mathlib.Data.List.Induction
import WordMachine.Memory

/-!
# What memory remembers

A memory is loaded, written and read, and may refuse each of these. Whatever was asked of it, each cell
holds what was put there last, and what was refused has left no trace (`remembers_last`).
-/

namespace WordMachine.Memory

/-! ## What is refused -/

theorem bind_addressOf_eq_error_iff {α : Type} (f : Address → α) (address : Word) (fault : Fault) :
    (do return f (← addressOf address)) = Except.error fault ↔
      32768 ≤ address.toNat ∧ fault = .addressOutOfRange address := by
  by_cases h : address.toNat < 32768
  · rw [addressOf_of_lt h]
    exact iff_of_false (by simp) fun hr => Nat.not_le_of_lt h hr.1
  · have hge := Nat.le_of_not_lt h
    simp [addressOf_of_ge hge, hge, eq_comm]

theorem read_eq_error_iff (memory : Memory) (address : Word) (fault : Fault) :
    memory.read address = .error fault ↔ 32768 ≤ address.toNat ∧ fault = .addressOutOfRange address :=
  bind_addressOf_eq_error_iff memory.get address fault

theorem write_eq_error_iff (memory : Memory) (address value : Word) (fault : Fault) :
    memory.write address value = .error fault ↔ 32768 ≤ address.toNat ∧ fault = .addressOutOfRange address :=
  bind_addressOf_eq_error_iff (fun cell => memory.set cell value) address fault

theorem load_eq_error_iff (memory : Memory) (base : Nat) (image : Image) (e : LoadError) :
    memory.load base image = .error e ↔ 32768 < base + image.size ∧ e = ⟨base, image.size⟩ := by
  by_cases h : base + image.size ≤ 32768
  · rw [load_of_le memory h]
    exact iff_of_false (by simp) fun hr => Nat.not_lt_of_le h hr.1
  · have hgt := Nat.lt_of_not_le h
    simp [load_of_gt memory hgt, hgt, eq_comm]

/-! ## Accesses -/

inductive Access
  | load (base : Nat) (image : Image)
  | write (address value : Word)
  | read (address : Word)

/-- The memory after an access, whatever is answered. -/
def access (memory : Memory) : Access → Memory
  | .load base image => (memory.load base image).toOption.getD memory
  | .write address value => (memory.write address value).toOption.getD memory
  | .read _ => memory

def Refuses (memory : Memory) : Access → Prop
  | .load base image => ∃ e, memory.load base image = .error e
  | .write address value => ∃ fault, memory.write address value = .error fault
  | .read address => ∃ fault, memory.read address = .error fault

/-- The memory after these accesses, all zeros at first. -/
def after (accesses : List Access) : Memory := accesses.foldl access empty

/-- The value that an access puts into a cell, if it is carried out and reaches the cell. -/
def Access.put? (cell : Nat) : Access → Option Word
  | .load base image => if base + image.size ≤ 32768 ∧ base ≤ cell then image.words[cell - base]? else none
  | .write address value => if address.toNat = cell ∧ cell < 32768 then some value else none
  | .read _ => none

/-- What the last access that put something into the cell has put there, or the zero it held at first. -/
def latest (accesses : List Access) (cell : Nat) : Word := (accesses.reverse.findSome? (·.put? cell)).getD 0

theorem latest_concat (accesses : List Access) (a : Access) (cell : Nat) :
    latest (accesses ++ [a]) cell = (a.put? cell).getD (latest accesses cell) := by
  unfold latest
  rw [List.reverse_append, List.reverse_singleton, List.singleton_append, List.findSome?_cons]
  cases a.put? cell <;> rfl

theorem get_access (memory : Memory) (a : Access) (cell : Address) :
    (memory.access a).get cell = (a.put? cell.val).getD (memory.get cell) := by
  have hcell : cell.val < 32768 := cell.isLt
  cases a with
  | load base image =>
    by_cases hfit : base + image.size ≤ Word.modulus
    · obtain ⟨loaded, hload⟩ : ∃ loaded, memory.load base image = .ok loaded := ⟨_, load_of_le memory hfit⟩
      have hget := get_load hload cell
      by_cases hbase : base ≤ cell.val
      · simpa [access, hload, Access.put?, hfit, hbase, Except.toOption] using hget
      · simpa [access, hload, Access.put?, hbase, Except.toOption] using hget
    · simp [access, load_of_gt memory (Nat.lt_of_not_le hfit), Access.put?, hfit, Except.toOption]
  | write address value =>
    by_cases hin : address.toNat < Word.modulus
    · by_cases hsame : address.toNat = cell.val
      · simp [access, write_of_lt memory hin, get_set_self, Access.put?, hsame, hcell, Except.toOption]
      · have ha : (⟨address.toNat, hin⟩ : Address) ≠ cell := fun e => hsame (congrArg Fin.val e)
        simp [access, write_of_lt memory hin, get_set_of_ne memory value ha, Access.put?, hsame,
          Except.toOption]
    · have hne : address.toNat ≠ cell.val := by omega
      simp [access, write_of_ge memory (Nat.le_of_not_lt hin), Access.put?, hne, Except.toOption]
  | read address => rfl

theorem access_of_refuses {memory : Memory} {a : Access} (h : memory.Refuses a) :
    memory.access a = memory := by
  cases a with
  | load base image =>
    obtain ⟨e, he⟩ := h
    rw [access, he]
    rfl
  | write address value =>
    obtain ⟨fault, hf⟩ := h
    rw [access, hf]
    rfl
  | read address => rfl

theorem after_concat (accesses : List Access) (a : Access) :
    after (accesses ++ [a]) = (after accesses).access a := by
  simp [after]

theorem get_after (accesses : List Access) (cell : Address) :
    (after accesses).get cell = latest accesses cell.val := by
  induction accesses using List.reverseRecOn with
  | nil => exact get_empty cell
  | append_singleton accesses a ih => rw [after_concat, get_access, ih, latest_concat]

/-! ## The words in use -/

theorem exists_used (memory : Memory) : ∃ kept zeros, memory.words.toList = kept ++ zeros ∧
    kept.length = memory.used ∧ (∀ w ∈ zeros, w = 0) ∧ ∀ w ∈ kept.getLast?, w ≠ 0 := by
  let words := memory.words.toList.reverse
  refine ⟨(words.dropWhile (· == 0)).reverse, (words.takeWhile (· == 0)).reverse, ?_, ?_, ?_, ?_⟩
  · rw [← List.reverse_append, List.takeWhile_append_dropWhile, List.reverse_reverse]
  · rw [List.length_reverse]
    rfl
  · intro w hw
    simpa using List.all_eq_true.mp List.all_takeWhile w (List.mem_reverse.mp hw)
  · intro w hw
    rw [List.getLast?_reverse] at hw
    have hhead := List.head?_dropWhile_not (· == 0) words
    rw [Option.mem_def.mp hw] at hhead
    simpa using hhead

theorem used_cases (memory : Memory) : (∀ a, memory.get a = 0) ∧ memory.used = 0 ∨
    ∃ a : Address, memory.get a ≠ 0 ∧ (∀ b, a < b → memory.get b = 0) ∧ memory.used = a.val + 1 := by
  obtain ⟨kept, zeros, hwords, hused, hzeros, hlast⟩ := memory.exists_used
  have hlength := congrArg List.length hwords
  rw [Vector.length_toList, List.length_append] at hlength
  have hbehind : ∀ b : Address, kept.length ≤ b.val → memory.get b = 0 := by
    intro b hb
    have hcell := memory.getElem?_toList b
    rw [hwords, List.getElem?_append_right hb] at hcell
    exact hzeros _ (List.mem_of_getElem? hcell)
  rcases List.eq_nil_or_concat kept with rfl | ⟨init, w, rfl⟩
  · exact Or.inl ⟨fun a => hbehind a (Nat.zero_le _), hused.symm⟩
  · simp only [List.concat_eq_append, List.length_append, List.length_singleton]
      at hlength hused hbehind hwords hlast
    refine Or.inr ⟨⟨init.length, by omega⟩, ?_, fun b hb => hbehind b hb, hused.symm⟩
    have hcell := memory.getElem?_toList ⟨init.length, by omega⟩
    rw [hwords] at hcell
    have hw : w = memory.get ⟨init.length, by omega⟩ := by simpa using hcell
    rw [← hw]
    exact hlast w (by simp)

theorem summary_eq (memory : Memory) :
    memory.summary = "Memory \x7b size: 32768, used: " ++ Text.decimal memory.used ++ " \x7d" := rfl

/-- Memory has 32768 cells. A read gives what was last written or loaded there, or zero, and only an
address that no cell has is refused; a load is refused only if it would reach past the last cell. What is
refused changes nothing. The summary counts the cells up to the last that is not zero. -/
theorem remembers_last (accesses : List Access) :
    (after accesses).words.toList.length = 32768 ∧
    (∀ address : Word, address.toNat < 32768 →
      (after accesses).read address = .ok (latest accesses address.toNat)) ∧
    (∀ address fault, (after accesses).read address = .error fault ↔
      32768 ≤ address.toNat ∧ fault = .addressOutOfRange address) ∧
    (∀ address value fault, (after accesses).write address value = .error fault ↔
      32768 ≤ address.toNat ∧ fault = .addressOutOfRange address) ∧
    (∀ base image e, (after accesses).load base image = .error e ↔
      32768 < base + image.size ∧ e = ⟨base, image.size⟩) ∧
    (∀ a, (after accesses).Refuses a → after (accesses ++ [a]) = after accesses) ∧
    ∃ used, (after accesses).summary = "Memory \x7b size: 32768, used: " ++ Text.decimal used ++ " \x7d" ∧
      ((∀ a, (after accesses).get a = 0) ∧ used = 0 ∨
        ∃ a : Address, (after accesses).get a ≠ 0 ∧ (∀ b, a < b → (after accesses).get b = 0) ∧
          used = a.val + 1) := by
  refine ⟨Vector.length_toList, ?_, read_eq_error_iff _, write_eq_error_iff _, load_eq_error_iff _,
    ?_, _, summary_eq _, used_cases _⟩
  · intro address h
    rw [read_of_lt _ h, get_after]
  · intro a h
    rw [after_concat, access_of_refuses h]

/-- Loads and writes that overlap, and some that reach past the last cell. -/
def overlapping : List Access :=
  [.load 32765 ⟨[1, 2, 3]⟩, .write 32766 9, .load 32767 ⟨[5, 0]⟩, .write 32768 4,
    .load 18446744073709551615 ⟨[7]⟩, .write 32767 0, .load 32768 ⟨[]⟩]

theorem remembers_last_overlapping :
    (after overlapping).read 32765 = .ok 1 ∧ (after overlapping).read 32766 = .ok 9 ∧
      (after overlapping).read 32767 = .ok 0 ∧
        (after overlapping).read 32768 = .error (.addressOutOfRange 32768) ∧
      (after overlapping).load 18446744073709551615 ⟨[7]⟩ = .error ⟨18446744073709551615, 1⟩ := by
  obtain ⟨_, hread, hrefused, _, hload, _⟩ := remembers_last overlapping
  exact ⟨hread 32765 (by decide), hread 32766 (by decide), hread 32767 (by decide),
    (hrefused 32768 _).mpr ⟨by decide, rfl⟩, (hload _ ⟨[7]⟩ _).mpr ⟨by decide, rfl⟩⟩

end WordMachine.Memory
