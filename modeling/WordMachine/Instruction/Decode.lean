import WordMachine.Fault
import WordMachine.Instruction.Basic

/-!
# Decoding

Decoding reads the opcode at an address and as many words after it as the opcode has operands,
and nothing else (`decodeFrom_eq_of_words`). An instruction is decoded exactly where its words stand
(`decodeFrom_eq_ok_iff`).
-/

namespace WordMachine.Instruction

/-- The instruction that starts at `address` among words that end before `bound`. If its operands
do not all fit, that bound is the first address that could not be read. -/
def decodeFrom (bound : Nat) (word? : Nat → Option Word) (address : Nat) :
    Except Fault Instruction :=
  match word? address with
  | none => .error (.fetchOutOfBounds address)
  | some word =>
    match Opcode.ofWord? word with
    | none => .error (.unknownOpcode word address)
    | some op =>
      match build? op fun i => word? (address + 1 + i) with
      | none => .error (.fetchOutOfBounds bound)
      | some instruction => .ok instruction

def decode (words : Array Word) (address : Nat) : Except Fault Instruction :=
  decodeFrom words.size (words[·]?) address

theorem decodeFrom_eq_ok_iff {bound : Nat} {word? : Nat → Option Word} {address : Nat}
    {i : Instruction} :
    decodeFrom bound word? address = .ok i ↔
      ∀ k, k < i.size → word? (address + k) = i.words[k]? := by
  have hcases : (∀ k, k < i.size → word? (address + k) = i.words[k]?) ↔
      word? address = some i.opcode.word ∧
        ∀ k, k < i.opcode.arity → word? (address + 1 + k) = i.operands[k]? := by
    refine ⟨?_, ?_⟩
    · intro h
      refine ⟨h 0 (Nat.lt_add_right _ Nat.one_pos), fun k hk => ?_⟩
      rw [Nat.add_assoc, Nat.add_comm 1 k]
      exact h (k + 1) (by rw [size]; omega)
    · rintro ⟨h0, h⟩ k hk
      cases k with
      | zero => exact h0
      | succ k =>
        rw [Nat.add_comm k 1, ← Nat.add_assoc]
        rw [h k (by rw [size] at hk; omega), Nat.add_comm 1 k]
        rfl
  rw [hcases, decodeFrom]
  cases word? address with
  | none => simp
  | some word =>
    simp only [Option.some.injEq]
    cases hop : Opcode.ofWord? word with
    | none =>
      simp only [reduceCtorEq, false_iff]
      rintro ⟨rfl, _⟩
      rw [Opcode.ofWord?_word] at hop
      cases hop
    | some op =>
      have hword := Opcode.ofWord?_eq_some_iff.mp hop
      have hinj : word = i.opcode.word ↔ i.opcode = op := by
        refine ⟨?_, ?_⟩
        · rintro rfl
          rw [Opcode.ofWord?_word] at hop
          exact Option.some.inj hop
        · rintro rfl
          exact hword
      have hbuild := @build?_eq_some_iff op (fun k => word? (address + 1 + k)) i
      rw [hinj]
      cases hb : build? op fun k => word? (address + 1 + k) with
      | none =>
        rw [hb] at hbuild
        simp only [hb, reduceCtorEq, false_iff] at hbuild ⊢
        intro h
        exact hbuild ⟨h.1, h.1 ▸ h.2⟩
      | some j =>
        rw [hb, Option.some.injEq] at hbuild
        simp only [hb, Except.ok.injEq]
        rw [hbuild]
        refine ⟨?_, ?_⟩
        · rintro ⟨rfl, h⟩
          exact ⟨rfl, h⟩
        · rintro ⟨rfl, h⟩
          exact ⟨rfl, h⟩

theorem decodeFrom_error_cases {bound : Nat} {word? : Nat → Option Word} {address : Nat} {fault : Fault}
    (h : decodeFrom bound word? address = .error fault) :
    (∃ w, word? address = some w ∧ Opcode.ofWord? w = none ∧ fault = .unknownOpcode w address) ∨
      word? address = none ∧ fault = .fetchOutOfBounds address ∨ fault = .fetchOutOfBounds bound := by
  unfold decodeFrom at h
  split at h
  · rename_i hword
    exact Or.inr (Or.inl ⟨hword, (Except.error.inj h).symm⟩)
  · rename_i w hword
    split at h
    · rename_i hop
      exact Or.inl ⟨w, hword, hop, (Except.error.inj h).symm⟩
    · split at h
      · exact Or.inr (Or.inr (Except.error.inj h).symm)
      · cases h

theorem decodeFrom_eq_unknownOpcode_iff {bound : Nat} {word? : Nat → Option Word} {address n : Nat}
    {w : Word} :
    decodeFrom bound word? address = .error (.unknownOpcode w n) ↔
      word? address = some w ∧ Opcode.ofWord? w = none ∧ n = address := by
  unfold decodeFrom
  cases hw : word? address with
  | none => simp
  | some word =>
    cases hop : Opcode.ofWord? word with
    | none => grind
    | some op => cases build? op (fun k => word? (address + 1 + k)) <;> grind

section
variable {bound : Nat} {word? : Nat → Option Word} (hend : ∀ k, word? k = none ↔ bound ≤ k) {address : Nat}
include hend

/-- The operands are read as long as the last of them lies before the bound. -/
theorem build?_behind_eq_none_iff (h : address < bound) (op : Opcode) :
    build? op (fun k => word? (address + 1 + k)) = none ↔ bound ≤ address + op.arity := by
  simp only [build?_eq_none_iff, hend]
  refine ⟨?_, ?_⟩
  · intro ⟨k, hk, hb⟩
    omega
  · intro hb
    exact ⟨op.arity - 1, by omega, by omega⟩

theorem decodeFrom_eq_fetchOutOfBounds_iff {n : Nat} :
    decodeFrom bound word? address = .error (.fetchOutOfBounds n) ↔
      bound ≤ address ∧ n = address ∨
        ∃ op : Opcode, word? address = some op.word ∧ bound ≤ address + op.arity ∧ n = bound := by
  unfold decodeFrom
  cases hw : word? address with
  | none => grind
  | some word =>
    have hlt : address < bound := Nat.lt_of_not_le fun hb => by simp [(hend address).mpr hb] at hw
    cases hop : Opcode.ofWord? word with
    | none => grind [Opcode.ofWord?_word]
    | some op =>
      have hword := Opcode.ofWord?_eq_some_iff.mp hop
      have hb := build?_behind_eq_none_iff hend hlt op
      cases build? op (fun k => word? (address + 1 + k)) <;> grind [Opcode.ofWord?_word]

end

/-- If the same addresses hold words, only those of the decoded instruction matter, and if none is
decoded, only the one at the address. -/
theorem decodeFrom_eq_of_words {bound : Nat} {v w : Nat → Option Word} {address : Nat}
    (hdef : ∀ k, (v k).isSome = (w k).isSome) (h0 : v address = w address)
    (h : ∀ i, decodeFrom bound v address = .ok i → ∀ k, k < i.size → v (address + k) = w (address + k)) :
    decodeFrom bound w address = decodeFrom bound v address := by
  cases hv : decodeFrom bound v address with
  | ok i =>
    apply decodeFrom_eq_ok_iff.mpr
    intro k hk
    rw [← h i hv k hk]
    exact decodeFrom_eq_ok_iff.mp hv k hk
  | error fault =>
    rw [← hv]
    cases ha : v address with
    | none => simp only [decodeFrom, ← h0, ha]
    | some word =>
      cases hop : Opcode.ofWord? word with
      | none => simp only [decodeFrom, ← h0, ha, hop]
      | some op =>
        cases hb : build? op fun k => v (address + 1 + k) with
        | some i => simp [decodeFrom, ha, hop, hb] at hv
        | none =>
          obtain ⟨k, hk, hn⟩ := build?_eq_none_iff.mp hb
          have hdefined := hdef (address + 1 + k)
          rw [hn] at hdefined
          have hw : build? op (fun k => w (address + 1 + k)) = none :=
            build?_eq_none_iff.mpr ⟨k, hk, by simpa using hdefined.symm⟩
          simp only [decodeFrom, ← h0, ha, hop, hb, hw]

end WordMachine.Instruction
