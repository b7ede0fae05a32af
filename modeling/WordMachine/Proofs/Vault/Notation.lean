import WordMachine.Proofs.Text.Pairs
import WordMachine.Vault.Operation

/-!
# How operations are written

An operation is read from a sign and one or more digits that write a number below 2^31, between blanks,
and from nothing else. What is printed for an operation can be read back unless its argument is negative
(`operation_grammar`).
-/

namespace WordMachine.Vault

open Text (Numeral Trimmed isBlank trimBlanks)

inductive OperationKind.Sign : OperationKind → Char → Prop
  | add : Sign .add '+'
  | subtract : Sign .subtract '-'
  | multiply : Sign .multiply '*'

namespace OperationKind

theorem sign_iff {kind : OperationKind} {c : Char} : kind.Sign c ↔ c = kind.sign := by
  refine ⟨fun h => ?_, fun h => ?_⟩
  · cases h <;> rfl
  · subst h
    cases kind <;> constructor

theorem Sign.not_blank {kind : OperationKind} {c : Char} (h : kind.Sign c) : isBlank c = false := by
  cases h <;> rfl

end OperationKind

namespace Operation

/-- A sign and a decimal numeral, the value of which is the greatest argument or less. -/
def Spelled (cs : List Char) (op : Operation) : Prop :=
  ∃ sign digits n, cs = sign :: digits ∧ op.kind.Sign sign ∧ Numeral 10 digits n ∧ n ≤ 2147483647 ∧
    op.argument = n

theorem ofChars?_eq_some_iff {cs : List Char} {op : Operation} : ofChars? cs = some op ↔ Spelled cs op := by
  obtain ⟨kind, argument⟩ := op
  cases cs with
  | nil => simp [ofChars?, Spelled]
  | cons sign digits =>
    simp only [ofChars?, Option.bind_eq_bind, Option.bind_eq_some_iff, OperationKind.ofSign?_eq_some_iff,
      Text.numeral?_eq_some_iff (show 10 ≤ 16 by decide), ← OperationKind.sign_iff]
    refine ⟨?_, ?_⟩
    · intro ⟨k, hk, n, hn, h⟩
      by_cases hle : (n : Int) ≤ greatest
      · rw [if_pos hle] at h
        cases h
        exact ⟨sign, digits, n, rfl, hk, hn, Int.ofNat_le.mp hle, rfl⟩
      · simp [hle] at h
    · intro ⟨_, _, n, hcs, hk, hn, hle, ha⟩
      cases hcs
      cases ha
      exact ⟨kind, hk, n, hn, if_pos (Int.ofNat_le.mpr hle)⟩

theorem parse_eq_ok_iff {s : String} {op : Operation} :
    parse s = .ok op ↔ Spelled (trimBlanks s.toList) op := by
  rw [← ofChars?_eq_some_iff]
  unfold parse
  cases ofChars? (trimBlanks s.toList) <;> simp

theorem parse_of_not_spelled {s : String} (h : ∀ op, ¬ Spelled (trimBlanks s.toList) op) :
    parse s = .error ⟨.operation, s⟩ := by
  have hnone : ofChars? (trimBlanks s.toList) = none := by
    apply Option.eq_none_iff_forall_ne_some.mpr
    intro op hop
    exact h op (ofChars?_eq_some_iff.mp hop)
  simp [parse, hnone]

/-! ## Printed operations -/

theorem exists_toList_text (op : Operation) :
    ∃ sign digits, op.kind.Sign sign ∧ Numeral 10 digits op.argument.natAbs ∧
    op.text.toList = if op.argument < 0 then sign :: '-' :: digits else sign :: digits := by
  obtain ⟨kind, argument⟩ := op
  refine ⟨kind.sign, (Text.decimal argument.natAbs).toList, OperationKind.sign_iff.mpr rfl,
    Text.numeral_decimal _, ?_⟩
  cases argument with
  | ofNat n => simp [text, Text.signedDecimal]
  | negSucc n => simp [text, Text.signedDecimal]

theorem trimBlanks_text (op : Operation) : trimBlanks op.text.toList = op.text.toList := by
  obtain ⟨sign, digits, hs, hd, htext⟩ := op.exists_toList_text
  have hdigits := hd.not_blank (by decide)
  apply Text.trimBlanks_eq_self
  intro c hc
  rw [htext] at hc
  by_cases hneg : op.argument < 0
  · simp only [hneg, if_true, List.mem_cons] at hc
    rcases hc with rfl | rfl | hc
    · exact hs.not_blank
    · rfl
    · exact (hdigits c hc).1
  · simp only [hneg, if_false, List.mem_cons] at hc
    rcases hc with rfl | hc
    · exact hs.not_blank
    · exact (hdigits c hc).1

theorem parse_text {op : Operation} (h : 0 ≤ op.argument) (hle : op.argument ≤ 2147483647) :
    parse op.text = .ok op := by
  obtain ⟨sign, digits, hs, hd, htext⟩ := op.exists_toList_text
  rw [if_neg (Int.not_lt_of_ge h)] at htext
  rw [parse_eq_ok_iff, trimBlanks_text, htext]
  exact ⟨sign, digits, _, rfl, hs, hd, by omega, by omega⟩

theorem not_numeral_minus {digits : List Char} {n : Nat} : ¬ Numeral 10 ('-' :: digits) n := by
  have hminus : Text.digit? 10 '-' = none := by decide
  rw [← Text.numeral?_eq_some_iff (by decide)]
  simp [Text.numeral?, Text.digitsValue?, hminus]

theorem parse_text_of_neg {op : Operation} (h : op.argument < 0) :
    parse op.text = .error ⟨.operation, op.text⟩ := by
  obtain ⟨sign, digits, _, _, htext⟩ := op.exists_toList_text
  rw [if_pos h] at htext
  apply parse_of_not_spelled
  intro other
  rw [trimBlanks_text, htext]
  intro ⟨_, _, n, hcs, _, hn, _⟩
  cases hcs
  exact not_numeral_minus hn

theorem parse_text_eq_ok_iff {op : Operation} (hle : op.argument ≤ 2147483647) :
    parse op.text = .ok op ↔ 0 ≤ op.argument := by
  by_cases h : op.argument < 0
  · rw [parse_text_of_neg h]
    exact iff_of_false (by simp) (Int.not_le_of_gt h)
  · have hnonneg := Int.not_lt.mp h
    exact iff_of_true (parse_text hnonneg hle) hnonneg

/-- An operation is read from a text that spells it between blanks, and any other text is refused, with its
first twenty characters and the blanks among them quoted. Printed operations are read back exactly if
their arguments are not negative, as those of operations that were read are not. -/
theorem operation_grammar :
    (∀ s : String, Trimmed s.toList (trimBlanks s.toList) ∧
      (∀ op, parse s = .ok op ↔ Spelled (trimBlanks s.toList) op) ∧
      ((∀ op, ¬ Spelled (trimBlanks s.toList) op) → ∃ e, parse s = .error e ∧
        e.message = "expected an operation like +4 at: " ++ String.ofList (s.toList.take 20))) ∧
    (∀ op : Operation, ∃ sign digits, op.kind.Sign sign ∧ Numeral 10 digits op.argument.natAbs ∧
      op.text.toList = if op.argument < 0 then sign :: '-' :: digits else sign :: digits) ∧
    (∀ op : Operation, op.argument ≤ 2147483647 →
      (parse op.text = .ok op ↔ 0 ≤ op.argument) ∧ (op.argument < 0 → ∃ e, parse op.text = .error e)) ∧
    ∀ s op, parse s = .ok op → parse op.text = .ok op := by
  refine ⟨?_, exists_toList_text, ?_, ?_⟩
  · intro s
    exact ⟨Text.trimmed_trimBlanks s.toList, fun op => parse_eq_ok_iff,
      fun h => ⟨_, parse_of_not_spelled h, rfl⟩⟩
  · intro op hle
    exact ⟨parse_text_eq_ok_iff hle, fun h => ⟨_, parse_text_of_neg h⟩⟩
  · intro s op h
    obtain ⟨_, _, n, _, _, _, hle, ha⟩ := parse_eq_ok_iff.mp h
    exact parse_text (by omega) (by omega)

/-- Leading zeros between blanks, a number that is too great, and a negative argument. -/
theorem operation_grammar_padded :
    Spelled (trimBlanks " +007\n".toList) ⟨.add, 7⟩ ∧ parse " +007\n" = .ok ⟨.add, 7⟩ ∧
      (∀ op, ¬ Spelled (trimBlanks "*2147483648 ".toList) op) ∧
      (∃ e, parse "*2147483648 " = .error e ∧ e.message = "expected an operation like +4 at: *2147483648 ") ∧
      ∃ e, parse (text ⟨.multiply, -4⟩) = .error e := by
  have hspelled : Spelled (trimBlanks " +007\n".toList) ⟨.add, 7⟩ := ofChars?_eq_some_iff.mp rfl
  have hnone : ofChars? (trimBlanks "*2147483648 ".toList) = none := rfl
  have hgreat : ∀ op, ¬ Spelled (trimBlanks "*2147483648 ".toList) op := by
    intro op h
    rw [ofChars?_eq_some_iff.mpr h] at hnone
    cases hnone
  obtain ⟨hparse, _, htext, _⟩ := operation_grammar
  obtain ⟨e, he, hmessage⟩ := (hparse "*2147483648 ").2.2 hgreat
  exact ⟨hspelled, ((hparse _).2.1 _).mpr hspelled, hgreat, ⟨e, he, hmessage.trans rfl⟩,
    (htext ⟨.multiply, -4⟩ (by decide)).2 (by decide)⟩

end Operation

end WordMachine.Vault
