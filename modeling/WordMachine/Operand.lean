import WordMachine.Word
import WordMachine.Text.Numeral

/-!
# Registers and operands

An operand word below 32768 stands for itself, the eight words from 32768 on name the registers,
and no other word is an operand. Every word is of exactly one of the three sorts, and the sort
gives the word back (`Operand.word_ofWord`).
-/

namespace WordMachine

abbrev Register := Fin 8

namespace Register

/-- The operand word that names register 0; the others follow it. -/
abbrev base : Nat := Word.modulus

def ofIndex? (index : Nat) : Option Register :=
  if h : index < 8 then some ⟨index, h⟩ else none

def word (r : Register) : Word := UInt16.ofNat (base + r.val)

def ofWord? (w : Word) : Option Register :=
  if base ≤ w.toNat then ofIndex? (w.toNat - base) else none

def text (r : Register) : String := "r" ++ Text.decimal r.val

theorem toNat_word (r : Register) : r.word.toNat = base + r.val := by
  have h : base + r.val < 2 ^ 16 := by have := r.isLt; simp only [base, Word.modulus]; omega
  rw [word, UInt16.toNat_ofNat', Nat.mod_eq_of_lt h]

theorem ofWord?_word (r : Register) : ofWord? r.word = some r := by
  rw [ofWord?, toNat_word, if_pos (Nat.le_add_right _ _), Nat.add_sub_cancel_left, ofIndex?,
    dif_pos r.isLt]

theorem eq_word_of_ofWord? {w : Word} {r : Register} (h : ofWord? w = some r) : w = r.word := by
  simp only [ofWord?, ofIndex?] at h
  split at h
  · next hb =>
    split at h
    · next =>
      have e : w.toNat = r.word.toNat := by
        rw [toNat_word, ← Option.some.inj h]
        exact (Nat.add_sub_cancel' hb).symm
      exact UInt16.toNat_inj.mp e
    · cases h
  · cases h

end Register

inductive Operand
  /-- A number below 32768, standing for itself. -/
  | literal (value : Word)
  /-- A reference to a register. -/
  | register (r : Register)
  /-- A word above 32775, which no instruction can use. -/
  | invalid (word : Word)
  deriving DecidableEq, Repr

namespace Operand

def ofWord (w : Word) : Operand :=
  if w.toNat < Register.base then .literal w
  else match Register.ofWord? w with
    | some r => .register r
    | none => .invalid w

def word : Operand → Word
  | .literal value => value
  | .register r => r.word
  | .invalid w => w

def text : Operand → String
  | .literal value => Text.decimal value.toNat
  | .register r => r.text
  | .invalid _ => "<BAD>"

theorem word_ofWord (w : Word) : (ofWord w).word = w := by
  unfold ofWord
  split
  · rfl
  · split
    · next r h => exact (Register.eq_word_of_ofWord? h).symm
    · rfl

end Operand

end WordMachine
