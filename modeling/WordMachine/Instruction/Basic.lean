import WordMachine.Opcode
import WordMachine.Operand

/-!
# Instructions

An instruction is an opcode with its raw operand words. Operands are not classified here: whether
a word is read as a value or written as a destination depends on its place in the instruction.
An instruction can be rebuilt from its opcode and operands (`Instruction.build?_operands`).
-/

namespace WordMachine

/-- A destination is written through a register reference, a target is where a jump goes, and any
other operand is a value. -/
inductive Instruction
  | halt
  | set (destination source : Word)
  | push (source : Word)
  | pop (destination : Word)
  | binary (op : BinaryOp) (destination left right : Word)
  | jump (target : Word)
  | jumpIf (nonzero : Bool) (condition target : Word)
  | not (destination source : Word)
  | readMemory (destination address : Word)
  | writeMemory (address source : Word)
  | call (target : Word)
  | ret
  | output (source : Word)
  | input (destination : Word)
  | noop
  deriving DecidableEq, Repr

namespace Instruction

def opcode : Instruction → Opcode
  | .halt => .halt
  | .set .. => .set
  | .push .. => .push
  | .pop .. => .pop
  | .binary op .. => .binary op
  | .jump .. => .jump
  | .jumpIf nonzero .. => .jumpIf nonzero
  | .not .. => .not
  | .readMemory .. => .readMemory
  | .writeMemory .. => .writeMemory
  | .call .. => .call
  | .ret => .ret
  | .output .. => .output
  | .input .. => .input
  | .noop => .noop

def operands : Instruction → List Word
  | .halt | .ret | .noop => []
  | .push a | .pop a | .jump a | .call a | .output a | .input a => [a]
  | .set a b | .jumpIf _ a b | .not a b | .readMemory a b | .writeMemory a b => [a, b]
  | .binary _ a b c => [a, b, c]

def size (i : Instruction) : Nat := 1 + i.opcode.arity

/-- The words of the instruction: the opcode's number, then the operands. -/
def words (i : Instruction) : List Word := i.opcode.word :: i.operands

/-- The instruction with this opcode whose operands are `operand 0`, `operand 1` and so on, if
there are as many as the opcode needs. -/
def build? (op : Opcode) (operand : Nat → Option Word) : Option Instruction :=
  match op with
  | .halt => some .halt
  | .set => do return .set (← operand 0) (← operand 1)
  | .push => do return .push (← operand 0)
  | .pop => do return .pop (← operand 0)
  | .binary op => do return .binary op (← operand 0) (← operand 1) (← operand 2)
  | .jump => do return .jump (← operand 0)
  | .jumpIf nonzero => do return .jumpIf nonzero (← operand 0) (← operand 1)
  | .not => do return .not (← operand 0) (← operand 1)
  | .readMemory => do return .readMemory (← operand 0) (← operand 1)
  | .writeMemory => do return .writeMemory (← operand 0) (← operand 1)
  | .call => do return .call (← operand 0)
  | .ret => some .ret
  | .output => do return .output (← operand 0)
  | .input => do return .input (← operand 0)
  | .noop => some .noop

/-- The instruction as listings show it: the mnemonic, in four columns if operands follow. -/
def text (i : Instruction) : String :=
  match i.operands with
  | [] => i.opcode.mnemonic
  | operands =>
    Text.padRight ' ' 4 i.opcode.mnemonic ++ " " ++
      " ".intercalate (operands.map fun w => (Operand.ofWord w).text)

theorem length_operands (i : Instruction) : i.operands.length = i.opcode.arity := by
  cases i <;> rfl

theorem length_words (i : Instruction) : i.words.length = i.size := by
  rw [words, List.length_cons, length_operands, size, Nat.add_comm]

theorem build?_operands (i : Instruction) : build? i.opcode (i.operands[·]?) = some i := by
  cases i <;> rfl

theorem opcode_of_build? {op : Opcode} {operand : Nat → Option Word} {i : Instruction}
    (h : build? op operand = some i) : i.opcode = op := by
  cases op <;> simp [build?, Option.bind_eq_some_iff] at h <;> grind [opcode]

theorem build?_congr {op : Opcode} {v w : Nat → Option Word}
    (h : ∀ k, k < op.arity → v k = w k) : build? op v = build? op w := by
  cases op with
  | halt | ret | noop => rfl
  | push | pop | jump | call | output | input =>
    simp only [build?, h 0 Nat.one_pos]
  | set | not | readMemory | writeMemory | jumpIf =>
    simp only [build?, h 0 (Nat.lt_of_sub_eq_succ rfl), h 1 (Nat.lt_of_sub_eq_succ rfl)]
  | binary op =>
    simp only [build?, h 0 (Nat.lt_of_sub_eq_succ rfl), h 1 (Nat.lt_of_sub_eq_succ rfl),
      h 2 (Nat.lt_of_sub_eq_succ rfl)]

theorem exists_build? {op : Opcode} {operand : Nat → Option Word}
    (h : ∀ k, k < op.arity → ∃ w, operand k = some w) : ∃ i, build? op operand = some i := by
  cases op with
  | halt | ret | noop => exact ⟨_, rfl⟩
  | push | pop | jump | call | output | input =>
    obtain ⟨a, ha⟩ := h 0 (by decide)
    simp [build?, ha]
  | set | not | readMemory | writeMemory | jumpIf =>
    obtain ⟨a, ha⟩ := h 0 (Nat.lt_of_sub_eq_succ rfl)
    obtain ⟨b, hb⟩ := h 1 (Nat.lt_of_sub_eq_succ rfl)
    simp [build?, ha, hb]
  | binary op =>
    obtain ⟨a, ha⟩ := h 0 (Nat.lt_of_sub_eq_succ rfl)
    obtain ⟨b, hb⟩ := h 1 (Nat.lt_of_sub_eq_succ rfl)
    obtain ⟨c, hc⟩ := h 2 (Nat.lt_of_sub_eq_succ rfl)
    simp [build?, ha, hb, hc]

theorem build?_eq_some_iff {op : Opcode} {operand : Nat → Option Word} {i : Instruction} :
    build? op operand = some i ↔
      i.opcode = op ∧ ∀ k, k < op.arity → operand k = i.operands[k]? := by
  refine ⟨?_, ?_⟩
  · intro h
    refine ⟨opcode_of_build? h, ?_⟩
    cases op <;> simp [build?, Option.bind_eq_some_iff] at h <;> grind [Opcode.arity, operands]
  · rintro ⟨rfl, h⟩
    rw [build?_congr h, build?_operands]

theorem build?_eq_none_iff {op : Opcode} {operand : Nat → Option Word} :
    build? op operand = none ↔ ∃ k, k < op.arity ∧ operand k = none := by
  refine ⟨?_, ?_⟩
  · intro h
    refine Classical.byContradiction fun hk => ?_
    have hsome : ∀ k, k < op.arity → ∃ w, operand k = some w := by
      intro k hlt
      exact Option.ne_none_iff_exists'.mp fun hn => hk ⟨k, hlt, hn⟩
    obtain ⟨i, hi⟩ := exists_build? hsome
    rw [h] at hi
    cases hi
  · intro ⟨k, hk, hn⟩
    apply Option.eq_none_iff_forall_ne_some.mpr
    intro i hi
    obtain ⟨rfl, hw⟩ := build?_eq_some_iff.mp hi
    have hoperand := hw k hk
    rw [← i.length_operands] at hk
    simp [hn, hk] at hoperand

end Instruction

end WordMachine
