import WordMachine.Word

/-!
# Opcodes

The twenty-two opcodes with their numbers, mnemonics and operand counts. The seven operations on
two values are one opcode with a parameter, and so are the two conditional jumps. Numbers and
opcodes determine each other (`Opcode.ofWord?_eq_some_iff`).
-/

namespace WordMachine

inductive BinaryOp
  | equal | greater | add | multiply | modulo | and | or
  deriving DecidableEq, Repr

/-- The result on exact numbers. Comparisons give 1 or 0. -/
def BinaryOp.eval : BinaryOp → Nat → Nat → Nat
  | .equal, a, b => if a = b then 1 else 0
  | .greater, a, b => if b < a then 1 else 0
  | .add, a, b => a + b
  | .multiply, a, b => a * b
  | .modulo, a, b => a % b
  | .and, a, b => a &&& b
  | .or, a, b => a ||| b

inductive Opcode
  | halt
  | set
  | push
  | pop
  | binary (op : BinaryOp)
  | jump
  /-- Jumps if the condition is nonzero (`true`) or if it is zero (`false`). -/
  | jumpIf (nonzero : Bool)
  | not
  | readMemory
  | writeMemory
  | call
  | ret
  | output
  | input
  | noop
  deriving DecidableEq, Repr

namespace Opcode

/-- All opcodes; the place of an opcode is its number. -/
def table : Array Opcode :=
  #[.halt, .set, .push, .pop, .binary .equal, .binary .greater, .jump, .jumpIf true,
    .jumpIf false, .binary .add, .binary .multiply, .binary .modulo, .binary .and, .binary .or,
    .not, .readMemory, .writeMemory, .call, .ret, .output, .input, .noop]

def ofWord? (word : Word) : Option Opcode := table[word.toNat]?

def word : Opcode → Word
  | .halt => 0
  | .set => 1
  | .push => 2
  | .pop => 3
  | .binary .equal => 4
  | .binary .greater => 5
  | .jump => 6
  | .jumpIf true => 7
  | .jumpIf false => 8
  | .binary .add => 9
  | .binary .multiply => 10
  | .binary .modulo => 11
  | .binary .and => 12
  | .binary .or => 13
  | .not => 14
  | .readMemory => 15
  | .writeMemory => 16
  | .call => 17
  | .ret => 18
  | .output => 19
  | .input => 20
  | .noop => 21

def arity : Opcode → Nat
  | .halt | .ret | .noop => 0
  | .push | .pop | .jump | .call | .output | .input => 1
  | .set | .jumpIf _ | .not | .readMemory | .writeMemory => 2
  | .binary _ => 3

def mnemonic : Opcode → String
  | .halt => "halt"
  | .set => "set"
  | .push => "push"
  | .pop => "pop"
  | .binary .equal => "eq"
  | .binary .greater => "gt"
  | .jump => "jmp"
  | .jumpIf true => "jt"
  | .jumpIf false => "jf"
  | .binary .add => "add"
  | .binary .multiply => "mult"
  | .binary .modulo => "mod"
  | .binary .and => "and"
  | .binary .or => "or"
  | .not => "not"
  | .readMemory => "rmem"
  | .writeMemory => "wmem"
  | .call => "call"
  | .ret => "ret"
  | .output => "out"
  | .input => "in"
  | .noop => "noop"

theorem arity_le (op : Opcode) : op.arity ≤ 3 := by
  cases op <;> simp [arity]

theorem ofWord?_word (op : Opcode) : ofWord? op.word = some op := by
  cases op with
  | binary b => cases b <;> rfl
  | jumpIf nonzero => cases nonzero <;> rfl
  | _ => rfl

theorem word_table : ∀ i : Fin table.size, table[i].word.toNat = i.val := by decide

theorem ofWord?_eq_some_iff {w : Word} {op : Opcode} : ofWord? w = some op ↔ w = op.word := by
  refine ⟨?_, ?_⟩
  · intro h
    obtain ⟨hlt, hop⟩ := Array.getElem?_eq_some_iff.mp h
    apply UInt16.toNat_inj.mp
    rw [← hop]
    exact (word_table ⟨w.toNat, hlt⟩).symm
  · rintro rfl
    exact ofWord?_word op

theorem ofWord?_eq_none_iff {w : Word} : ofWord? w = none ↔ 22 ≤ w.toNat := by
  rw [ofWord?, Array.getElem?_eq_none_iff]
  rfl

end Opcode

end WordMachine
