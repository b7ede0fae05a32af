import WordMachine.Memory
import WordMachine.Operand

/-!
# Processors

The part of a machine that instructions compute with: memory, the program counter, the registers
and the stack.
-/

namespace WordMachine

structure Processor where
  memory : Memory := .empty
  /-- The address of the next instruction. -/
  pc : Word := 0
  registers : Vector Word 8 := Vector.replicate 8 0
  /-- The topmost entry comes first. -/
  stack : List Word := []

namespace Processor

def register (p : Processor) (r : Register) : Word := p.registers[r]

def setRegister (p : Processor) (r : Register) (n : Nat) : Processor :=
  { p with registers := p.registers.set r (Word.wrap n) }

def store (p : Processor) (address : Memory.Address) (value : Word) : Processor :=
  { p with memory := p.memory.set address value }

/-- The value of an operand: a literal stands for itself, a register for its content. -/
def value (p : Processor) (w : Word) : Except Fault Word :=
  match Operand.ofWord w with
  | .literal value => .ok value
  | .register r => .ok (p.register r)
  | .invalid _ => .error (.addressOutOfRange w)

def destination (w : Word) : Except Fault Register :=
  match Operand.ofWord w with
  | .register r => .ok r
  | .literal _ => .error (.invalidWriteTarget w)
  | .invalid _ => .error (.addressOutOfRange w)

theorem register_setRegister_self (p : Processor) (r : Register) (n : Nat) :
    (p.setRegister r n).register r = Word.wrap n := by
  simp [register, setRegister]

theorem register_setRegister_of_ne (p : Processor) {r s : Register} (n : Nat) (h : r ≠ s) :
    (p.setRegister r n).register s = p.register s := by
  have : r.val ≠ s.val := fun e => h (Fin.ext e)
  simp [register, setRegister, this]

end Processor

end WordMachine
