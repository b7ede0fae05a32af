import WordMachine.Text.Number

/-!
# Patches

A patch is one write into a memory cell or a register, made from outside the program. It is
written as the address in decimal, `=`, and the value in hexadecimal.
-/

namespace WordMachine

/-- The address is an operand word: a memory address, or a reference to a register. -/
structure Patch where
  address : Word
  value : Word
  deriving DecidableEq, Repr

namespace Patch

def parse (s : String) : Except ParseError Patch := do
  let (address, value) ← Text.parsePair s
  return ⟨address, value⟩

def text (p : Patch) : String :=
  Text.decimal p.address.toNat ++ "=0x" ++ Text.hexadecimal 4 p.value.toNat

end Patch

end WordMachine
