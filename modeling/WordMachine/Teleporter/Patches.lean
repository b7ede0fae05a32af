import WordMachine.Operand
import WordMachine.Patch

/-!
# Patches for the teleporter

These patches make the program start with a chosen value in register 7 and skip the routine that
confirms it.
-/

namespace WordMachine.Teleporter

/-- At 521 a `set` of register 7 to the value; at 5485 a jump whose target is 21, and behind it
four instructions that do nothing. -/
def patches (r7 : Word) : List Patch :=
  [⟨521, 1⟩, ⟨522, Register.word 7⟩, ⟨523, r7⟩, ⟨5485, 6⟩,
    ⟨5486, 21⟩, ⟨5487, 21⟩, ⟨5488, 21⟩, ⟨5489, 21⟩, ⟨5490, 21⟩]

theorem cells_patches (r7 : Word) : ∀ p ∈ patches r7,
    521 ≤ p.address.toNat ∧ p.address.toNat ≤ 523 ∨ 5485 ≤ p.address.toNat ∧ p.address.toNat ≤ 5490 := by
  simp [patches]

end WordMachine.Teleporter
