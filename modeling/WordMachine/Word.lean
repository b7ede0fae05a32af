/-!
# Machine words

Memory cells, operands, registers and stack entries are 16-bit words. Only 15 bits of a word are
significant to arithmetic: whatever a register receives is first reduced modulo 32768.
-/

namespace WordMachine

/-- A memory cell, register, operand or stack entry. -/
abbrev Word := UInt16

namespace Word

/-- How many distinct values a register can hold; also the number of memory cells. -/
abbrev modulus : Nat := 32768

/-- The word of a number taken modulo 32768. -/
def wrap (n : Nat) : Word := UInt16.ofNat (n % modulus)

theorem toNat_wrap (n : Nat) : (wrap n).toNat = n % modulus := by
  have h : n % modulus < 2 ^ 16 := Nat.lt_trans (Nat.mod_lt n (by decide)) (by decide)
  rw [wrap, UInt16.toNat_ofNat', Nat.mod_eq_of_lt h]

theorem wrap_lt (n : Nat) : (wrap n).toNat < modulus := by
  rw [toNat_wrap]; exact Nat.mod_lt n (by decide)

end Word

end WordMachine
