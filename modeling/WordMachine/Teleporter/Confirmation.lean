import WordMachine.Word

/-!
# The confirmation function

The teleporter evaluates a function of two numbers that depends on the seed in register 7. Its
equations are far too slow to run; `Teleporter.Table` tabulates it.
-/

namespace WordMachine.Teleporter

/-- The confirmation function for one seed. -/
def confirm (seed : Nat) : Nat → Nat → Nat
  | 0, m => (m + 1) % Word.modulus
  | n + 1, 0 => confirm seed n seed
  | n + 1, m + 1 => confirm seed n (confirm seed (n + 1) m)

end WordMachine.Teleporter
