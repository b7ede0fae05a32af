import Mathlib.Algebra.Ring.GeomSum
import Mathlib.Data.Nat.ModEq
import Mathlib.Tactic.Ring
import WordMachine.Proofs.Teleporter.Tabulation

/-!
# Closed forms of the first rows

Each cell of a row is the value of the row above at the cell to its left. So if that row is an
affine function of its column, then the cells below are its iterates (`confirm_succ_modEq`). The
first three rows are affine and the fourth is exponential (`compute_closed_forms`).
-/

namespace WordMachine.Teleporter

variable {s n a b m : Nat}

theorem confirm_lt (s n m : Nat) : confirm s n m < 32768 := by
  induction n generalizing m with
  | zero =>
    rw [confirm]
    exact Nat.mod_lt _ (by decide)
  | succ n ih =>
    cases m with
    | zero =>
      rw [confirm]
      exact ih s
    | succ m =>
      rw [confirm]
      exact ih _

theorem confirm_eq_mod {value : Nat} (h : confirm s n m ≡ value [MOD 32768]) :
    confirm s n m = value % 32768 := by
  rw [← h, Nat.mod_eq_of_lt (confirm_lt s n m)]

theorem confirm_succ_modEq (h : ∀ m, confirm s n m ≡ a * m + b [MOD 32768]) (m : Nat) :
    confirm s (n + 1) m ≡ a ^ m * (a * s + b) + b * ∑ i ∈ Finset.range m, a ^ i [MOD 32768] := by
  induction m with
  | zero =>
    rw [confirm]
    simpa using h s
  | succ m ih =>
    calc confirm s (n + 1) (m + 1)
      _ = confirm s n (confirm s (n + 1) m) := by rw [confirm]
      _ ≡ a * confirm s (n + 1) m + b [MOD 32768] := h _
      _ ≡ a * (a ^ m * (a * s + b) + b * ∑ i ∈ Finset.range m, a ^ i) + b [MOD 32768] :=
        (ih.mul_left a).add_right b
      _ = a ^ (m + 1) * (a * s + b) + b * ∑ i ∈ Finset.range (m + 1), a ^ i := by
        rw [geom_sum_succ]
        ring

theorem confirm_succ_modEq_of_shift (h : ∀ m, confirm s n m ≡ m + b [MOD 32768]) (m : Nat) :
    confirm s (n + 1) m ≡ b * m + (s + b) [MOD 32768] := by
  have haffine : ∀ m, confirm s n m ≡ 1 * m + b [MOD 32768] := by simpa only [one_mul] using h
  calc confirm s (n + 1) m
    _ ≡ 1 ^ m * (1 * s + b) + b * ∑ i ∈ Finset.range m, 1 ^ i [MOD 32768] := confirm_succ_modEq haffine m
    _ = b * m + (s + b) := by
      simp
      ring

theorem confirm_zero_modEq (s m : Nat) : confirm s 0 m ≡ m + 1 [MOD 32768] := by
  rw [confirm]
  exact Nat.mod_modEq _ _

theorem confirm_one_modEq (s m : Nat) : confirm s 1 m ≡ m + (s + 1) [MOD 32768] := by
  have h := confirm_succ_modEq_of_shift (confirm_zero_modEq s) m
  rwa [one_mul] at h

theorem confirm_two_modEq (s m : Nat) : confirm s 2 m ≡ (s + 1) * m + (2 * s + 1) [MOD 32768] := by
  calc confirm s 2 m
    _ ≡ (s + 1) * m + (s + (s + 1)) [MOD 32768] := confirm_succ_modEq_of_shift (confirm_one_modEq s) m
    _ = (s + 1) * m + (2 * s + 1) := by ring

theorem confirm_three_modEq (s m : Nat) :
    confirm s 3 m ≡ (s + 1) ^ m * (s ^ 2 + 3 * s + 1) +
      (2 * s + 1) * ∑ i ∈ Finset.range m, (s + 1) ^ i [MOD 32768] := by
  calc confirm s 3 m
    _ ≡ (s + 1) ^ m * ((s + 1) * s + (2 * s + 1)) +
        (2 * s + 1) * ∑ i ∈ Finset.range m, (s + 1) ^ i [MOD 32768] :=
          confirm_succ_modEq (confirm_two_modEq s) m
    _ = _ := by ring

namespace Table

/-- What the last row of a table of one to four rows holds for a seed, whatever the rows held
before. -/
theorem compute_closed_forms (table : Table) (seed : Word) (m : Nat) (hm : m < 32768) :
    let s := seed.toNat % 32768
    let cell := ((table.compute seed).get? m).map Fin.val
    (table.rows = 1 → cell = some ((m + 1) % 32768)) ∧
      (table.rows = 2 → cell = some ((m + s + 1) % 32768)) ∧
      (table.rows = 3 → cell = some ((m * (s + 1) + 2 * s + 1) % 32768)) ∧
      (table.rows = 4 → cell = some (((s + 1) ^ m * (s ^ 2 + 3 * s + 1) +
        (2 * s + 1) * ∑ i ∈ Finset.range m, (s + 1) ^ i) % 32768)) := by
  intro s cell
  have hcell : ∀ {n value}, confirm s n m ≡ value [MOD 32768] → table.rows = n + 1 →
      cell = some (value % 32768) := by
    intro n value hvalue hrows
    have h := tabulates_compute table seed
    rw [hrows, Nat.add_sub_cancel] at h
    rw [← confirm_eq_mod hvalue]
    exact get?_of_tabulates h hm
  refine ⟨hcell (confirm_zero_modEq s m), hcell ?_, hcell ?_, hcell (confirm_three_modEq s m)⟩
  · exact confirm_one_modEq s m
  · rw [Nat.mul_comm]
    exact confirm_two_modEq s m

/-- Four rows that were computed for another seed before. The seed has more than 15 bits. -/
theorem compute_closed_forms_reused :
    5 < 32768 ∧ ((new 4).compute 40000).rows = 4 ∧
      ((((new 4).compute 40000).compute 32773).get? 5).map Fin.val = some 8241 := by
  have hrows : ((new 4).compute 40000).rows = 4 := rows_compute _ _
  obtain ⟨_, _, _, h⟩ := compute_closed_forms ((new 4).compute 40000) 32773 5 (by decide)
  have hsum : ∑ i ∈ Finset.range 5, 6 ^ i = 1555 := by decide
  refine ⟨by decide, hrows, (h hrows).trans (congrArg some ?_)⟩
  rw [show (32773 : Word).toNat % 32768 + 1 = 6 from rfl, hsum]
  rfl

end Table

end WordMachine.Teleporter
