import WordMachine.Teleporter.Confirmation
import WordMachine.Teleporter.Table

/-!
# What a table holds

A sweep writes its row from left to right and reads only the row above and the cell that it wrote
before, so it does not matter what the row held. Row after row a table comes to hold the values of
the function for its seed, whatever was computed on it earlier (`compute_confirms`).
-/

namespace WordMachine.Teleporter

variable {seed : Cell} {n : Nat}

namespace Row

/-- The row holds the values of the function at `n`. -/
def Tabulates (row : Row) (seed : Cell) (n : Nat) : Prop :=
  ∀ c : Cell, row[c].val = confirm seed n c

theorem tabulates_reset (row : Row) (seed : Cell) : (reset row).Tabulates seed 0 := by
  intro c
  simp only [reset, Fin.getElem_fin, Vector.getElem_mapFinIdx]
  rw [confirm]

theorem descendTo_zero (above row : Row) (h : 0 < Word.modulus) :
    descendTo seed above row 0 h = row.set 0 above[seed] :=
  rfl

theorem descendTo_succ (above row : Row) {last : Nat} (h : last + 1 < Word.modulus) :
    descendTo seed above row (last + 1) h =
      (descendTo seed above row last (Nat.lt_of_succ_lt h)).set (last + 1)
        above[(descendTo seed above row last (Nat.lt_of_succ_lt h))[last]] :=
  rfl

/-- The cells up to `last` are those of the row below; the others may still be anything. -/
theorem Tabulates.descendTo {above : Row} (ha : above.Tabulates seed n) (row : Row) {last : Nat}
    (h : last < Word.modulus) (c : Cell) (hc : c.val ≤ last) :
    (descendTo seed above row last h)[c].val = confirm seed (n + 1) c := by
  induction last generalizing c with
  | zero =>
    have hzero : c.val = 0 := Nat.le_zero.mp hc
    simp only [Fin.getElem_fin, hzero, descendTo_zero, Vector.getElem_set_self]
    rw [confirm]
    exact ha seed
  | succ last ih =>
    have hlast := Nat.lt_of_succ_lt h
    rw [descendTo_succ]
    by_cases hnew : c.val = last + 1
    · simp only [Fin.getElem_fin, hnew, Vector.getElem_set_self]
      -- the left neighbour is a column of the row above
      have hleft := ih hlast ⟨last, hlast⟩ (Nat.le_refl last)
      rw [confirm, ← hleft]
      exact ha _
    · have hne : last + 1 ≠ c.val := Ne.symm hnew
      rw [Fin.getElem_fin, Vector.getElem_set_ne _ _ hne]
      exact ih hlast c (by omega)

theorem Tabulates.descend {above : Row} (ha : above.Tabulates seed n) (row : Row) :
    (descend seed above row).Tabulates seed (n + 1) :=
  fun c => ha.descendTo row (by decide) c (Nat.le_of_lt_succ c.isLt)

end Row

namespace Table

theorem rows_repeat_descend (table : Table) (seed : Cell) (count : Nat) :
    (count.repeat (descend seed) table).rows = table.rows := by
  induction count with
  | zero => rfl
  | succ count ih => exact ih

theorem tabulates_repeat_descend {table : Table} (h : table.current.Tabulates seed 0) (count : Nat) :
    (count.repeat (descend seed) table).current.Tabulates seed count := by
  induction count with
  | zero => exact h
  | succ count ih => exact ih.descend _

theorem rows_compute (table : Table) (seed : Word) : (table.compute seed).rows = table.rows :=
  rows_repeat_descend _ _ _

/-- Whatever the two rows hold before. -/
theorem tabulates_compute (table : Table) (seed : Word) :
    (table.compute seed).current.Tabulates (seedOf seed) (table.rows - 1) :=
  tabulates_repeat_descend (Row.tabulates_reset _ _) _

theorem rows_foldl_compute (table : Table) (history : List Word) :
    (history.foldl compute table).rows = table.rows := by
  induction history generalizing table with
  | nil => rfl
  | cons seed history ih => rw [List.foldl_cons, ih, rows_compute]

theorem get?_of_tabulates {table : Table} (h : table.current.Tabulates seed n) {m : Nat} (hm : m < 32768) :
    (table.get? m).map Fin.val = some (confirm seed n m) := by
  have hcell : table.get? m = some table.current[(⟨m, hm⟩ : Cell)] := Vector.getElem?_eq_getElem hm
  rw [hcell, Option.map_some, h]

/-- The last row of a table holds the values of the function for the seed computed last, at every
column and whatever was computed before. -/
theorem compute_confirms (rows : Nat) (history : List Word) (seed : Word) (m : Nat) (hm : m < 32768) :
    (((history.foldl compute (new rows)).compute seed).get? m).map Fin.val =
      some (confirm (seed.toNat % 32768) (max rows 1 - 1) m) := by
  have h := tabulates_compute (history.foldl compute (new rows)) seed
  rw [rows_foldl_compute] at h
  exact get?_of_tabulates h hm

/-- Three rows that were computed for another seed before. The seed has more than 15 bits. -/
theorem compute_confirms_reused :
    1 < 32768 ∧ ((((new 3).compute 40000).compute 32773).get? 1).map Fin.val = some 17 := by
  refine ⟨by decide, ?_⟩
  have h := compute_confirms 3 [40000] 32773 1 (by decide)
  have hvalue : confirm 5 2 1 = 17 := by simp [confirm, Word.modulus]
  exact h.trans (congrArg some hvalue)

end Table

end WordMachine.Teleporter
