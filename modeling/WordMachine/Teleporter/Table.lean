import WordMachine.Word

/-!
# Tables of the confirmation function

Row `n` of the function is computed from row `n - 1` alone: its first cell is the cell above at
the seed, and each other cell is the cell above at its left neighbour. A table keeps two rows. To
go down by one they change places, and the new row is written over the older of the two.
-/

namespace WordMachine.Teleporter

/-- A value of the function, which is also a column of its table. -/
abbrev Cell := Fin Word.modulus

abbrev Row := Vector Cell Word.modulus

namespace Row

/-- Writes the first row over a row. -/
def reset (row : Row) : Row :=
  row.mapFinIdx fun m _ _ => ⟨(m + 1) % Word.modulus, Nat.mod_lt _ (by decide)⟩

/-- Writes the row below `above` over the cells of a row up to column `last`, from left to right. -/
def descendTo (seed : Cell) (above row : Row) (last : Nat) (h : last < Word.modulus) : Row :=
  last.fold (fun m _ row => row.set (m + 1) above[row[m]]) (row.set 0 above[seed])

def descend (seed : Cell) (above row : Row) : Row :=
  descendTo seed above row (Word.modulus - 1) (by decide)

end Row

/-- The seed in a word: its value modulo 32768. -/
def seedOf (w : Word) : Cell := Fin.ofNat Word.modulus w.toNat

structure Table where
  rows : Nat
  previous : Row
  /-- After a computation, the last row for the seed that was computed. -/
  current : Row

namespace Table

/-- A table that holds zeros until it is computed. It has at least one row. -/
def new (rows : Nat) : Table :=
  ⟨max rows 1, Vector.replicate Word.modulus 0, Vector.replicate Word.modulus 0⟩

/-- Goes down by one row. -/
def descend (seed : Cell) (table : Table) : Table :=
  { table with
    previous := table.current
    current := Row.descend seed table.current table.previous }

def compute (table : Table) (seed : Word) : Table :=
  (table.rows - 1).repeat (descend (seedOf seed)) { table with current := table.current.reset }

def get? (table : Table) (column : Nat) : Option Cell := table.current[column]?

end Table

end WordMachine.Teleporter
