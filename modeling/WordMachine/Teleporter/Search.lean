import WordMachine.Journal
import WordMachine.Teleporter.Table
import WordMachine.Text.Numeral

/-!
# The search for a seed

Seeds are tried in ascending order until the confirmation function has the wanted value at a
given row and column.
-/

namespace WordMachine.Teleporter

/-- What is looked for: a seed for which the function has `result` at `row` and `column`. -/
structure Query where
  row : Nat
  column : Nat
  result : Word
  deriving DecidableEq, Repr

namespace Query

/-- The table, computed for some seed, holds what is looked for. -/
def accepts (q : Query) (table : Table) : Bool :=
  (table.get? q.column).any (·.val == q.result.toNat)

/-- The seeds from `first` on and below `bound`, as far as a register can hold them. -/
def seeds (first bound : Nat) : List Nat :=
  List.range' first (min bound Word.modulus - first)

/-- The first of these seeds that is accepted. One table serves them all. -/
def search (q : Query) : Table → List Nat → Option Nat
  | _, [] => none
  | table, seed :: rest =>
    let table := table.compute (UInt16.ofNat seed)
    if q.accepts table then some seed else q.search table rest

def find? (q : Query) (first bound : Nat) : Option Nat :=
  if q.column < Word.modulus then q.search (.new (q.row + 1)) (seeds first bound) else none

end Query

inductive Event
  | outside
  /-- A seed was tried; told of every 1024th only. -/
  | tried (seed : Nat)
  | found (seed : Nat)
  | notFound
  deriving DecidableEq, Repr

namespace Query

open Text (decimal)

def events (q : Query) (first bound : Nat) (answer : Option Nat) : List Event :=
  if q.column < Word.modulus then
    let tried := match answer with
      | some seed => seeds first (seed + 1)
      | none => seeds first bound
    (tried.filter (· % 1024 == 0)).map .tried ++ [answer.elim .notFound .found]
  else [.outside]

def record (q : Query) (event : Event) : Record :=
  let about (level : Level) (message : String) (fields : List (String × String)) : Record :=
    ⟨level, message, [("stage", "teleporter"), ("n", decimal q.row), ("m", decimal q.column),
      ("result", decimal q.result.toNat)] ++ fields⟩
  match event with
  | .outside => about .debug "column outside the domain" []
  | .tried seed => about .trace "searching" [("seed", decimal seed)]
  | .found seed => about .debug "found key" [("seed", decimal seed)]
  | .notFound => about .debug "no key found" []

end Query

end WordMachine.Teleporter
