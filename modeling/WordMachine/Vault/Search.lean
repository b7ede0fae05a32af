import Std.Data.HashSet
import WordMachine.Journal
import WordMachine.Vault.Graph
import WordMachine.Word

/-!
# The search for a shortest route

A breadth-first search from a position to a position. The weight must stay in `0, …, 32767`, and
no position is entered twice through an edge. Routes are looked at in the order in which they were
found, so the first one that ends at the goal is a shortest one.
-/

namespace WordMachine.Vault

structure Position where
  room : String
  weight : Int
  deriving DecidableEq, Repr, Hashable

structure Path where
  start : Int
  finish : Position
  operations : List Operation
  deriving DecidableEq, Repr

namespace Path

/-- The starting weight followed by the operations, such as `22+4-11`. -/
def trace (path : Path) : String :=
  Text.signedDecimal path.start ++ String.join (path.operations.map Operation.text)

def length (path : Path) : Nat := path.operations.length

end Path

inductive Event
  | entered (position : Position)
  | found (explored length : Nat)
  | notFound (explored : Nat)
  deriving DecidableEq, Repr

def Event.record (event : Event) : Record :=
  let about (level : Level) (message : String) (fields : List (String × String)) : Record :=
    ⟨level, message, ("stage", "vault") :: fields⟩
  match event with
  | .entered p =>
    about .trace "enqueue" [("room", p.room), ("weight", Text.signedDecimal p.weight)]
  | .found explored length =>
    about .debug "found route" [("explored", Text.decimal explored), ("length", Text.decimal length)]
  | .notFound explored => about .debug "no route" [("explored", Text.decimal explored)]

/-- A position that was reached, with the operations that led there, the last one first. -/
structure Route where
  position : Position
  reversed : List Operation

/-- A search under way. Routes wait in a queue: first those of `front`, then those of `back` from
its end. -/
structure Search where
  front : List Route
  back : List Route := []
  /-- The positions that were entered through an edge. -/
  entered : Std.HashSet Position := ∅
  /-- How many routes were taken from the queue. -/
  explored : Nat := 0
  /-- The latest event comes first. -/
  events : List Event := []

namespace Search

/-- The weight after an operation, if it stays within the range of a register. -/
def weigh? (op : Operation) (weight : Int) : Option Int :=
  (op.result? weight).filter fun w => 0 ≤ w && w < Word.modulus

def through (route : Route) (edge : Edge) : List Route :=
  match weigh? edge.operation route.position.weight with
  | some weight =>
    edge.destinations.map fun room => ⟨⟨room, weight⟩, edge.operation :: route.reversed⟩
  | none => []

def enter (s : Search) (route : Route) : Search :=
  if s.entered.contains route.position then s
  else
    { s with
      back := route :: s.back
      entered := s.entered.insert route.position
      events := .entered route.position :: s.events }

/-- Queues what can be reached from a route by one edge. -/
def expand (graph : Graph) (s : Search) (route : Route) : Search :=
  ((graph.edges route.position.room).flatMap (through route)).foldl enter s

def dequeue? (s : Search) : Option (Route × Search) :=
  match s.front with
  | route :: front => some (route, { s with front, explored := s.explored + 1 })
  | [] =>
    match s.back.reverse with
    | route :: front => some (route, { s with front, back := [], explored := s.explored + 1 })
    | [] => none

/-- Takes routes from the queue until one ends at the goal, at most `fuel` of them. -/
def loop (graph : Graph) (goal : Position) : Nat → Search → Option Route × List Event
  | 0, s => (none, .notFound s.explored :: s.events)
  | fuel + 1, s =>
    match s.dequeue? with
    | none => (none, .notFound s.explored :: s.events)
    | some (route, s) =>
      if route.position = goal then
        (some route, .found s.explored route.reversed.length :: s.events)
      else loop graph goal fuel (s.expand graph route)

/-- More routes than a search can take from its queue: the start, and one for every weight and
every destination. -/
def bound (graph : Graph) : Nat := Word.modulus * graph.ways + 2

end Search

structure Answer where
  path : Option Path
  events : List Event

def find (graph : Graph) (start goal : Position) : Answer :=
  let (route, events) := Search.loop graph goal (Search.bound graph) { front := [⟨start, []⟩] }
  { path := route.map fun r => ⟨start.weight, r.position, r.reversed.reverse⟩
    events := events.reverse }

end WordMachine.Vault
