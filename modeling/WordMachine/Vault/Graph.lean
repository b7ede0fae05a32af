import WordMachine.Vault.Operation

/-!
# Rooms and edges

Rooms are joined by directed edges. An edge applies one operation and leads to one or more rooms.
The edges of a room, and the rooms an edge leads to, keep the order in which they were added.
-/

namespace WordMachine.Vault

structure Edge where
  operation : Operation
  destinations : List String
  deriving DecidableEq, Repr

structure Graph where
  rooms : List (String × List Edge)
  deriving DecidableEq, Repr

namespace Graph

def empty : Graph := ⟨[]⟩

def contains (graph : Graph) (room : String) : Bool := graph.rooms.any (·.1 == room)

/-- The edges that lead out of a room. Rooms that do not exist have none. -/
def edges (graph : Graph) (room : String) : List Edge :=
  (graph.rooms.lookup room).getD []

def addRoom (graph : Graph) (room : String) : Graph :=
  if graph.contains room then graph else ⟨graph.rooms ++ [(room, [])]⟩

def addEdge (graph : Graph) (room : String) (edge : Edge) : Graph :=
  ⟨graph.rooms.map fun (name, edges) => (name, if name = room then edges ++ [edge] else edges)⟩

/-- Adds an edge, and every room that it touches. -/
def connect (graph : Graph) (source : String) (edge : Edge) : Graph :=
  ((edge.destinations.foldl addRoom graph).addRoom source).addEdge source edge

theorem contains_addRoom (graph : Graph) (room name : String) :
    (graph.addRoom room).contains name = (graph.contains name || name == room) := by
  unfold addRoom
  split
  · next h =>
    by_cases hn : name = room
    · rw [hn, h]; rfl
    · simp [hn]
  · simp [contains, BEq.comm]

theorem edges_addRoom (graph : Graph) (room name : String) :
    (graph.addRoom room).edges name = graph.edges name := by
  unfold addRoom
  split
  · rfl
  · simp only [edges, List.lookup_append]
    cases graph.rooms.lookup name with
    | some edges => rfl
    | none =>
      rw [Option.none_or, List.lookup_cons]
      split <;> rfl

theorem contains_addEdge (graph : Graph) (room name : String) (edge : Edge) :
    (graph.addEdge room edge).contains name = graph.contains name := by
  simp [contains, addEdge, Function.comp_def]

theorem lookup_map_append (rooms : List (String × List Edge)) (room name : String) (edge : Edge) :
    (rooms.map fun (key, out) => (key, if key = room then out ++ [edge] else out)).lookup name =
      (rooms.lookup name).map fun out => if name = room then out ++ [edge] else out := by
  induction rooms with
  | nil => rfl
  | cons entry rest ih =>
    obtain ⟨key, out⟩ := entry
    by_cases hk : name = key
    · simp [hk]
    · have hk' : (name == key) = false := by simp [hk]
      simp only [List.map_cons, List.lookup_cons, hk', ih]

theorem contains_eq_isSome (graph : Graph) (name : String) :
    graph.contains name = (graph.rooms.lookup name).isSome := by
  obtain ⟨rooms⟩ := graph
  simp only [contains]
  induction rooms with
  | nil => rfl
  | cons entry rest ih =>
    obtain ⟨key, out⟩ := entry
    by_cases hk : name = key
    · simp [hk]
    · have hk' : (name == key) = false := by simp [hk]
      have hk'' : (key == name) = false := by simp [Ne.symm hk]
      simp only [List.any_cons, List.lookup_cons, hk', hk'', Bool.false_or, ih]

theorem edges_addEdge (graph : Graph) (room name : String) (edge : Edge) :
    (graph.addEdge room edge).edges name =
      if name = room ∧ graph.contains name then graph.edges name ++ [edge]
      else graph.edges name := by
  rw [contains_eq_isSome]
  simp only [edges, addEdge, lookup_map_append]
  cases graph.rooms.lookup name with
  | none => simp
  | some out => by_cases h : name = room <;> simp [h]

theorem contains_foldl_addRoom (rooms : List String) (graph : Graph) (name : String) :
    (rooms.foldl addRoom graph).contains name = (graph.contains name || rooms.contains name) := by
  induction rooms generalizing graph with
  | nil => simp
  | cons room rest ih =>
    rw [List.foldl_cons, ih, contains_addRoom, List.contains_cons, Bool.or_assoc]

theorem edges_foldl_addRoom (rooms : List String) (graph : Graph) (name : String) :
    (rooms.foldl addRoom graph).edges name = graph.edges name := by
  induction rooms generalizing graph with
  | nil => rfl
  | cons room rest ih => rw [List.foldl_cons, ih, edges_addRoom]

theorem contains_connect (graph : Graph) (source name : String) (edge : Edge) :
    (graph.connect source edge).contains name =
      (graph.contains name || edge.destinations.contains name || name == source) := by
  rw [connect, contains_addEdge, contains_addRoom, contains_foldl_addRoom]

theorem edges_connect (graph : Graph) (source name : String) (edge : Edge) :
    (graph.connect source edge).edges name =
      if name = source then graph.edges name ++ [edge] else graph.edges name := by
  rw [connect, edges_addEdge, contains_addRoom, edges_addRoom, edges_foldl_addRoom]
  by_cases h : name = source <;> simp [h]

/-- The rooms that edges lead to, once for each edge that leads there. -/
def destinations (graph : Graph) : List String :=
  graph.rooms.flatMap fun (_, edges) => edges.flatMap (·.destinations)

def ways (graph : Graph) : Nat := graph.destinations.length

end Graph

end WordMachine.Vault
