import WordMachine.Vault.Graph

/-!
# Graphs as they are built

A graph that is built call by call holds the rooms that were named, each of them once, and out of every
room the edges that were added there, as they were given and in that order (`build_holds_additions`).
-/

namespace WordMachine.Vault

/-- A call that adds to a graph. -/
inductive Addition
  | room (name : String)
  | edge (source : String) (edge : Edge)

/-- The rooms that a call names. -/
def Addition.rooms : Addition → List String
  | .room name => [name]
  | .edge source exit => exit.destinations ++ [source]

/-- The edges that are added out of a room, in order. -/
def exits (room : String) (additions : List Addition) : List Edge :=
  additions.filterMap fun
    | .edge source edge => if room = source then some edge else none
    | .room _ => none

theorem exits_room (room name : String) (additions : List Addition) :
    exits room (.room name :: additions) = exits room additions :=
  rfl

theorem exits_edge (room source : String) (edge : Edge) (additions : List Addition) :
    exits room (.edge source edge :: additions) =
      if room = source then edge :: exits room additions else exits room additions := by
  by_cases h : room = source <;> simp [exits, h]

theorem mem_exits_iff {room : String} {additions : List Addition} {edge : Edge} :
    edge ∈ exits room additions ↔ .edge room edge ∈ additions := by
  induction additions with
  | nil => simp [exits]
  | cons addition additions ih =>
    cases addition with
    | room name => simp [exits_room, ih]
    | edge source other =>
      rw [exits_edge]
      split
      · next h => simp [← h, ih]
      · next h => simp [h, ih]

namespace Graph

def extend (graph : Graph) : Addition → Graph
  | .room name => graph.addRoom name
  | .edge source edge => graph.connect source edge

def build (additions : List Addition) : Graph := additions.foldl extend empty

def names (graph : Graph) : List String := graph.rooms.map (·.1)

theorem mem_names {graph : Graph} {room : String} : room ∈ graph.names ↔ graph.contains room := by
  simp [names, contains]

theorem edges_of_not_contains {graph : Graph} {room : String} (h : graph.contains room = false) :
    graph.edges room = [] := by
  rw [contains_eq_isSome, Option.isSome_eq_false_iff, Option.isNone_iff_eq_none] at h
  rw [edges, h, Option.getD_none]

/-! ## One call -/

theorem contains_extend (graph : Graph) (addition : Addition) (room : String) :
    (graph.extend addition).contains room = (graph.contains room || addition.rooms.contains room) := by
  cases addition with
  | room name =>
    rw [extend, contains_addRoom, Addition.rooms, List.contains_cons, List.contains_nil, Bool.or_false]
  | edge source edge =>
    rw [extend, contains_connect, Addition.rooms, List.contains_append, List.contains_cons, List.contains_nil,
      Bool.or_false, Bool.or_assoc]

theorem nodup_addRoom {graph : Graph} (h : graph.names.Nodup) (room : String) :
    (graph.addRoom room).names.Nodup := by
  unfold addRoom
  split
  · exact h
  · next hnew =>
    have hnames : names ⟨graph.rooms ++ [(room, [])]⟩ = graph.names ++ [room] := by simp [names]
    rw [hnames, List.nodup_append]
    refine ⟨h, by simp, ?_⟩
    rintro name hname other hother rfl
    rw [List.mem_singleton.mp hother, mem_names] at hname
    exact hnew hname

theorem nodup_foldl_addRoom {graph : Graph} (h : graph.names.Nodup) (rooms : List String) :
    (rooms.foldl addRoom graph).names.Nodup := by
  induction rooms generalizing graph with
  | nil => exact h
  | cons room rest ih => exact ih (nodup_addRoom h room)

theorem names_addEdge (graph : Graph) (room : String) (edge : Edge) :
    (graph.addEdge room edge).names = graph.names := by
  simp [names, addEdge, Function.comp_def]

theorem nodup_extend {graph : Graph} (h : graph.names.Nodup) (addition : Addition) :
    (graph.extend addition).names.Nodup := by
  cases addition with
  | room name => exact nodup_addRoom h name
  | edge source edge =>
    rw [extend, connect, names_addEdge]
    exact nodup_addRoom (nodup_foldl_addRoom h edge.destinations) source

end Graph

/-! ## All calls -/

theorem edges_foldl_extend (additions : List Addition) (graph : Graph) (room : String) :
    (additions.foldl Graph.extend graph).edges room = graph.edges room ++ exits room additions := by
  induction additions generalizing graph with
  | nil => exact (List.append_nil _).symm
  | cons addition additions ih =>
    rw [List.foldl_cons, ih]
    cases addition with
    | room name => rw [Graph.extend, Graph.edges_addRoom, exits_room]
    | edge source edge =>
      rw [Graph.extend, Graph.edges_connect, exits_edge]
      split
      · rw [List.append_assoc, List.singleton_append]
      · rfl

theorem edges_build (additions : List Addition) (room : String) :
    (Graph.build additions).edges room = exits room additions :=
  edges_foldl_extend additions .empty room

theorem contains_foldl_extend (additions : List Addition) (graph : Graph) (room : String) :
    (additions.foldl Graph.extend graph).contains room =
      (graph.contains room || additions.any fun addition => addition.rooms.contains room) := by
  induction additions generalizing graph with
  | nil => exact (Bool.or_false _).symm
  | cons addition additions ih =>
    rw [List.foldl_cons, ih, Graph.contains_extend, List.any_cons, Bool.or_assoc]

theorem contains_build (additions : List Addition) (room : String) :
    (Graph.build additions).contains room ↔ ∃ addition ∈ additions, room ∈ addition.rooms := by
  rw [Graph.build, contains_foldl_extend]
  simp [Graph.contains, Graph.empty]

theorem nodup_build (additions : List Addition) : (Graph.build additions).names.Nodup := by
  have h : ∀ {graph : Graph}, graph.names.Nodup → (additions.foldl Graph.extend graph).names.Nodup := by
    induction additions with
    | nil => exact id
    | cons addition additions ih => exact fun h => ih (Graph.nodup_extend h addition)
  exact h List.nodup_nil

/-- A graph has the rooms that some call named, by themselves or at either end of an edge, and has each
of them once. The edges out of a room are those that were added there, with their destinations, in the
order of the calls. So a room that was not named has none, naming a room again takes none away, and
whatever an edge leads to is a room of the graph. -/
theorem build_holds_additions (additions : List Addition) :
    (∀ room, (Graph.build additions).contains room ↔
      .room room ∈ additions ∨
        ∃ source edge, .edge source edge ∈ additions ∧ (room = source ∨ room ∈ edge.destinations)) ∧
    (Graph.build additions).names.Nodup ∧
    (∀ room, (Graph.build additions).edges room = exits room additions) ∧
    (∀ room, (Graph.build additions).contains room = false → (Graph.build additions).edges room = []) ∧
    (∀ name room, ((Graph.build additions).addRoom name).edges room = (Graph.build additions).edges room) ∧
    ∀ room, ∀ edge ∈ (Graph.build additions).edges room, ∀ destination ∈ edge.destinations,
      (Graph.build additions).contains destination := by
  refine ⟨?_, nodup_build additions, edges_build additions, fun _ => Graph.edges_of_not_contains,
    fun name room => Graph.edges_addRoom _ name room, ?_⟩
  · intro room
    rw [contains_build]
    refine ⟨?_, ?_⟩
    · rintro ⟨name | ⟨source, edge⟩, hmem, hroom⟩
      · obtain rfl := List.mem_singleton.mp hroom
        exact Or.inl hmem
      · refine Or.inr ⟨source, edge, hmem, ?_⟩
        rcases List.mem_append.mp hroom with h | h
        · exact Or.inr h
        · exact Or.inl (List.mem_singleton.mp h)
    · rintro (hmem | ⟨source, edge, hmem, hroom⟩)
      · exact ⟨_, hmem, List.mem_singleton.mpr rfl⟩
      · refine ⟨_, hmem, ?_⟩
        rcases hroom with rfl | h
        · exact List.mem_append_right _ (List.mem_singleton.mpr rfl)
        · exact List.mem_append_left _ h
  · intro room edge hedge destination hdestination
    rw [edges_build] at hedge
    exact (contains_build additions destination).mpr
      ⟨_, mem_exits_iff.mp hedge, List.mem_append_left _ hdestination⟩

/-- An edge that leads back and twice to one room, a room named again, and one with an edge to nowhere. -/
def tangled : List Addition :=
  [.edge "A" ⟨⟨.add, 1⟩, ["B", "A", "B"]⟩, .room "A", .room "C", .edge "A" ⟨⟨.multiply, 2⟩, []⟩]

theorem build_holds_additions_tangled :
    (Graph.build tangled).contains "B" ∧ (Graph.build tangled).contains "D" = false ∧
      (Graph.build tangled).names.Nodup ∧
      (Graph.build tangled).edges "A" = [⟨⟨.add, 1⟩, ["B", "A", "B"]⟩, ⟨⟨.multiply, 2⟩, []⟩] ∧
      (Graph.build tangled).edges "B" = [] ∧ (Graph.build tangled).edges "D" = [] := by
  obtain ⟨_, hnodup, hedges, hunknown, hagain, hclosed⟩ := build_holds_additions tangled
  have hd : (Graph.build tangled).contains "D" = false := by decide
  have ha : (Graph.build tangled).edges "A" = [⟨⟨.add, 1⟩, ["B", "A", "B"]⟩, ⟨⟨.multiply, 2⟩, []⟩] :=
    hedges "A"
  have hb : (Graph.build tangled).contains "B" :=
    hclosed "A" ⟨⟨.add, 1⟩, ["B", "A", "B"]⟩ (by rw [ha]; simp) "B" (by simp)
  exact ⟨hb, hd, hnodup, ha, hedges "B", hunknown "D" hd⟩

end WordMachine.Vault
