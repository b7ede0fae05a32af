import Mathlib
import WordMachine.Proofs.Vault.Construction
import WordMachine.Proofs.Vault.Shortest

/-!
# Which shortest path

Of the shortest walks a search answers with the one whose choices come first, edge by edge and
destination by destination (`find_first`). The choices of a walk determine it, and the edges of a
room stand in the order in which they were added, so nothing else about a graph matters.
-/

namespace WordMachine.Vault

/-! ## Walks and their choices -/

section
variable {graph other : Graph} {start p p' q q' : Position} {choice : Choice} {op op' : Operation}
  {choices : List Choice} {ops ops' : List Operation}

theorem Move.unique (h : Move graph p choice op q) (h' : Move graph p choice op' q') : op = op' ∧ q = q' := by
  obtain ⟨edge, he, rfl, hroom, hw, _⟩ := h
  obtain ⟨edge', he', rfl, hroom', hw', _⟩ := h'
  obtain rfl := Option.some.inj (he.symm.trans he')
  have hrooms : q.room = q'.room := Option.some.inj (hroom.symm.trans hroom')
  have hweights : q.weight = q'.weight := hw.trans hw'.symm
  refine ⟨rfl, ?_⟩
  cases q
  cases q'
  cases hrooms
  cases hweights
  rfl

theorem Walk.unique (h : Walk graph start choices ops p) (h' : Walk graph start choices ops' p') :
    ops = ops' ∧ p = p' := by
  induction h generalizing ops' p' with
  | here =>
    generalize hc : ([] : List Choice) = choices at h'
    cases h' with
    | here => exact ⟨rfl, rfl⟩
    | onward => simp at hc
  | @onward choices ops p choice op q hw hm ih =>
    generalize hc : choices ++ [choice] = choices' at h'
    cases h' with
    | here => simp at hc
    | onward hw' hm' =>
      obtain ⟨rfl, hlast⟩ := List.append_inj' hc rfl
      cases hlast
      obtain ⟨rfl, rfl⟩ := ih hw'
      obtain ⟨rfl, rfl⟩ := hm.unique hm'
      exact ⟨rfl, rfl⟩

theorem Walk.of_edges (h : ∀ room, other.edges room = graph.edges room)
    (hw : Walk graph start choices ops p) :
    Walk other start choices ops p := by
  induction hw with
  | here => exact .here
  | onward _ hm ih =>
    obtain ⟨edge, he, hrest⟩ := hm
    exact .onward ih ⟨edge, (h _).symm ▸ he, hrest⟩

end

instance : Std.Asymm Choice.Before where
  asymm c d h h' := by
    unfold Choice.Before at *
    omega

theorem NoLater.antisymm {a b : List Choice} (h : NoLater a b) (h' : NoLater b a) : a = b := by
  rcases h with rfl | h
  · rfl
  · rcases h' with rfl | h'
    · rfl
    · exact absurd h' (Std.Asymm.asymm _ _ h)

theorem NoLater.lex {a b : List Choice} (h : NoLater a b) (hl : b.length = a.length) :
    b = a ∨ List.Lex Choice.Before a b := by
  rcases h with rfl | h
  · exact Or.inl rfl
  · exact Or.inr ((List.shortlex_iff_lex hl.symm).mp h)

/-- The answer is found in the edges of each room alone. -/
theorem find_of_edges {graph other : Graph} (h : ∀ room, other.edges room = graph.edges room)
    (start goal : Position) : (find other start goal).path = (find graph start goal).path := by
  have hto : ∀ {choices ops p}, Walk graph start choices ops p → Walk other start choices ops p := .of_edges h
  have hfrom : ∀ {choices ops p}, Walk other start choices ops p → Walk graph start choices ops p :=
    .of_edges fun room => (h room).symm
  rcases find_eq graph start goal with ⟨hnone, hno⟩ | ⟨choices, ops, hsome, hw, hleast⟩ <;>
    rcases find_eq other start goal with ⟨hnone', hno'⟩ | ⟨choices', ops', hsome', hw', hleast'⟩
  · rw [hnone, hnone']
  · exact absurd (hfrom hw') (hno _ _)
  · exact absurd (hto hw) (hno' _ _)
  · obtain rfl := (hleast _ _ (hfrom hw')).antisymm (hleast' _ _ (hto hw))
    obtain ⟨rfl, _⟩ := hw.unique (hfrom hw')
    rw [hsome, hsome']

/-- Where there is a walk, a search answers with the operations of the first in lexicographic order
among all walks of least length. So all that it takes from a graph is the order in which edges were
added to each room, and destinations to each edge. -/
theorem find_first (start goal : Position) :
    (∀ graph : Graph, (∃ choices ops, Walk graph start choices ops goal) →
      ∃ path choices, (find graph start goal).path = some path ∧
        Walk graph start choices path.operations goal ∧
        ∀ choices' ops', Walk graph start choices' ops' goal → choices.length ≤ choices'.length ∧
          (choices'.length = choices.length → choices' = choices ∨ List.Lex Choice.Before choices choices')) ∧
    ∀ additions additions' : List Addition, (∀ room, exits room additions' = exits room additions) →
      (find (.build additions') start goal).path = (find (.build additions) start goal).path := by
  refine ⟨?_, ?_⟩
  · rintro graph ⟨choices₀, ops₀, hw₀⟩
    rcases find_eq graph start goal with ⟨_, hno⟩ | ⟨choices, ops, hsome, hw, hleast⟩
    · exact absurd hw₀ (hno _ _)
    · refine ⟨_, choices, hsome, hw, ?_⟩
      intro choices' ops' hw'
      have hfirst := hleast _ _ hw'
      exact ⟨hfirst.length_le, hfirst.lex⟩
  · intro additions additions' h
    apply find_of_edges
    intro room
    rw [edges_build, edges_build, h]

/-- From A to D there are three walks of two steps, by way of B or of C. -/
def forking : List Addition :=
  [.edge "A" ⟨⟨.add, 2⟩, ["B", "C"]⟩, .edge "A" ⟨⟨.multiply, 3⟩, ["C"]⟩, .edge "B" ⟨⟨.multiply, 4⟩, ["D"]⟩,
    .edge "C" ⟨⟨.add, 9⟩, ["D"]⟩]

/-- The same edges for each room, but the rooms in another order. -/
def reforking : List Addition :=
  [.room "D", .edge "C" ⟨⟨.add, 9⟩, ["D"]⟩, .edge "A" ⟨⟨.add, 2⟩, ["B", "C"]⟩,
    .edge "B" ⟨⟨.multiply, 4⟩, ["D"]⟩, .edge "A" ⟨⟨.multiply, 3⟩, ["C"]⟩]

theorem find_first_forking :
    (∃ choices ops, Walk (.build forking) ⟨"A", 1⟩ choices ops ⟨"D", 12⟩) ∧
      (∃ choices, Walk (.build forking) ⟨"A", 1⟩ choices [⟨.add, 2⟩, ⟨.multiply, 4⟩] ⟨"D", 12⟩ ∧
        ∀ choices' ops', Walk (.build forking) ⟨"A", 1⟩ choices' ops' ⟨"D", 12⟩ →
          choices.length ≤ choices'.length ∧
          (choices'.length = choices.length → choices' = choices ∨ List.Lex Choice.Before choices choices')) ∧
      (∀ room, exits room reforking = exits room forking) ∧
      (find (.build reforking) ⟨"A", 1⟩ ⟨"D", 12⟩).path =
        some ⟨1, ⟨"D", 12⟩, [⟨.add, 2⟩, ⟨.multiply, 4⟩]⟩ := by
  have hfind : (find (.build forking) ⟨"A", 1⟩ ⟨"D", 12⟩).path =
      some ⟨1, ⟨"D", 12⟩, [⟨.add, 2⟩, ⟨.multiply, 4⟩]⟩ := by cbv
  have hexits : ∀ room, exits room reforking = exits room forking := by
    intro room
    by_cases hb : room = "B"
    · subst hb; rfl
    · simp only [reforking, forking, exits_room, exits_edge, hb, if_false]
      by_cases hc : room = "C"
      · subst hc; rfl
      · simp only [hc, if_false]
  have hwalk : ∃ choices ops, Walk (.build forking) ⟨"A", 1⟩ choices ops ⟨"D", 12⟩ := by
    rcases find_eq (.build forking) ⟨"A", 1⟩ ⟨"D", 12⟩ with ⟨hnone, _⟩ | ⟨choices, ops, _, hw, _⟩
    · rw [hfind] at hnone
      cases hnone
    · exact ⟨choices, ops, hw⟩
  obtain ⟨hfirst, hsame⟩ := find_first ⟨"A", 1⟩ ⟨"D", 12⟩
  obtain ⟨path, choices, hpath, hw, hleast⟩ := hfirst _ hwalk
  rw [hfind] at hpath
  cases hpath
  exact ⟨hwalk, ⟨choices, hw, hleast⟩, hexits, (hsame _ _ hexits).trans hfind⟩

end WordMachine.Vault
