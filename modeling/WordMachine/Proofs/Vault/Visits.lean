import WordMachine.Proofs.Vault.Exhaustion

/-!
# What a search visits

A search enters a position through an edge at most once, and what it takes from its queue is the
start, then positions that it entered, in the same order. The start itself can be among them, and
is then visited twice (`find_visits`).
-/

namespace WordMachine.Vault

section
variable {graph : Graph} {start goal : Position} {closed waiting found : List Trail} {s : Search}
  {outcome : Option Route × List Event}

/-- Events tell what was entered, and at last how many positions were visited. -/
theorem Concludes.events_eq (hc : Concludes goal s waiting outcome)
    (h : Discovered graph start closed waiting found s) :
    (Answer.ofOutcome start outcome).events = (found.map Trail.position).map .entered ++
      [(Answer.ofOutcome start outcome).path.elim (.notFound (1 + found.length))
        fun path => .found (closed ++ waiting.take 1).length path.length] := by
  have hexplored := h.explored
  have hevents := h.events
  cases hc with
  | exhausted =>
    have hall := congrArg List.length h.all
    rw [List.append_nil, List.length_cons] at hall
    simp [Answer.ofOutcome, hevents, hexplored, hall, Nat.add_comm]
  | arrived =>
    simp [Answer.ofOutcome, Path.length, hevents, hexplored]

end

theorem find_visits (graph : Graph) (start goal : Position) :
    ∃ outcome later entered,
      Search.Ends graph goal { front := [⟨start, []⟩] } (start :: later) outcome ∧
      find graph start goal = .ofOutcome start outcome ∧
      (find graph start goal).events = entered.map .entered ++
        [(find graph start goal).path.elim (.notFound (1 + entered.length))
          fun path => .found (start :: later).length path.length] ∧
      entered.Nodup ∧ (∀ p ∈ entered, p.room ∈ graph.destinations ∧ 0 ≤ p.weight ∧ p.weight ≤ 32767) ∧
      later.Nodup ∧ later <+: entered ∧
      (start :: later).length ≤ 1 + 32768 * graph.destinations.dedup.length := by
  obtain ⟨outcome, closed, waiting, found, s, h, hends, hc, hfind⟩ := find_ends graph start goal
  obtain ⟨later, htaken, hlater⟩ := h.exists_taken
  have hlength := h.length_taken_le
  have hevents := hc.events_eq h.toDiscovered
  have hwithin : later.map Trail.position <+: found.map Trail.position := hlater.map Trail.position
  rw [htaken] at hends hlength hevents
  rw [← hfind] at hevents
  refine ⟨outcome, later.map Trail.position, found.map Trail.position, hends, hfind, ?_, h.distinct, ?_,
    h.distinct.sublist hwithin.sublist, hwithin, ?_⟩
  · simpa using hevents
  · intro p hp
    obtain ⟨u, hu, rfl⟩ := List.mem_map.mp hp
    exact h.position_mem hu
  · simpa using hlength

/-- The start is entered through an edge, and visited a second time. -/
example : (find (Graph.empty.connect "A" ⟨⟨.add, 0⟩, ["A"]⟩) ⟨"A", 1⟩ ⟨"A", 2⟩).events =
    [.entered ⟨"A", 1⟩, .notFound 2] := by cbv

end WordMachine.Vault
