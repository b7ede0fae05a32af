import Mathlib
import WordMachine.Proofs.Vault.Exhaustion

/-!
# Shortest paths

A search answers with the first of all walks to the goal, so with a shortest one, and with nothing
only if there is no walk (`find_shortest`).
-/

namespace WordMachine.Vault

/-- The search ends at the walk to the goal whose choices come first. -/
theorem find_eq (graph : Graph) (start goal : Position) :
    ((find graph start goal).path = none ∧ ∀ choices ops, ¬ Walk graph start choices ops goal) ∨
      ∃ choices ops, (find graph start goal).path = some ⟨start.weight, goal, ops⟩ ∧
        Walk graph start choices ops goal ∧
        ∀ choices' ops', Walk graph start choices' ops' goal → NoLater choices choices' := by
  obtain ⟨outcome, closed, waiting, found, s, h, _, hc, hfind⟩ := find_ends graph start goal
  rw [hfind]
  cases hc with
  | exhausted =>
    refine Or.inl ⟨rfl, ?_⟩
    intro choices ops hw
    rcases h.cover hw with ⟨t, ht, hp, _⟩ | ⟨t, ht, _⟩
    · exact h.missed t ht hp
    · cases ht
  | @arrived t rest ht =>
    refine Or.inr ⟨t.choices, t.route.reversed.reverse, ?_, ?_, ?_⟩
    · rw [← ht]; rfl
    · rw [← ht]; exact h.walks_of_mem (Or.inr (by simp))
    · intro choices ops hw
      rcases h.cover hw with ⟨u, hu, hp, _⟩ | ⟨u, hu, hn⟩
      · exact absurd hp (h.missed u hu)
      · rcases List.mem_cons.mp hu with rfl | hu
        · exact hn
        · have hord := h.ordered
          rw [← h.all, List.pairwise_append, List.pairwise_cons] at hord
          exact NoLater.trans (Or.inr (hord.2.1.1 u hu)) hn

theorem find_shortest (graph : Graph) (start goal : Position) :
    ((find graph start goal).path = none ↔ ¬ ∃ choices ops, Walk graph start choices ops goal) ∧
      ∀ path, (find graph start goal).path = some path →
        path.start = start.weight ∧ path.finish = goal ∧
        (∃ choices, Walk graph start choices path.operations goal) ∧
        ∀ choices ops, Walk graph start choices ops goal → path.length ≤ choices.length := by
  rcases find_eq graph start goal with ⟨hnone, hno⟩ | ⟨choices, ops, hsome, hw, hleast⟩
  · rw [hnone]
    refine ⟨iff_of_true rfl ?_, ?_⟩
    · intro ⟨choices, ops, hw⟩
      exact hno choices ops hw
    · intro path hp
      cases hp
  · rw [hsome]
    refine ⟨iff_of_false (by simp) (not_not_intro ⟨choices, ops, hw⟩), ?_⟩
    intro path hp
    obtain rfl := Option.some.inj hp
    refine ⟨rfl, rfl, ⟨choices, hw⟩, ?_⟩
    intro choices' ops' hw'
    unfold Path.length
    rw [hw.length_eq]
    exact (hleast choices' ops' hw').length_le

/-- From A to C there is a way through B, and a single edge that is added later. -/
def detour : Graph :=
  ((Graph.empty.connect "A" ⟨⟨.add, 1⟩, ["A", "B"]⟩).connect "B" ⟨⟨.add, 1⟩, ["C"]⟩).connect "A"
    ⟨⟨.multiply, 3⟩, ["C"]⟩

theorem find_shortest_detour :
    (find detour ⟨"A", 1⟩ ⟨"C", 3⟩).path = some ⟨1, ⟨"C", 3⟩, [⟨.multiply, 3⟩]⟩ ∧
      (∃ choices, Walk detour ⟨"A", 1⟩ choices [⟨.multiply, 3⟩] ⟨"C", 3⟩) ∧
      ∀ choices ops, Walk detour ⟨"A", 1⟩ choices ops ⟨"C", 3⟩ → 1 ≤ choices.length := by
  have h : (find detour ⟨"A", 1⟩ ⟨"C", 3⟩).path = some ⟨1, ⟨"C", 3⟩, [⟨.multiply, 3⟩]⟩ := by cbv
  obtain ⟨_, _, hwalk, hleast⟩ := (find_shortest detour ⟨"A", 1⟩ ⟨"C", 3⟩).2 _ h
  exact ⟨h, hwalk, hleast⟩

end WordMachine.Vault
