import WordMachine.Proofs.Vault.Walk

/-!
# Trails

A trail is a route together with the choices that it made. Expanding a route queues the trails
that go on from it in the order of their last choice.
-/

namespace WordMachine.Vault

structure Trail where
  choices : List Choice
  route : Route

namespace Trail

abbrev position (t : Trail) : Position := t.route.position

def origin (start : Position) : Trail := ⟨[], ⟨start, []⟩⟩

/-- The route's operations are those of the walk with the trail's choices. -/
def Walks (graph : Graph) (start : Position) (t : Trail) : Prop :=
  Walk graph start t.choices t.route.reversed.reverse t.position

def Before (t u : Trail) : Prop := Earlier t.choices u.choices

/-- The trails that go on by one choice. -/
def onward (graph : Graph) (t : Trail) : List Trail :=
  (graph.edges t.position.room).zipIdx.flatMap fun (edge, i) =>
    (Search.through t.route edge).zipIdx.map fun (route, j) => ⟨t.choices ++ [⟨i, j⟩], route⟩

theorem map_route_onward (graph : Graph) (t : Trail) :
    (t.onward graph).map Trail.route = (graph.edges t.position.room).flatMap (Search.through t.route) := by
  have h : ∀ l : List (Edge × Nat), ((l.flatMap fun (edge, i) =>
      (Search.through t.route edge).zipIdx.map fun (route, j) =>
        (⟨t.choices ++ [⟨i, j⟩], route⟩ : Trail)).map Trail.route) =
      (l.map Prod.fst).flatMap (Search.through t.route) := by
    intro l
    induction l with
    | nil => rfl
    | cons e l ih =>
      have hr : (fun p : Route × Nat => p.1) = Prod.fst := rfl
      simp only [List.flatMap_cons, List.map_append, List.map_map, Function.comp_def, List.map_cons, ih, hr,
        List.zipIdx_map_fst]
  rw [onward, h, List.zipIdx_map_fst]

theorem mem_onward {graph : Graph} {t u : Trail} :
    u ∈ t.onward graph ↔ ∃ choice op, Move graph t.position choice op u.position ∧
      u.choices = t.choices ++ [choice] ∧ u.route.reversed = op :: t.route.reversed := by
  unfold onward
  simp only [List.mem_flatMap, List.mem_map, Prod.exists, List.mk_mem_zipIdx_iff_getElem?]
  refine ⟨?_, ?_⟩
  · intro ⟨edge, i, he, route, j, hr, hu⟩
    unfold Search.through at hr
    split at hr
    · rename_i w hw
      rw [List.getElem?_map, Option.map_eq_some_iff] at hr
      obtain ⟨room, hroom, rfl⟩ := hr
      subst hu
      exact ⟨⟨i, j⟩, edge.operation, ⟨edge, he, rfl, hroom, weigh?_eq_some_iff.mp hw⟩, rfl, rfl⟩
    · cases hr
  · intro ⟨choice, op, ⟨edge, he, hop, hroom, hw⟩, hc, hr⟩
    subst hop
    refine ⟨edge, choice.edge, he, u.route, choice.destination, ?_, ?_⟩
    · unfold Search.through
      rw [weigh?_eq_some_iff.mpr hw]
      simp only [List.getElem?_map, hroom, Option.map_some, ← hr]
    · simp only [← hc]

theorem pairwise_onward (graph : Graph) (t : Trail) : (t.onward graph).Pairwise Before := by
  have hidx : ∀ {α : Type} (l : List α), l.zipIdx.Pairwise fun a b => a.2 < b.2 := by
    intro α l
    have h := List.pairwise_lt_range' (s := 0) (n := l.length)
    rw [← List.zipIdx_map_snd, List.pairwise_map] at h
    exact h
  unfold onward
  rw [List.pairwise_flatMap]
  refine ⟨?_, ?_⟩
  · intro ⟨edge, i⟩ _
    rw [List.pairwise_map]
    refine (hidx _).imp ?_
    intro a b hab
    exact earlier_snoc_of_before _ (Or.inr ⟨rfl, hab⟩)
  · refine (hidx _).imp ?_
    intro a b hab u hu v hv
    obtain ⟨_, _, rfl⟩ := List.mem_map.mp hu
    obtain ⟨_, _, rfl⟩ := List.mem_map.mp hv
    exact earlier_snoc_of_before _ (Or.inl hab)

theorem Walks.onward {graph : Graph} {start : Position} {t u : Trail} (h : t.Walks graph start)
    (hu : u ∈ t.onward graph) : u.Walks graph start := by
  obtain ⟨choice, op, hm, hc, hr⟩ := mem_onward.mp hu
  unfold Walks
  rw [hc, hr, List.reverse_cons]
  exact .onward h hm

end Trail

end WordMachine.Vault
