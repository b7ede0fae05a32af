import Mathlib.Data.List.Dedup
import WordMachine.Proofs.Vault.Discovery

/-!
# Searches run to an end

A search that has not met its goal has found, for every trail that goes on from a closed one, a
trail to the same position that is no later (`Searching`). So every walk ends at a closed trail or
goes past one that waits (`Searching.cover`). Positions are found once, and there are only so many
of them (`Discovered.length_found_le`), so a search ends even without a bound (`find_ends`).
-/

namespace WordMachine.Vault

section
variable (graph : Graph) (start goal : Position)

/-- A search that has not met its goal. -/
structure Searching (closed waiting found : List Trail) (s : Search) : Prop
    extends Discovered graph start closed waiting found s where
  parents : ∀ u ∈ found, ∃ t ∈ closed, ∃ choice, u.choices = t.choices ++ [choice]
  closes : ∀ t ∈ closed, ∀ u ∈ t.onward graph,
    ∃ v ∈ found, v.position = u.position ∧ NoLater v.choices u.choices
  missed : ∀ t ∈ closed, t.position ≠ goal

theorem searching_origin :
    Searching graph start goal [] [.origin start] [] { front := [⟨start, []⟩] } := by
  refine ⟨⟨rfl, rfl, rfl, rfl, ?_, ?_, ?_, ?_⟩, ?_, ?_, ?_⟩ <;> simp [Std.HashSet.not_mem_empty]

end

section
variable {graph : Graph} {start goal : Position} {closed waiting found : List Trail} {s : Search} {t : Trail}

/-- Whatever was found before a trail is closed comes before all that goes on from it. -/
theorem Searching.before_onward (h : Searching graph start goal closed (t :: waiting) found s) {u v : Trail}
    (hv : v ∈ t.onward graph) (hu : u ∈ Trail.origin start :: found) : u.Before v := by
  obtain ⟨choice, op, _, hc, _⟩ := Trail.mem_onward.mp hv
  have hord := h.ordered
  rw [← h.all, List.pairwise_append] at hord
  unfold Trail.Before
  rw [hc]
  rcases List.mem_cons.mp hu with rfl | hu
  · exact .of_length_lt (by simp [Trail.origin])
  · obtain ⟨c, hcl, x, hx⟩ := h.parents u hu
    have hct : c.Before t := hord.2.2 c hcl t (by simp)
    rw [hx]
    exact hct.snoc x choice

theorem Searching.expand (h : Searching graph start goal closed (t :: waiting) found s)
    (ht : t.position ≠ goal) :
    ∃ s' new, s.dequeue? = some (t.route, s') ∧
      Searching graph start goal (closed ++ [t]) (waiting ++ new) (found ++ new)
        (s'.expand graph t.route) := by
  obtain ⟨s', hd, h'⟩ := h.dequeue
  obtain ⟨new, hdisc, hnew, hreach⟩ := h'.foldl_enter
    (fun v hv => (h.walks_of_mem (Or.inr (by simp))).onward hv) (t.pairwise_onward graph)
    (fun v hv u hu => h.before_onward hv hu)
  rw [Trail.map_route_onward] at hdisc
  refine ⟨s', new, hd, hdisc, ?_, ?_, ?_⟩
  · intro u hu
    rcases List.mem_append.mp hu with hu | hu
    · obtain ⟨c, hc, x, hx⟩ := h.parents u hu
      exact ⟨c, List.mem_append_left _ hc, x, hx⟩
    · obtain ⟨choice, _, _, hc, _⟩ := Trail.mem_onward.mp (hnew u hu)
      exact ⟨t, by simp, choice, hc⟩
  · intro c hc u hu
    rcases List.mem_append.mp hc with hc | hc
    · obtain ⟨v, hv, hp, hn⟩ := h.closes c hc u hu
      exact ⟨v, List.mem_append_left _ hv, hp, hn⟩
    · rw [List.mem_singleton.mp hc] at hu
      exact hreach u hu
  · intro c hc
    rcases List.mem_append.mp hc with hc | hc
    · exact h.missed c hc
    · rw [List.mem_singleton.mp hc]; exact ht

theorem Searching.cover (h : Searching graph start goal closed waiting found s) {choices : List Choice}
    {ops : List Operation} {p : Position} (hw : Walk graph start choices ops p) :
    (∃ t ∈ closed, t.position = p ∧ NoLater t.choices choices) ∨
      ∃ t ∈ waiting, NoLater t.choices choices := by
  induction hw with
  | here =>
    rcases h.of_mem_found (Or.inl rfl) with ht | ht
    · exact Or.inl ⟨_, ht, rfl, Or.inl rfl⟩
    · exact Or.inr ⟨_, ht, Or.inl rfl⟩
  | @onward choices ops p choice op q _ hm ih =>
    rcases ih with ⟨t, ht, rfl, hn⟩ | ⟨t, ht, hn⟩
    · have hu : ⟨t.choices ++ [choice], q, op :: t.route.reversed⟩ ∈ t.onward graph :=
        Trail.mem_onward.mpr ⟨choice, op, hm, rfl, rfl⟩
      obtain ⟨v, hv, hp, hvn⟩ := h.closes t ht _ hu
      have hvq := hvn.trans (hn.snoc choice)
      rcases h.of_mem_found (Or.inr hv) with hv | hv
      · exact Or.inl ⟨v, hv, hp, hvq⟩
      · exact Or.inr ⟨v, hv, hvq⟩
    · exact Or.inr ⟨t, ht, hn.trans (Or.inr (earlier_snoc _ _))⟩

end

/-! ## How many positions there are -/

theorem Graph.mem_destinations {graph : Graph} {room name : String} {edge : Edge}
    (he : edge ∈ graph.edges room) (hn : name ∈ edge.destinations) : name ∈ graph.destinations := by
  unfold edges at he
  unfold destinations
  generalize graph.rooms = rooms at he
  induction rooms with
  | nil => cases he
  | cons entry rooms ih =>
    rw [List.flatMap_cons, List.mem_append]
    rw [List.lookup_cons] at he
    split at he
    · exact Or.inl (List.mem_flatMap.mpr ⟨edge, he, hn⟩)
    · exact Or.inr (ih he)

theorem Walk.mem_destinations {graph : Graph} {start p : Position} {choices : List Choice}
    {ops : List Operation} (h : Walk graph start choices ops p) (hne : choices ≠ []) :
    p.room ∈ graph.destinations ∧ 0 ≤ p.weight ∧ p.weight ≤ 32767 := by
  cases h with
  | here => exact absurd rfl hne
  | onward _ hm =>
    obtain ⟨edge, he, _, hroom, _, hw⟩ := hm
    exact ⟨Graph.mem_destinations (List.mem_of_getElem? he) (List.mem_of_getElem? hroom), hw⟩

section
variable {graph : Graph} {start goal : Position} {closed waiting found : List Trail} {s : Search}

theorem Discovered.position_mem (h : Discovered graph start closed waiting found s) {u : Trail}
    (hu : u ∈ found) :
    u.position.room ∈ graph.destinations ∧ 0 ≤ u.position.weight ∧ u.position.weight ≤ 32767 := by
  refine (h.walks u hu).mem_destinations ?_
  intro hc
  have hb : Earlier [] u.choices := (List.pairwise_cons.mp h.ordered).1 u hu
  rw [hc] at hb
  exact List.not_shortlex_nil_right hb

theorem Discovered.length_found_le (h : Discovered graph start closed waiting found s) :
    found.length ≤ 32768 * graph.destinations.dedup.length := by
  let places := graph.destinations.dedup.flatMap fun room =>
    (List.range 32768).map fun w : Nat => (⟨room, w⟩ : Position)
  have hsub : found.map Trail.position ⊆ places := by
    intro p hp
    obtain ⟨u, hu, rfl⟩ := List.mem_map.mp hp
    obtain ⟨hroom, h0, h1⟩ := h.position_mem hu
    refine List.mem_flatMap.mpr
      ⟨_, List.mem_dedup.mpr hroom, List.mem_map.mpr ⟨u.position.weight.toNat, ?_, ?_⟩⟩
    · exact List.mem_range.mpr (by omega)
    · rw [Int.toNat_of_nonneg h0]
  have hlen : places.length = 32768 * graph.destinations.dedup.length := by
    simp only [places, List.length_flatMap, List.length_map, List.length_range, List.map_const',
      List.sum_replicate_nat]
    exact Nat.mul_comm _ _
  rw [← hlen, ← List.length_map (f := Trail.position)]
  exact (List.subperm_of_subset h.distinct hsub).length_le

/-- Before it ends a search takes from the queue all that it closes, and at most one trail more. -/
theorem Discovered.exists_taken (h : Discovered graph start closed waiting found s) :
    ∃ later, closed ++ waiting.take 1 = .origin start :: later ∧ later <+: found := by
  have hall := h.all
  cases closed with
  | nil =>
    rw [List.nil_append] at hall
    exact ⟨[], by rw [hall]; rfl, List.nil_prefix⟩
  | cons t closed =>
    obtain ⟨rfl, rfl⟩ := List.cons.inj hall
    exact ⟨closed ++ waiting.take 1, rfl,
      (List.prefix_append_right_inj closed).mpr (List.take_prefix 1 waiting)⟩

theorem Discovered.length_taken_le (h : Discovered graph start closed waiting found s) :
    (closed ++ waiting.take 1).length ≤ 1 + 32768 * graph.destinations.dedup.length := by
  obtain ⟨later, htaken, hlater⟩ := h.exists_taken
  have hlength := hlater.length_le
  have hfound := h.length_found_le
  rw [htaken, List.length_cons]
  omega

theorem Discovered.length_taken_lt (h : Discovered graph start closed waiting found s) :
    (closed ++ waiting.take 1).length < Search.bound graph := by
  have htaken := h.length_taken_le
  have hways := (List.dedup_sublist graph.destinations).length_le
  unfold Search.bound Graph.ways
  simp only [Word.modulus]
  omega

end

/-! ## The end of a search -/

namespace Search

/-- A search without a bound, with the positions that it takes from the queue and what it ends with. -/
inductive Ends (graph : Graph) (goal : Position) : Search → List Position → Option Route × List Event → Prop
  | exhausted {s} : s.dequeue? = none → Ends graph goal s [] (none, .notFound s.explored :: s.events)
  | arrived {s route s'} : s.dequeue? = some (route, s') → route.position = goal →
      Ends graph goal s [route.position] (some route, .found s'.explored route.reversed.length :: s'.events)
  | further {s route s' taken outcome} : s.dequeue? = some (route, s') → route.position ≠ goal →
      Ends graph goal (s'.expand graph route) taken outcome →
      Ends graph goal s (route.position :: taken) outcome

theorem Ends.loop_eq {graph : Graph} {goal : Position} {s : Search} {taken : List Position}
    {outcome : Option Route × List Event} {fuel : Nat} (h : Ends graph goal s taken outcome)
    (hf : taken.length ≤ fuel) : loop graph goal fuel s = outcome := by
  induction h generalizing fuel with
  | exhausted hd =>
    cases fuel with
    | zero => rfl
    | succ fuel => rw [loop, hd]
  | arrived hd hgoal =>
    cases fuel with
    | zero => cases hf
    | succ fuel =>
      rw [loop, hd]
      simp only [hgoal, if_true]
  | further hd hgoal _ ih =>
    cases fuel with
    | zero => cases hf
    | succ fuel =>
      rw [loop, hd]
      simp only [hgoal, if_false]
      exact ih (Nat.le_of_succ_le_succ hf)

end Search

/-- What a search ends with when these trails wait: there is none, or the first is at the goal. -/
inductive Concludes (goal : Position) (s : Search) : List Trail → Option Route × List Event → Prop
  | exhausted : Concludes goal s [] (none, .notFound s.explored :: s.events)
  | arrived {t rest} : t.position = goal →
      Concludes goal s (t :: rest) (some t.route, .found (s.explored + 1) t.route.reversed.length :: s.events)

section
variable {graph : Graph} {start goal : Position} {closed waiting found : List Trail} {s : Search}

/-- What a search takes from the queue are the trails that it closes and the one at the goal. -/
theorem Searching.ends (remaining : Nat) (h : Searching graph start goal closed waiting found s)
    (hr : Search.bound graph ≤ remaining + closed.length) :
    ∃ taken outcome closed' waiting' found' s', Search.Ends graph goal s taken outcome ∧
      Searching graph start goal closed' waiting' found' s' ∧ Concludes goal s' waiting' outcome ∧
      closed.map Trail.position ++ taken = (closed' ++ waiting'.take 1).map Trail.position := by
  induction remaining generalizing closed waiting found s with
  | zero =>
    have hlt := h.length_taken_lt
    rw [List.length_append] at hlt
    omega
  | succ remaining ih =>
    cases waiting with
    | nil =>
      have hends : Search.Ends graph goal s [] _ := .exhausted (Search.dequeue?_of_queue_nil h.queue)
      exact ⟨[], _, closed, [], found, s, hends, h, .exhausted, by simp⟩
    | cons t waiting =>
      by_cases ht : t.position = goal
      · obtain ⟨s', hd, _, _, hex, hev⟩ := Search.dequeue?_of_queue_cons h.queue
        have hends : Search.Ends graph goal s [t.position] _ := .arrived hd ht
        rw [hex, hev] at hends
        exact ⟨[t.position], _, closed, t :: waiting, found, s, hends, h, .arrived ht, by simp⟩
      · obtain ⟨s', new, hd, h'⟩ := h.expand ht
        obtain ⟨taken, outcome, closed', waiting', found', s'', hends, hs, hc, htaken⟩ := ih h'
          (by rw [List.length_append, List.length_singleton]; omega)
        exact ⟨t.position :: taken, outcome, closed', waiting', found', s'', .further hd ht hends, hs, hc,
          by simpa using htaken⟩

end

def Answer.ofOutcome (start : Position) (outcome : Option Route × List Event) : Answer :=
  { path := outcome.1.map fun r => ⟨start.weight, r.position, r.reversed.reverse⟩
    events := outcome.2.reverse }

/-- The answer is that of a search without a bound, which ends. -/
theorem find_ends (graph : Graph) (start goal : Position) :
    ∃ outcome closed waiting found s, Searching graph start goal closed waiting found s ∧
      Search.Ends graph goal { front := [⟨start, []⟩] }
        ((closed ++ waiting.take 1).map Trail.position) outcome ∧
      Concludes goal s waiting outcome ∧ find graph start goal = .ofOutcome start outcome := by
  obtain ⟨taken, outcome, closed, waiting, found, s, hends, h, hc, htaken⟩ :=
    (searching_origin graph start goal).ends (Search.bound graph) (by simp)
  rw [List.map_nil, List.nil_append] at htaken
  subst htaken
  refine ⟨outcome, closed, waiting, found, s, h, hends, hc, ?_⟩
  have hlength : ((closed ++ waiting.take 1).map Trail.position).length ≤ Search.bound graph := by
    rw [List.length_map]
    exact Nat.le_of_lt h.length_taken_lt
  rw [find, hends.loop_eq hlength]
  rfl

end WordMachine.Vault
