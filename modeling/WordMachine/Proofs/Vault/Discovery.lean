import Mathlib.Data.List.Perm.Subperm
import WordMachine.Proofs.Vault.Trail

/-!
# What a search has discovered

The trails of a search are those it has closed, that is taken from the queue and expanded, followed
by those that wait. Together they are the origin and the trails found since, in the order of their
choices (`Discovered`).
-/

namespace WordMachine.Vault

namespace Search

def queue (s : Search) : List Route := s.front ++ s.back.reverse

theorem dequeue?_of_queue_nil {s : Search} (h : s.queue = []) : s.dequeue? = none := by
  unfold queue at h
  obtain ⟨hf, hb⟩ := List.append_eq_nil_iff.mp h
  unfold dequeue?
  rw [hf, hb]

theorem dequeue?_of_queue_cons {s : Search} {route : Route} {rest : List Route}
    (h : s.queue = route :: rest) :
    ∃ s', s.dequeue? = some (route, s') ∧ s'.queue = rest ∧ s'.entered = s.entered ∧
      s'.explored = s.explored + 1 ∧ s'.events = s.events := by
  unfold queue at h
  unfold dequeue?
  cases hf : s.front with
  | cons first front =>
    rw [hf, List.cons_append] at h
    obtain ⟨rfl, rfl⟩ := List.cons.inj h
    exact ⟨_, rfl, rfl, rfl, rfl, rfl⟩
  | nil =>
    rw [hf, List.nil_append] at h
    simp only [h]
    exact ⟨_, rfl, by simp [queue], rfl, rfl, rfl⟩

end Search

/-! ## Discovered trails -/

section
variable (graph : Graph) (start : Position)

structure Discovered (closed waiting found : List Trail) (s : Search) : Prop where
  all : closed ++ waiting = .origin start :: found
  queue : s.queue = waiting.map Trail.route
  explored : s.explored = closed.length
  events : s.events = (found.map fun u => Event.entered u.position).reverse
  entered : ∀ p, p ∈ s.entered ↔ ∃ u ∈ found, u.position = p
  distinct : (found.map Trail.position).Nodup
  walks : ∀ u ∈ found, u.Walks graph start
  ordered : (Trail.origin start :: found).Pairwise Trail.Before

end

section
variable {graph : Graph} {start goal : Position} {closed waiting found : List Trail} {s : Search}

theorem Discovered.enter (h : Discovered graph start closed waiting found s) {v : Trail}
    (hv : v.Walks graph start) (hlater : ∀ u ∈ Trail.origin start :: found, u.Before v) :
    ∃ new, Discovered graph start closed (waiting ++ new) (found ++ new) (s.enter v.route) ∧
      (∀ u ∈ new, u = v) ∧ ∃ u ∈ found ++ new, u.position = v.position ∧ NoLater u.choices v.choices := by
  unfold Search.enter
  by_cases hm : v.position ∈ s.entered
  · rw [if_pos (Std.HashSet.contains_iff_mem.mpr hm)]
    obtain ⟨u, hu, hp⟩ := (h.entered _).mp hm
    refine ⟨[], by simpa using h, by simp, u, by simpa using hu, hp, ?_⟩
    exact Or.inr (hlater u (List.mem_cons_of_mem _ hu))
  · rw [if_neg (fun hc => hm (Std.HashSet.contains_iff_mem.mp hc))]
    refine ⟨[v], ?_, by simp, v, by simp, rfl, Or.inl rfl⟩
    refine ⟨?_, ?_, ?_, ?_, ?_, ?_, ?_, ?_⟩
    · rw [← List.append_assoc, h.all, List.cons_append]
    · have hq := h.queue
      unfold Search.queue at hq ⊢
      rw [List.reverse_cons, ← List.append_assoc, hq, List.map_append]
      rfl
    · exact h.explored
    · simp [h.events]
    · intro p
      rw [Std.HashSet.mem_insert, beq_iff_eq, h.entered]
      refine ⟨?_, ?_⟩
      · intro hp
        rcases hp with hp | ⟨u, hu, hp⟩
        · exact ⟨v, by simp, hp⟩
        · exact ⟨u, List.mem_append_left _ hu, hp⟩
      · intro ⟨u, hu, hp⟩
        rcases List.mem_append.mp hu with hu | hu
        · exact Or.inr ⟨u, hu, hp⟩
        · exact Or.inl (List.mem_singleton.mp hu ▸ hp)
    · rw [List.map_append, List.nodup_append]
      refine ⟨h.distinct, by simp, ?_⟩
      intro p hp q hq hpq
      obtain ⟨u, hu, rfl⟩ := List.mem_map.mp hp
      simp only [List.map_cons, List.map_nil, List.mem_singleton] at hq
      exact hm ((h.entered _).mpr ⟨u, hu, hpq.trans hq⟩)
    · intro u hu
      rcases List.mem_append.mp hu with hu | hu
      · exact h.walks u hu
      · exact List.mem_singleton.mp hu ▸ hv
    · rw [← List.cons_append, List.pairwise_append]
      refine ⟨h.ordered, by simp, ?_⟩
      intro u hu w hw
      exact List.mem_singleton.mp hw ▸ hlater u hu

/-- The trails must be given in order, all behind those that were found before. -/
theorem Discovered.foldl_enter {todo : List Trail} (h : Discovered graph start closed waiting found s)
    (hwalks : ∀ v ∈ todo, v.Walks graph start) (hsorted : todo.Pairwise Trail.Before)
    (hlater : ∀ v ∈ todo, ∀ u ∈ Trail.origin start :: found, u.Before v) :
    ∃ new, Discovered graph start closed (waiting ++ new) (found ++ new)
        ((todo.map Trail.route).foldl Search.enter s) ∧ (∀ u ∈ new, u ∈ todo) ∧
      ∀ v ∈ todo, ∃ u ∈ found ++ new, u.position = v.position ∧ NoLater u.choices v.choices := by
  induction todo generalizing waiting found s with
  | nil => exact ⟨[], by simpa using h, by simp, by simp⟩
  | cons v todo ih =>
    obtain ⟨hv, hsorted⟩ := List.pairwise_cons.mp hsorted
    obtain ⟨one, h1, hone, u, hu, hup, huv⟩ :=
      h.enter (hwalks v (by simp)) (hlater v (by simp))
    have hlater1 : ∀ w ∈ todo, ∀ u ∈ Trail.origin start :: (found ++ one), u.Before w := by
      intro w hw u hu
      rw [← List.cons_append] at hu
      rcases List.mem_append.mp hu with hu | hu
      · exact hlater w (by simp [hw]) u hu
      · rw [hone u hu]; exact hv w hw
    obtain ⟨new, h2, hnew, hreach⟩ := ih h1 (fun w hw => hwalks w (by simp [hw])) hsorted hlater1
    rw [List.append_assoc, List.append_assoc] at h2
    refine ⟨one ++ new, h2, ?_, ?_⟩
    · intro u hu
      rcases List.mem_append.mp hu with hu | hu
      · simp [hone u hu]
      · exact List.mem_cons_of_mem _ (hnew u hu)
    · intro w hw
      rw [← List.append_assoc]
      rcases List.mem_cons.mp hw with rfl | hw
      · exact ⟨u, List.mem_append_left _ hu, hup, huv⟩
      · exact hreach w hw

theorem Discovered.dequeue {t : Trail} (h : Discovered graph start closed (t :: waiting) found s) :
    ∃ s', s.dequeue? = some (t.route, s') ∧ Discovered graph start (closed ++ [t]) waiting found s' := by
  obtain ⟨s', hd, hq, hen, hex, hev⟩ :=
    Search.dequeue?_of_queue_cons (s := s) (by rw [h.queue, List.map_cons])
  refine ⟨s', hd, ?_, hq, ?_, ?_, ?_, h.distinct, h.walks, h.ordered⟩
  · rw [List.append_assoc]; exact h.all
  · rw [hex, h.explored, List.length_append, List.length_singleton]
  · rw [hev, h.events]
  · rw [hen]; exact h.entered

theorem Discovered.mem_found (h : Discovered graph start closed waiting found s) {t : Trail}
    (ht : t ∈ closed ∨ t ∈ waiting) : t = .origin start ∨ t ∈ found := by
  rw [← List.mem_append, h.all] at ht
  exact List.mem_cons.mp ht

theorem Discovered.of_mem_found (h : Discovered graph start closed waiting found s) {t : Trail}
    (ht : t = .origin start ∨ t ∈ found) : t ∈ closed ∨ t ∈ waiting := by
  rw [← List.mem_append, h.all]
  exact List.mem_cons.mpr ht

theorem Discovered.walks_of_mem (h : Discovered graph start closed waiting found s) {t : Trail}
    (ht : t ∈ closed ∨ t ∈ waiting) : t.Walks graph start := by
  rcases h.mem_found ht with rfl | ht
  · exact .here
  · exact h.walks t ht

end

end WordMachine.Vault
