import Mathlib.Order.Bounds.Defs
import WordMachine.Proofs.Teleporter.Tabulation
import WordMachine.Teleporter.Search

/-!
# The least seed

One table serves all the seeds of a search. It does not matter what it held for the seeds before,
so the answer is the first seed of the range for which the function has the wanted value
(`find?_least`).
-/

namespace WordMachine.Teleporter

theorem seedOf_ofNat {seed : Nat} (h : seed < 32768) : (seedOf (UInt16.ofNat seed)).val = seed := by
  simp only [seedOf, Fin.val_ofNat, UInt16.toNat_ofNat', Word.modulus]
  omega

namespace Query

def Confirms (q : Query) (seed : Nat) : Prop := confirm seed q.row q.column = q.result.toNat

instance (q : Query) : DecidablePred q.Confirms := fun _ => inferInstanceAs (Decidable (_ = _))

/-- The seeds of a range that are looked for. -/
def keys (q : Query) (first bound : Nat) : Set Nat :=
  {seed | first ≤ seed ∧ seed < min bound 32768 ∧ q.Confirms seed}

variable {q : Query} {table : Table} {first bound seed : Nat}

theorem mem_seeds : seed ∈ seeds first bound ↔ first ≤ seed ∧ seed < min bound 32768 := by
  rw [seeds, List.mem_range'_1, Word.modulus]
  omega

theorem accepts_compute (hrows : table.rows = q.row + 1) (hcolumn : q.column < 32768) (hseed : seed < 32768) :
    q.accepts (table.compute (UInt16.ofNat seed)) = decide (q.Confirms seed) := by
  have htable := Table.tabulates_compute table (UInt16.ofNat seed)
  rw [hrows, Nat.add_sub_cancel] at htable
  have hcell := Table.get?_of_tabulates htable hcolumn
  rw [seedOf_ofNat hseed, Option.map_eq_some_iff] at hcell
  obtain ⟨cell, hget, hvalue⟩ := hcell
  rw [accepts, hget, Option.any_some, hvalue]
  rfl

theorem search_eq_find? (hrows : table.rows = q.row + 1) (hcolumn : q.column < 32768) {seeds : List Nat}
    (hseeds : ∀ seed ∈ seeds, seed < 32768) :
    q.search table seeds = seeds.find? fun seed => decide (q.Confirms seed) := by
  induction seeds generalizing table with
  | nil => rfl
  | cons seed rest ih =>
    obtain ⟨hseed, hrest⟩ := List.forall_mem_cons.mp hseeds
    -- the next seed finds the table as this one leaves it
    have hnext := (Table.rows_compute table (UInt16.ofNat seed)).trans hrows
    rw [search, accepts_compute hrows hcolumn hseed, ih hnext hrest, List.find?_cons]
    by_cases h : q.Confirms seed <;> simp [h]

theorem find?_eq (q : Query) (first bound : Nat) :
    q.find? first bound =
      if q.column < 32768 then (seeds first bound).find? fun seed => decide (q.Confirms seed) else none := by
  unfold find?
  by_cases hcolumn : q.column < 32768
  · rw [if_pos hcolumn, if_pos hcolumn]
    apply search_eq_find? (Nat.max_eq_left (Nat.le_add_left 1 q.row)) hcolumn
    intro seed hseed
    have := (mem_seeds.mp hseed).2
    omega
  · rw [if_neg hcolumn, if_neg hcolumn]

theorem find?_eq_some_iff :
    q.find? first bound = some seed ↔ q.column < 32768 ∧ IsLeast (q.keys first bound) seed := by
  rw [find?_eq]
  by_cases hcolumn : q.column < 32768
  · have hleast : (seeds first bound).find? (fun seed => decide (q.Confirms seed)) = some seed ↔
        q.Confirms seed ∧ seed ∈ seeds first bound ∧ ∀ other, first ≤ other → other < seed →
          ¬ q.Confirms other := by
      simp only [seeds, List.find?_range'_eq_some, decide_eq_true_eq, Bool.not_eq_true',
        decide_eq_false_iff_not]
    rw [if_pos hcolumn, hleast, mem_seeds]
    refine ⟨?_, ?_⟩
    · intro ⟨hkey, ⟨hfirst, hbound⟩, hbefore⟩
      refine ⟨hcolumn, ⟨hfirst, hbound, hkey⟩, ?_⟩
      intro other ⟨hother, _, hconfirms⟩
      exact Nat.le_of_not_lt fun hlt => hbefore other hother hlt hconfirms
    · intro ⟨_, ⟨hfirst, hbound, hkey⟩, hlower⟩
      refine ⟨hkey, ⟨hfirst, hbound⟩, ?_⟩
      intro other hother hlt hconfirms
      exact Nat.not_le_of_lt hlt (hlower ⟨hother, by omega, hconfirms⟩)
  · simp [hcolumn]

theorem find?_eq_none_iff :
    q.find? first bound = none ↔ ¬ (q.column < 32768 ∧ (q.keys first bound).Nonempty) := by
  rw [find?_eq]
  by_cases hcolumn : q.column < 32768
  · rw [if_pos hcolumn, List.find?_eq_none, not_and]
    simp only [decide_eq_true_eq]
    refine ⟨?_, ?_⟩
    · intro hno _ ⟨seed, hfirst, hbound, hkey⟩
      exact hno seed (mem_seeds.mpr ⟨hfirst, hbound⟩) hkey
    · intro hempty seed hseed hkey
      obtain ⟨hfirst, hbound⟩ := mem_seeds.mp hseed
      exact hempty hcolumn ⟨seed, hfirst, hbound, hkey⟩
  · simp [hcolumn]

/-- A search answers with the least seed of its range for which the function has the result, and with
nothing if there is none. Seeds that no register can hold are in no range. -/
theorem find?_least (q : Query) (first bound : Nat) :
    (∀ seed, q.find? first bound = some seed ↔ q.column < 32768 ∧
      IsLeast {s | first ≤ s ∧ s < min bound 32768 ∧ confirm s q.row q.column = q.result.toNat} seed) ∧
    (q.find? first bound = none ↔ ¬ (q.column < 32768 ∧
      ∃ s, first ≤ s ∧ s < min bound 32768 ∧ confirm s q.row q.column = q.result.toNat)) ∧
    (∀ seed, q.find? 0 32768 = some seed ↔ q.column < 32768 ∧
      IsLeast {s | s < 32768 ∧ confirm s q.row q.column = q.result.toNat} seed) ∧
    (q.find? 0 32768 = none ↔
      ¬ (q.column < 32768 ∧ ∃ s, s < 32768 ∧ confirm s q.row q.column = q.result.toNat)) := by
  have hall : q.keys 0 32768 = {s | s < 32768 ∧ confirm s q.row q.column = q.result.toNat} := by
    ext s
    simp [keys, Confirms]
  refine ⟨fun seed => find?_eq_some_iff, find?_eq_none_iff, fun seed => ?_, ?_⟩
  · rw [← hall]
    exact find?_eq_some_iff
  · rw [find?_eq_none_iff, hall]
    rfl

end Query

end WordMachine.Teleporter
