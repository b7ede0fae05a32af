import Mathlib.Data.List.Shortlex
import WordMachine.Vault.Search

/-!
# Walks through a graph

A walk is told by its choices: at each position an edge out of the room and one of its
destinations, both by their places. Weights are exact numbers, and every weight but the first
stays within the range of a register. Walks are compared by length, then by their choices.
-/

namespace WordMachine.Vault

structure Choice where
  edge : Nat
  destination : Nat
  deriving DecidableEq, Repr

def Choice.Before (c d : Choice) : Prop :=
  c.edge < d.edge ∨ c.edge = d.edge ∧ c.destination < d.destination

/-- The choice leads from `p` to `q` and applies `op`. -/
def Move (graph : Graph) (p : Position) (choice : Choice) (op : Operation) (q : Position) : Prop :=
  ∃ edge, (graph.edges p.room)[choice.edge]? = some edge ∧ edge.operation = op ∧
    edge.destinations[choice.destination]? = some q.room ∧
    q.weight = op.kind.eval p.weight op.argument ∧ 0 ≤ q.weight ∧ q.weight ≤ 32767

inductive Walk (graph : Graph) (start : Position) : List Choice → List Operation → Position → Prop
  | here : Walk graph start [] [] start
  | onward {choices ops p choice op q} : Walk graph start choices ops p → Move graph p choice op q →
      Walk graph start (choices ++ [choice]) (ops ++ [op]) q

theorem Walk.length_eq {graph : Graph} {start p : Position} {choices : List Choice} {ops : List Operation}
    (h : Walk graph start choices ops p) : ops.length = choices.length := by
  induction h with
  | here => rfl
  | onward _ _ ih => simp [ih]

theorem weigh?_eq_some_iff {op : Operation} {v w : Int} :
    Search.weigh? op v = some w ↔ w = op.kind.eval v op.argument ∧ 0 ≤ w ∧ w ≤ 32767 := by
  simp only [Search.weigh?, Operation.result?, Option.filter_eq_some_iff, Bool.and_eq_true, decide_eq_true_eq]
  refine ⟨?_, ?_⟩
  · intro ⟨h, h0, h1⟩
    split at h
    · exact ⟨(Option.some.inj h).symm, h0, by simp only [Word.modulus] at h1; omega⟩
    · cases h
  · intro ⟨h, h0, h1⟩
    have hr : least ≤ op.kind.eval v op.argument ∧ op.kind.eval v op.argument ≤ greatest := by
      rw [← h]
      simp only [least, greatest]
      omega
    rw [if_pos hr, h]
    exact ⟨rfl, h ▸ h0, by rw [← h]; simp only [Word.modulus]; omega⟩

/-! ## The order of walks -/

abbrev Earlier : List Choice → List Choice → Prop := List.Shortlex Choice.Before

theorem Choice.Before.trans {a b c : Choice} (h : a.Before b) (h' : b.Before c) : a.Before c := by
  unfold Choice.Before at *; omega

theorem Earlier.trans {a b c : List Choice} (h : Earlier a b) (h' : Earlier b c) : Earlier a c := by
  rcases List.shortlex_def.mp h with hl | ⟨hl, hx⟩
  · rcases List.shortlex_def.mp h' with hl' | ⟨hl', _⟩ <;> exact .of_length_lt (by omega)
  · rcases List.shortlex_def.mp h' with hl' | ⟨hl', hx'⟩
    · exact .of_length_lt (by omega)
    · exact .of_lex (by omega) (List.lex_trans Choice.Before.trans hx hx')

theorem Earlier.length_le {a b : List Choice} (h : Earlier a b) : a.length ≤ b.length := by
  rcases List.shortlex_def.mp h with hl | ⟨hl, _⟩ <;> omega

theorem lex_append {a b : List Choice} (h : List.Lex Choice.Before a b) (hl : a.length = b.length)
    (u v : List Choice) : List.Lex Choice.Before (a ++ u) (b ++ v) := by
  induction h with
  | nil => simp at hl
  | cons _ ih => exact .cons (ih (by simpa using hl))
  | rel h => exact .rel h

/-- The last choice only matters between walks that agree before it. -/
theorem Earlier.snoc {a b : List Choice} (h : Earlier a b) (x y : Choice) :
    Earlier (a ++ [x]) (b ++ [y]) := by
  rcases List.shortlex_def.mp h with hl | ⟨hl, hx⟩
  · exact .of_length_lt (by simp; omega)
  · exact .of_lex (by simp [hl]) (lex_append hx hl [x] [y])

/-- The same choices, or earlier ones. -/
def NoLater (a b : List Choice) : Prop := a = b ∨ Earlier a b

theorem NoLater.trans {a b c : List Choice} (h : NoLater a b) (h' : NoLater b c) : NoLater a c := by
  rcases h with rfl | h
  · exact h'
  · rcases h' with rfl | h'
    · exact Or.inr h
    · exact Or.inr (h.trans h')

theorem NoLater.snoc {a b : List Choice} (h : NoLater a b) (x : Choice) : NoLater (a ++ [x]) (b ++ [x]) := by
  rcases h with rfl | h
  · exact Or.inl rfl
  · exact Or.inr (h.snoc x x)

theorem NoLater.length_le {a b : List Choice} (h : NoLater a b) : a.length ≤ b.length := by
  rcases h with rfl | h
  · exact Nat.le_refl _
  · exact h.length_le

theorem earlier_snoc (a : List Choice) (x : Choice) : Earlier a (a ++ [x]) :=
  .of_length_lt (by simp)

theorem earlier_snoc_of_before (a : List Choice) {x y : Choice} (h : x.Before y) :
    Earlier (a ++ [x]) (a ++ [y]) :=
  List.Shortlex.append_left ((List.shortlex_singleton_iff x y).mpr h) a

end WordMachine.Vault
