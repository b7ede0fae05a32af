import Mathlib.Data.List.TakeWhile
import WordMachine.Proofs.Disassembly.Fields
import WordMachine.Vault.Search

/-!
# What traces tell

In a trace a number ends where the next sign stands, and a minus sign belongs to a number exactly if none
of its digits stand in front of it. So a trace is cut into a starting weight and operations in one way
only (`trace_eq_iff`).
-/

namespace WordMachine

namespace Text

/-- No digit stands in front, which could be taken for one more of a numeral before. -/
def Apart (rest : List Char) : Prop := ∀ c ∈ rest.head?, c.isDigit = false

section
variable {s t : List Char}

theorem span_decimal_append (n : Nat) (hs : Apart s) :
    ((decimal n).toList ++ s).takeWhile Char.isDigit = (decimal n).toList ∧
      ((decimal n).toList ++ s).dropWhile Char.isDigit = s := by
  have hdigits : ∀ c ∈ (decimal n).toList, c.isDigit = true := fun c => isDigit_of_mem_decimal
  rw [List.takeWhile_append_of_pos hdigits, List.dropWhile_append_of_pos hdigits]
  cases s with
  | nil => simp
  | cons c s =>
    have hc : c.isDigit = false := hs c rfl
    simp [hc]

theorem decimal_append_cancel {m n : Nat} (hs : Apart s) (ht : Apart t)
    (h : (decimal m).toList ++ s = (decimal n).toList ++ t) : m = n ∧ s = t := by
  obtain ⟨hm, hrest⟩ := span_decimal_append m hs
  obtain ⟨hn, hrest'⟩ := span_decimal_append n ht
  rw [h, hn] at hm
  rw [h, hrest'] at hrest
  exact ⟨decimal_injective (String.toList_injective hm.symm), hrest.symm⟩

theorem decimal_append_ne_minus (n : Nat) : (decimal n).toList ++ s ≠ '-' :: t := by
  intro h
  obtain ⟨c, digits, hd⟩ := List.exists_cons_of_ne_nil (solid_decimal n).1
  have hc : c.isDigit = true := isDigit_of_mem_decimal (hd ▸ List.mem_cons_self)
  rw [hd] at h
  cases h
  cases hc

/-- Only one number, with its sign, can stand before what is apart from it. -/
theorem signedDecimal_append_cancel {m n : Int} (hs : Apart s) (ht : Apart t)
    (h : (signedDecimal m).toList ++ s = (signedDecimal n).toList ++ t) : m = n ∧ s = t := by
  cases m with
  | ofNat m =>
    cases n with
    | ofNat n =>
      obtain ⟨rfl, hrest⟩ := decimal_append_cancel hs ht h
      exact ⟨rfl, hrest⟩
    | negSucc n =>
      rw [signedDecimal, signedDecimal, String.toList_append] at h
      exact absurd h (decimal_append_ne_minus m)
  | negSucc m =>
    cases n with
    | ofNat n =>
      rw [signedDecimal, signedDecimal, String.toList_append] at h
      exact absurd h.symm (decimal_append_ne_minus n)
    | negSucc n =>
      rw [signedDecimal, signedDecimal, String.toList_append, String.toList_append] at h
      obtain ⟨hm, hrest⟩ := decimal_append_cancel hs ht (List.cons.inj h).2
      obtain rfl := Nat.succ.inj hm
      exact ⟨rfl, hrest⟩

end

end Text

namespace Vault

open Text (Apart signedDecimal)

namespace OperationKind

theorem sign_injective {k k' : OperationKind} (h : k.sign = k'.sign) : k = k' := by
  have hk := ofSign?_eq_some_iff.mpr (rfl : k.sign = k.sign)
  rw [h, ofSign?_eq_some_iff.mpr rfl] at hk
  exact (Option.some.inj hk).symm

theorem not_isDigit_sign (k : OperationKind) : k.sign.isDigit = false := by
  cases k <;> rfl

end OperationKind

namespace Operation

theorem toList_text (op : Operation) :
    op.text.toList = op.kind.sign :: (signedDecimal op.argument).toList := by
  rw [text, String.toList_append, String.toList_singleton]
  rfl

/-- The characters of operations that stand one after the other. -/
def chars (ops : List Operation) : List Char := ops.flatMap fun op => op.text.toList

theorem chars_cons (op : Operation) (ops : List Operation) :
    chars (op :: ops) = op.kind.sign :: ((signedDecimal op.argument).toList ++ chars ops) := by
  rw [chars, List.flatMap_cons, toList_text]
  rfl

theorem apart_chars (ops : List Operation) : Apart (chars ops) := by
  intro c hc
  cases ops with
  | nil => cases hc
  | cons op ops =>
    rw [chars_cons] at hc
    cases hc
    exact op.kind.not_isDigit_sign

theorem chars_injective {ops others : List Operation} (h : chars ops = chars others) : ops = others := by
  induction ops generalizing others with
  | nil =>
    cases others with
    | nil => rfl
    | cons other others =>
      rw [chars_cons] at h
      cases h
  | cons op ops ih =>
    cases others with
    | nil =>
      rw [chars_cons] at h
      cases h
    | cons other others =>
      rw [chars_cons, chars_cons] at h
      obtain ⟨hsign, hbehind⟩ := List.cons.inj h
      obtain ⟨hargument, hrest⟩ :=
        Text.signedDecimal_append_cancel (apart_chars ops) (apart_chars others) hbehind
      have hop : op = other := by
        obtain ⟨kind, argument⟩ := op
        obtain ⟨kind', argument'⟩ := other
        exact congrArg₂ mk (OperationKind.sign_injective hsign) hargument
      rw [hop, ih hrest]

end Operation

namespace Path

theorem toList_trace (path : Path) :
    path.trace.toList = (signedDecimal path.start).toList ++ Operation.chars path.operations := by
  have hjoin :
      (String.join (path.operations.map Operation.text)).toList = Operation.chars path.operations := by
    induction path.operations with
    | nil => rfl
    | cons op ops ih =>
      rw [List.map_cons, String.join_cons, String.toList_append, ih]
      rfl
  rw [trace, String.toList_append, hjoin]

/-- Two paths have the same trace exactly if they begin with the same weight and apply the same operations
in the same order, whatever the signs of the weights and arguments. -/
theorem trace_eq_iff (p q : Path) : p.trace = q.trace ↔ p.start = q.start ∧ p.operations = q.operations := by
  refine ⟨?_, ?_⟩
  · intro h
    have hchars := congrArg String.toList h
    rw [toList_trace, toList_trace] at hchars
    obtain ⟨hstart, hrest⟩ := Text.signedDecimal_append_cancel (Operation.apart_chars p.operations)
      (Operation.apart_chars q.operations) hchars
    exact ⟨hstart, Operation.chars_injective hrest⟩
  · intro ⟨hstart, hoperations⟩
    rw [trace, trace, hstart, hoperations]

/-- Minus signs of both sorts, next to one another. -/
example :
    trace ⟨-5, ⟨"A", 0⟩, [⟨.subtract, -4⟩, ⟨.subtract, 4⟩, ⟨.add, -2147483648⟩]⟩ = "-5--4-4+-2147483648" := by
  decide +kernel

end Path

end Vault

end WordMachine
