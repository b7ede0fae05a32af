import WordMachine.Text.Numeral

/-!
# Fields of a line

The fields of a text are its pieces between blanks. A text of one line that is put together from
pieces without blanks has just these as its fields, however many blanks part them, so two such texts
are the same only if they are made of the same pieces (`Fields.unique`).
-/

namespace WordMachine.Text

/-- A piece of a line: at least one character, and none that ends the piece or the line. -/
def Solid (piece : List Char) : Prop := piece ≠ [] ∧ ' ' ∉ piece ∧ '\n' ∉ piece

instance : DecidablePred Solid := fun _ => inferInstanceAs (Decidable (_ ∧ _ ∧ _))

structure Fields (text : List Char) (fields : List (List Char)) : Prop where
  split : (text.splitOn ' ').filter (· ≠ []) = fields
  line : '\n' ∉ text

namespace Fields

variable {text : List Char} {fields : List (List Char)}

theorem unique {others : List (List Char)} (h : Fields text fields) (h' : Fields text others) :
    fields = others :=
  h.split.symm.trans h'.split

theorem nil : Fields [] [] := ⟨rfl, List.not_mem_nil⟩

theorem single {piece : List Char} (h : Solid piece) : Fields piece [piece] where
  split := by
    rw [List.splitOn_eq_singleton h.2.1]
    simp [h.1]
  line := h.2.2

theorem append {front back : List Char} {left right : List (List Char)} (hf : Fields front left)
    (hb : Fields back right) : Fields (front ++ ' ' :: back) (left ++ right) where
  split := by
    rw [List.splitOn_append_cons_self, List.filter_append, hf.split, hb.split]
  line := by simp [hf.line, hb.line]

theorem pad (h : Fields text fields) (count : Nat) : Fields (text ++ List.replicate count ' ') fields := by
  induction count generalizing text fields with
  | zero => simpa using h
  | succ count ih => simpa [List.replicate_succ] using ih (h.append nil)

theorem join {pieces : List (List Char)} (h : ∀ piece ∈ pieces, Solid piece) :
    Fields ([' '].intercalate pieces) pieces := by
  induction pieces with
  | nil => exact nil
  | cons piece rest ih =>
    obtain ⟨hp, hr⟩ := List.forall_mem_cons.mp h
    cases rest with
    | nil => simpa using single hp
    | cons next rest => simpa using (single hp).append (ih hr)

end Fields

/-! ## Numerals -/

theorem decimal_injective {m n : Nat} (h : decimal m = decimal n) : m = n := by
  have hm := digitsValue?_toDigits (by decide : 1 < 10) (by decide) m
  rw [String.ofList_injective h, digitsValue?_toDigits (by decide) (by decide)] at hm
  exact (Option.some.inj hm).symm

theorem digitsValue?_padLeft_decimal (width n : Nat) :
    digitsValue? 10 0 (padLeft '0' width (decimal n)).toList = some n := by
  rw [padLeft, String.toList_append, String.toList_ofList, decimal, String.toList_ofList,
    digitsValue?_replicate_zero 10 _ (by decide), digitsValue?_toDigits (by decide) (by decide)]

theorem padLeft_decimal_injective {width m n : Nat}
    (h : padLeft '0' width (decimal m) = padLeft '0' width (decimal n)) : m = n := by
  have hm := digitsValue?_padLeft_decimal width m
  rw [h, digitsValue?_padLeft_decimal] at hm
  exact (Option.some.inj hm).symm

theorem solid_of_digits {piece : List Char} (hne : piece ≠ []) (h : ∀ c ∈ piece, c.isDigit = true) :
    Solid piece := by
  have hnot : ∀ c : Char, c.isDigit = false → c ∉ piece := by
    intro c hc hm
    rw [h c hm] at hc
    cases hc
  exact ⟨hne, hnot ' ' (by decide), hnot '\n' (by decide)⟩

theorem isDigit_of_mem_decimal {n : Nat} {c : Char} (h : c ∈ (decimal n).toList) : c.isDigit = true := by
  rw [decimal, String.toList_ofList] at h
  exact Nat.isDigit_of_mem_toDigits (by decide) (by decide) h

theorem solid_decimal (n : Nat) : Solid (decimal n).toList := by
  apply solid_of_digits _ fun c => isDigit_of_mem_decimal
  rw [decimal, String.toList_ofList]
  exact List.ne_nil_of_length_pos Nat.length_toDigits_pos

theorem solid_padLeft_decimal (width n : Nat) : Solid (padLeft '0' width (decimal n)).toList := by
  apply solid_of_digits
  · rw [padLeft, String.toList_append]
    exact List.append_ne_nil_of_right_ne_nil _ (solid_decimal n).1
  · intro c hc
    rw [padLeft, String.toList_append, String.toList_ofList, List.mem_append] at hc
    rcases hc with hc | hc
    · rw [List.eq_of_mem_replicate hc]
      rfl
    · exact isDigit_of_mem_decimal hc

theorem Fields.number {front : String} {fields : List (List Char)} (h : Fields front.toList fields)
    (n : Nat) : Fields (front ++ " " ++ decimal n).toList (fields ++ [(decimal n).toList]) := by
  rw [String.append_assoc, String.toList_append, String.toList_append]
  exact h.append (single (solid_decimal n))

end WordMachine.Text
