import WordMachine.Input.LineBuffer

/-!
# Bytes and lines

A stream of bytes is cut at its line feeds. `normalise` makes every end of a line a single line
feed; then the codes of the stream are those of its lines, each followed by code 10, which no line
contains (`exists_lines`).
-/

namespace WordMachine

namespace Text.Utf8

/-- The bits so far and any next byte that fits make at least 16, so no line feed comes of them. -/
def State.Wide : State → Prop
  | .between => True
  | .within value _ low high => 0x80 ≤ low.toNat ∧ high.toNat ≤ 0xBF ∧ 16 ≤ value * 64 + (low.toNat - 0x80)

instance : DecidablePred State.Wide
  | .between => isTrue trivial
  | .within _ _ _ _ => inferInstanceAs (Decidable (_ ∧ _ ∧ _))

theorem forall_byte {P : UInt8 → Prop} (h : ∀ k : Fin 256, P (UInt8.ofNat k.val)) (b : UInt8) : P b := by
  have := h ⟨b.toNat, b.toNat_lt⟩
  rwa [UInt8.ofNat_toNat] at this

theorem toNat_and_of_continuation {b : UInt8} :
    0x80 ≤ b.toNat → b.toNat ≤ 0xBF → (b &&& 0x3F).toNat = b.toNat - 0x80 := by
  apply forall_byte (P := fun b => 0x80 ≤ b.toNat → b.toNat ≤ 0xBF → (b &&& 0x3F).toNat = b.toNat - 0x80)
  decide +kernel

theorem wide_lead (b : UInt8) : (lead b).2.Wide := by
  apply forall_byte (P := fun b => (lead b).2.Wide)
  decide +kernel

theorem newline_not_mem_lead {b : UInt8} : b ≠ 10 → '\n' ∉ (lead b).1 := by
  apply forall_byte (P := fun b => b ≠ 10 → '\n' ∉ (lead b).1)
  decide +kernel

theorem ofNat_ne_newline {n : Nat} (h : 16 ≤ n) : '\n' ≠ Char.ofNat n := by
  intro he
  have h10 : '\n'.toNat = 10 := rfl
  by_cases hv : n.isValidChar
  · have hn : (Char.ofNat n).toNat = n := congrArg Char.toNat (dif_pos hv)
    rw [← he] at hn
    omega
  · have hn : (Char.ofNat n).toNat = 0 := congrArg Char.toNat (dif_neg hv)
    rw [← he] at hn
    omega

theorem newline_not_mem_step {state : State} (h : state.Wide) {b : UInt8} (hb : b ≠ 10) :
    '\n' ∉ (step state b).1 ∧ (step state b).2.Wide := by
  cases state with
  | between => exact ⟨newline_not_mem_lead hb, wide_lead b⟩
  | within value missing low high =>
    obtain ⟨hlow, hhigh, hwide⟩ := h
    by_cases hfit : low ≤ b ∧ b ≤ high
    · have hl := UInt8.le_iff_toNat_le.mp hfit.1
      have hh := UInt8.le_iff_toNat_le.mp hfit.2
      have hbits : 16 ≤ value * 64 + (b &&& 0x3F).toNat := by
        rw [toNat_and_of_continuation (by omega) (by omega)]
        omega
      by_cases hm : missing ≤ 1
      · simp only [step, hfit, hm, and_self, if_true]
        exact ⟨by simpa only [List.mem_singleton] using ofNat_ne_newline hbits, trivial⟩
      · simp only [step, hfit, hm, and_self, if_true, if_false]
        exact ⟨List.not_mem_nil, by decide, by decide, by omega⟩
    · simp [step, hfit, replacement, newline_not_mem_lead hb, wide_lead b]

theorem newline_not_mem_decode {bytes : List UInt8} (h : 10 ∉ bytes) : '\n' ∉ decode bytes := by
  -- in any state, as a line can end in the middle of a character
  have hfrom : ∀ state : State, state.Wide → '\n' ∉ decodeFrom state bytes := by
    induction bytes with
    | nil =>
      intro state _
      cases state <;> simp [decodeFrom, finish, replacement]
    | cons b rest ih =>
      intro state hs
      simp only [List.mem_cons, not_or] at h
      obtain ⟨hmem, hwide⟩ := newline_not_mem_step hs (Ne.symm h.1)
      simp [decodeFrom, hmem, ih h.2 _ hwide]
  exact hfrom .between trivial

end Text.Utf8

namespace Text.Utf16

theorem encode_append (front back : List Char) : encode (front ++ back) = encode front ++ encode back :=
  List.flatMap_append

theorem eq_newline_of_mem_encodeChar {c : Char} (h : 10 ∈ encodeChar c) : c = '\n' := by
  have hv : c.toNat < 0xD800 ∨ 0xDFFF < c.toNat ∧ c.toNat < 0x110000 := c.valid
  have hten : ∀ {n : Nat}, (10 : Word) = UInt16.ofNat n → n % 65536 = 10 := by
    intro n hn
    rw [← UInt16.toNat_ofNat', ← hn]
    rfl
  unfold encodeChar at h
  by_cases hn : c.toNat < 0x10000
  · simp only [hn, if_true, List.mem_singleton] at h
    apply Char.toNat_inj.mp
    rw [← Nat.mod_eq_of_lt hn]
    exact hten h
  · simp only [hn, if_false, List.mem_cons, List.not_mem_nil, or_false] at h
    rcases h with h | h
    · have := hten h
      omega
    · have := hten h
      omega

end Text.Utf16

namespace LineBuffer

open Source (lineFeed)

theorem codes_append (front rest : List UInt8) :
    codes (front ++ lineFeed :: rest) = codes front ++ terminator :: codes rest := by
  have hvalid : Text.Utf8.State.between.Valid := trivial
  have h := Text.Utf8.decodeFrom_append_cons hvalid front (show lineFeed < 0x80 by decide) rest
  unfold codes Text.Utf8.decode
  rw [h, Text.Utf16.encode_append]
  rfl

theorem terminator_not_mem_codes {content : List UInt8} (h : lineFeed ∉ content) :
    terminator ∉ codes content := by
  intro hm
  obtain ⟨c, hc, hm⟩ := List.mem_flatMap.mp hm
  rw [Text.Utf16.eq_newline_of_mem_encodeChar hm] at hc
  exact Text.Utf8.newline_not_mem_decode h hc

/-! ## Ends of lines -/

/-- Each pair of a carriage return and a line feed becomes a line feed. -/
def mergeReturns : List UInt8 → List UInt8
  | 13 :: 10 :: rest => lineFeed :: mergeReturns rest
  | b :: rest => b :: mergeReturns rest
  | [] => []

/-- The stream with every line ended by a single line feed, the last one too. -/
def normalise (bytes : List UInt8) : List UInt8 :=
  mergeReturns bytes ++ if bytes = [] ∨ bytes.getLast? = some lineFeed then [] else [lineFeed]

theorem mergeReturns_cons {b : UInt8} {rest : List UInt8} (h : b = 13 → rest.head? ≠ some lineFeed) :
    mergeReturns (b :: rest) = b :: mergeReturns rest := by
  rw [mergeReturns.eq_2]
  intro rest' hb hrest
  apply h hb
  rw [hrest]
  rfl

theorem mergeReturns_of_not_mem {content : List UInt8} (h : lineFeed ∉ content) :
    mergeReturns content = content := by
  induction content with
  | nil => rfl
  | cons b content ih =>
    simp only [List.mem_cons, not_or] at h
    rw [mergeReturns_cons, ih h.2]
    intro _ hh
    exact h.2 (List.mem_of_mem_head? hh)

theorem mergeReturns_append {content : List UInt8} (h : lineFeed ∉ content) (rest : List UInt8) :
    mergeReturns (content ++ lineFeed :: rest) = dropReturn content ++ lineFeed :: mergeReturns rest := by
  induction content with
  | nil => rfl
  | cons b content ih =>
    simp only [List.mem_cons, not_or] at h
    cases content with
    | nil =>
      -- only a return right before the line feed belongs to the end of the line
      by_cases hb : b = 13
      · subst hb
        rfl
      · rw [List.cons_append, mergeReturns_cons (by simp [hb]), ih h.2]
        simp [dropReturn, hb]
    | cons c content =>
      rw [List.cons_append, mergeReturns_cons, ih h.2]
      · simp only [dropReturn, List.getLast?_cons_cons, List.dropLast_cons_cons]
        split <;> rfl
      · intro _ hh
        apply h.2
        simp only [List.cons_append, List.head?_cons, Option.some.injEq] at hh
        simp [hh]

theorem normalise_nil : normalise [] = [] := rfl

theorem normalise_of_not_mem {content : List UInt8} (hne : content ≠ []) (h : lineFeed ∉ content) :
    normalise content = content ++ [lineFeed] := by
  have hlast : content.getLast? ≠ some lineFeed := fun hl => h (List.mem_of_getLast? hl)
  simp [normalise, mergeReturns_of_not_mem h, hne, hlast]

theorem normalise_append {content : List UInt8} (h : lineFeed ∉ content) (rest : List UInt8) :
    normalise (content ++ lineFeed :: rest) = dropReturn content ++ lineFeed :: normalise rest := by
  unfold normalise
  rw [mergeReturns_append h]
  cases rest with
  | nil => simp
  | cons b rest => simp

theorem codes_line {content : List UInt8} (h : lineFeed ∉ content) :
    codes (normalise (content ++ [lineFeed])) = codes (dropReturn content) ++ [terminator] := by
  rw [normalise_append h, codes_append]
  rfl

theorem codes_last {content : List UInt8} (hne : content ≠ []) (h : lineFeed ∉ content) :
    codes (normalise content) = codes content ++ [terminator] := by
  rw [normalise_of_not_mem hne h, codes_append]
  rfl

/-- Induction line by line: bytes are none, a last line without an end, or a line and more. -/
theorem line_induction {P : List UInt8 → Prop} (nil : P [])
    (last : ∀ content, content ≠ [] → lineFeed ∉ content → P content)
    (line : ∀ content rest, lineFeed ∉ content → P rest → P (content ++ lineFeed :: rest))
    (bytes : List UInt8) : P bytes := by
  induction hn : bytes.length using Nat.strongRecOn generalizing bytes with
  | ind n ih =>
    by_cases hm : lineFeed ∈ bytes
    · obtain ⟨content, rest, rfl, hc⟩ := List.eq_append_cons_of_mem hm
      apply line content rest hc
      apply ih rest.length _ rest rfl
      rw [← hn, List.length_append, List.length_cons]
      omega
    · by_cases hb : bytes = []
      · rw [hb]
        exact nil
      · exact last bytes hb hm

theorem terminator_mem_codes {bytes : List UInt8} (hne : bytes ≠ []) :
    terminator ∈ codes (normalise bytes) := by
  induction bytes using line_induction with
  | nil => exact absurd rfl hne
  | last content _ h => simp [codes_last hne h]
  | line content rest h _ => simp [normalise_append h, codes_append]

theorem dropReturn_subset (content : List UInt8) : dropReturn content ⊆ content := by
  unfold dropReturn
  split
  · exact List.dropLast_subset content
  · exact List.Subset.refl content

theorem exists_lines (bytes : List UInt8) :
    ∃ lines : List (List UInt8), (∀ line ∈ lines, lineFeed ∉ line ∧ terminator ∉ codes line) ∧
      normalise bytes = lines.flatMap (· ++ [lineFeed]) ∧
      codes (normalise bytes) = lines.flatMap (codes · ++ [terminator]) := by
  induction bytes using line_induction with
  | nil => exact ⟨[], by simp, rfl, rfl⟩
  | last content hne h =>
    have hcodes := codes_append content []
    refine ⟨[content], by simp [h, terminator_not_mem_codes h], ?_, ?_⟩
    · simp [normalise_of_not_mem hne h]
    · rw [normalise_of_not_mem hne h, hcodes]
      simp [codes, Text.Utf8.decode, Text.Utf8.decodeFrom, Text.Utf8.finish, Text.Utf16.encode]
  | line content rest h ih =>
    obtain ⟨lines, hlines, hnormal, hcodes⟩ := ih
    have hd : lineFeed ∉ dropReturn content := fun hm => h (dropReturn_subset content hm)
    refine ⟨dropReturn content :: lines, ?_, ?_, ?_⟩
    · intro line hl
      rcases List.mem_cons.mp hl with rfl | hl
      · exact ⟨hd, terminator_not_mem_codes hd⟩
      · exact hlines line hl
    · simp [normalise_append h, hnormal]
    · simp [normalise_append h, codes_append, hcodes]

/-! ## Whole lines -/

/-- No bytes, or bytes whose last line has its end. -/
def Closed (bytes : List UInt8) : Prop := bytes = [] ∨ bytes.getLast? = some lineFeed

/-- After whole lines, the codes start anew. -/
theorem codes_normalise_append {p : List UInt8} (hp : Closed p) (rest : List UInt8) :
    codes (normalise (p ++ rest)) = codes (normalise p) ++ codes (normalise rest) := by
  induction p using line_induction with
  | nil => rfl
  | last content hne h =>
    rcases hp with hp | hp
    · exact absurd hp hne
    · exact absurd (List.mem_of_getLast? hp) h
  | line content lines h ih =>
    have hlines : Closed lines := by
      rcases hp with hp | hp
      · simp at hp
      · cases lines with
        | nil => exact Or.inl rfl
        | cons b lines => exact Or.inr (by simpa using hp)
    rw [List.append_assoc, List.cons_append, normalise_append h, normalise_append h, codes_append,
      codes_append, ih hlines, List.append_assoc, List.cons_append]

theorem Closed.append {front back : List UInt8} (hf : Closed front) (hb : Closed back) :
    Closed (front ++ back) := by
  rcases hb with rfl | hb
  · rwa [List.append_nil]
  · exact Or.inr (by rw [List.getLast?_append, hb]; rfl)

theorem closed_line (content : List UInt8) : Closed (content ++ [lineFeed]) :=
  Or.inr List.getLast?_concat

/-- Whole lines end before a line that is not complete. -/
theorem Closed.of_append {other front content : List UInt8} (h : Closed other)
    (hstart : other <+: front ++ content) (hc : lineFeed ∉ content) : other <+: front := by
  rcases Nat.le_total other.length front.length with hle | hle
  · exact List.prefix_of_prefix_length_le hstart (List.prefix_append front content) hle
  · obtain ⟨more, rfl⟩ := List.prefix_of_prefix_length_le (List.prefix_append front content) hstart hle
    rw [List.prefix_append_right_inj] at hstart
    rcases h with h | h
    · rw [h]
      exact List.nil_prefix
    · cases more with
      | nil => simp
      | cons b more =>
        have hlast : (b :: more).getLast? = some lineFeed := by
          rw [← h, List.getLast?_append, List.getLast?_cons]
          rfl
        exact absurd (hstart.subset (List.mem_of_getLast? hlast)) hc

end LineBuffer

end WordMachine
