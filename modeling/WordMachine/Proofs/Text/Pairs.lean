import Mathlib.Data.List.TakeDrop
import Mathlib.Data.List.TakeWhile
import WordMachine.Patch
import WordMachine.Proofs.Text.Numbers

/-!
# Which texts are pairs

A pair is two numbers around one `=`, and each of them chooses its base for itself. The address and
the value of a patch are read from exactly the texts that write them, and the text printed for a
patch is one of these (`pair_grammar`).
-/

namespace WordMachine.Text

/-- Two numbers with `=` between them and nothing else. -/
def Pair (cs : List Char) (a v : Nat) : Prop :=
  ∃ left right, cs = left ++ '=' :: right ∧ Number left a ∧ Number right v

/-! ## Characters of numbers -/

theorem numeralChar_table : ∀ d : Fin 16, (isBlank d.val.digitChar = false ∧ d.val.digitChar ≠ '=') ∧
    isBlank d.val.digitChar.toUpper = false ∧ d.val.digitChar.toUpper ≠ '=' := by
  decide

section
variable {base n : Nat} {c : Char} {cs left right : List Char}

theorem not_blank_of_isDigit (hb : base ≤ 16) {d : Nat} (h : IsDigit base c d) :
    isBlank c = false ∧ c ≠ '=' := by
  obtain ⟨hd, hc⟩ := h
  obtain ⟨hlower, hupper⟩ := numeralChar_table ⟨d, Nat.lt_of_lt_of_le hd hb⟩
  rcases hc with rfl | rfl
  · exact hlower
  · exact hupper

theorem Numeral.not_blank (hb : base ≤ 16) (h : Numeral base cs n) :
    ∀ c ∈ cs, isBlank c = false ∧ c ≠ '=' := by
  obtain ⟨_, ds, hds, _⟩ := h
  have hdigits : List.Forall₂ (fun c d => (isBlank c = false ∧ c ≠ '=') ∧ IsDigit base c d) cs ds :=
    hds.imp fun _ _ hd => ⟨not_blank_of_isDigit hb hd, hd⟩
  exact ((List.forall₂_and_left _ _).mp hdigits).1

theorem Number.not_blank (h : Number cs n) : ∀ c ∈ cs, isBlank c = false ∧ c ≠ '=' := by
  cases h with
  | decimal h => exact h.not_blank (by decide)
  | hexadecimal hx h =>
    intro c hc
    rcases List.mem_cons.mp hc with rfl | hc
    · decide
    · rcases List.mem_cons.mp hc with rfl | hc
      · rcases hx with rfl | rfl <;> decide
      · exact h.not_blank (by decide) c hc

theorem Number.equals_not_mem (h : Number cs n) : '=' ∉ cs := fun hm => (h.not_blank _ hm).2 rfl

/-! ## Pairs -/

theorem bne_equals (h : '=' ∉ left) : ∀ c ∈ left, (c != '=') = true := by
  intro c hc
  exact bne_iff_ne.mpr (ne_of_mem_of_not_mem hc h)

theorem pair?_append (h : '=' ∉ left) :
    pair? (left ++ '=' :: right) = (do return (← number? left, ← number? right)) := by
  have hall := bne_equals h
  unfold pair?
  rw [List.span_eq_takeWhile_dropWhile, List.takeWhile_append_of_pos hall, List.dropWhile_append_of_pos hall]
  simp

theorem pair?_of_not_mem (h : '=' ∉ cs) : pair? cs = none := by
  unfold pair?
  rw [List.span_eq_takeWhile_dropWhile, List.dropWhile_eq_nil_iff.mpr (bne_equals h)]

theorem pair?_eq_some_iff {a v : Nat} : pair? cs = some (a, v) ↔ Pair cs a v ∧ a < 2 ^ 32 ∧ v < 2 ^ 32 := by
  refine ⟨?_, ?_⟩
  · intro h
    by_cases hm : '=' ∈ cs
    · obtain ⟨left, right, rfl, hl⟩ := List.eq_append_cons_of_mem hm
      rw [pair?_append hl] at h
      cases ha : number? left with
      | none => simp [ha] at h
      | some a' =>
        cases hv : number? right with
        | none => simp [ha, hv] at h
        | some v' =>
          simp only [ha, hv] at h
          cases h
          obtain ⟨ha, ha'⟩ := number?_eq_some_iff.mp ha
          obtain ⟨hv, hv'⟩ := number?_eq_some_iff.mp hv
          exact ⟨⟨left, right, rfl, ha, hv⟩, ha', hv'⟩
    · rw [pair?_of_not_mem hm] at h
      cases h
  · rintro ⟨⟨left, right, rfl, hl, hr⟩, ha, hv⟩
    rw [pair?_append hl.equals_not_mem, number?_eq_some_iff.mpr ⟨hl, ha⟩, number?_eq_some_iff.mpr ⟨hr, hv⟩]
    rfl

end

section
variable {s : String} {a v : Nat}

theorem parsePair_of_some (h : pair? (trim s).toList = some (a, v)) :
    parsePair s = (do return (← toWord (trim s) a, ← toWord (trim s) v)) := by
  simp only [parsePair, h]

theorem parsePair_of_none (h : pair? (trim s).toList = none) : parsePair s = .error ⟨.pair, trim s⟩ := by
  simp only [parsePair, h]

theorem parsePair_of_le (h : pair? (trim s).toList = some (a, v)) (hle : 65536 ≤ a ∨ 65536 ≤ v) :
    parsePair s = .error ⟨.word, trim s⟩ := by
  rw [parsePair_of_some h]
  by_cases ha : 65536 ≤ a
  · rw [toWord_of_le ha]
    rfl
  · have hv : 65536 ≤ v := hle.resolve_left ha
    rw [toWord, if_pos (Nat.lt_of_not_le ha), toWord_of_le hv]
    rfl

theorem parsePair_eq_ok_iff {w x : Word} :
    parsePair s = .ok (w, x) ↔ Pair (trim s).toList w.toNat x.toNat := by
  have hw : w.toNat < 2 ^ 32 := Nat.lt_trans w.toNat_lt (by decide)
  have hx : x.toNat < 2 ^ 32 := Nat.lt_trans x.toNat_lt (by decide)
  have hpair : Pair (trim s).toList w.toNat x.toNat ↔ pair? (trim s).toList = some (w.toNat, x.toNat) := by
    rw [pair?_eq_some_iff, and_iff_left ⟨hw, hx⟩]
  rw [hpair]
  cases h : pair? (trim s).toList with
  | none => simp [parsePair_of_none h]
  | some p =>
    obtain ⟨a, v⟩ := p
    have hword : ∀ {n : Nat} {u : Word}, n = u.toNat ↔ toWord (trim s) n = .ok u := toWord_eq_ok_iff.symm
    rw [parsePair_of_some h, Option.some.injEq, Prod.mk.injEq, hword, hword]
    cases toWord (trim s) a with
    | error e => simp [bind, Except.bind]
    | ok w' => cases toWord (trim s) v <;> simp [bind, Except.bind, pure, Except.pure]

end

/-! ## Printed numbers -/

theorem numeral_toDigits {base : Nat} (h1 : 1 < base) (hb : base ≤ 16) (n : Nat) :
    Numeral base (Nat.toDigits base n) n :=
  (numeral?_eq_some_iff hb).mp (numeral?_toDigits h1 hb n)

theorem numeral_decimal (n : Nat) : Numeral 10 (decimal n).toList n := by
  rw [decimal, String.toList_ofList]
  exact numeral_toDigits (by decide) (by decide) n

theorem toList_hexadecimal (width n : Nat) : (hexadecimal width n).toList =
    List.replicate (width - (Nat.toDigits 16 n).length) '0' ++ Nat.toDigits 16 n := by
  simp [hexadecimal, padLeft]

theorem numeral_hexadecimal (width n : Nat) :
    Numeral 16 (hexadecimal width n).toList n ∧ width ≤ (hexadecimal width n).toList.length := by
  rw [toList_hexadecimal]
  refine ⟨?_, ?_⟩
  · obtain ⟨hne, _⟩ := numeral_toDigits (by decide) (by decide : 16 ≤ 16) n
    have hvalue := digitsValue?_toDigits (by decide) (by decide : 16 ≤ 16) n
    rw [← digitsValue?_replicate_zero 16 (width - (Nat.toDigits 16 n).length) (by decide),
      digitsValue?_eq_some_iff (by decide)] at hvalue
    obtain ⟨ds, hds, hn⟩ := hvalue
    refine ⟨?_, ds, hds, ?_⟩
    · simp [hne]
    · rw [hn, Nat.zero_mul, Nat.zero_add]
  · rw [List.length_append, List.length_replicate]
    omega

theorem trimBlanks_eq_self {cs : List Char} (h : ∀ c ∈ cs, isBlank c = false) : trimBlanks cs = cs := by
  have htrim : ∀ {l : List Char}, (∀ c ∈ l, isBlank c = false) → trimLeft l = l := by
    intro l hl
    unfold trimLeft
    cases l with
    | nil => rfl
    | cons c l => exact List.dropWhile_cons_of_neg (by simp [hl c List.mem_cons_self])
  rw [trimBlanks, htrim h, htrim, List.reverse_reverse]
  intro c hc
  exact h c (List.mem_reverse.mp hc)

theorem Pair.trimBlanks_eq {cs : List Char} {a v : Nat} (h : Pair cs a v) : trimBlanks cs = cs := by
  obtain ⟨left, right, rfl, hl, hr⟩ := h
  apply trimBlanks_eq_self
  intro c hc
  rcases List.mem_append.mp hc with hc | hc
  · exact (hl.not_blank c hc).1
  · rcases List.mem_cons.mp hc with rfl | hc
    · decide
    · exact (hr.not_blank c hc).1

/-! ## Patches -/

/-- How a patch is printed: a decimal address, and a hexadecimal value of at least four places. -/
theorem toList_patch_text (p : Patch) : ∃ left right, p.text.toList = left ++ '=' :: '0' :: 'x' :: right ∧
    Numeral 10 left p.address.toNat ∧ Numeral 16 right p.value.toNat ∧ 4 ≤ right.length := by
  obtain ⟨hvalue, hplaces⟩ := numeral_hexadecimal 4 p.value.toNat
  refine ⟨_, _, ?_, numeral_decimal p.address.toNat, hvalue, hplaces⟩
  simp [Patch.text]

theorem pair_patch_text (p : Patch) : Pair p.text.toList p.address.toNat p.value.toNat := by
  obtain ⟨left, right, htext, hl, hr, _⟩ := toList_patch_text p
  exact ⟨left, '0' :: 'x' :: right, htext, .decimal hl, .hexadecimal (Or.inl rfl) hr⟩

theorem parse_patch_text (p : Patch) : Patch.parse p.text = .ok p := by
  have hpair := pair_patch_text p
  have htrim : (trim p.text).toList = p.text.toList := by rw [trim, String.toList_ofList, hpair.trimBlanks_eq]
  rw [← htrim, ← parsePair_eq_ok_iff] at hpair
  rw [Patch.parse, hpair]
  rfl

/-- An address and a value are read from a text that writes them, between blanks. Any other text is
refused: as holding too great a number if it is a pair of numbers below 2^32, and else as no pair; its
first twenty characters are quoted. What is printed for a patch is read as this patch. -/
theorem pair_grammar :
    (∀ s : String, Trimmed s.toList (trim s).toList ∧
      (∀ a v : Word, parsePair s = .ok (a, v) ↔ Pair (trim s).toList a.toNat v.toNat) ∧
      (∀ a v, Pair (trim s).toList a v → a < 2 ^ 32 → v < 2 ^ 32 → 65536 ≤ a ∨ 65536 ≤ v →
        ∃ e, parsePair s = .error e ∧
        e.message = "expected a 16-bit number at: " ++ String.ofList ((trim s).toList.take 20)) ∧
      ((∀ a v, Pair (trim s).toList a v → 2 ^ 32 ≤ a ∨ 2 ^ 32 ≤ v) → ∃ e, parsePair s = .error e ∧
        e.message = "expected ADDRESS=VALUE at: " ++ String.ofList ((trim s).toList.take 20))) ∧
    (∀ p : Patch, (∃ left right, p.text.toList = left ++ '=' :: '0' :: 'x' :: right ∧
        Numeral 10 left p.address.toNat ∧ Numeral 16 right p.value.toNat ∧ 4 ≤ right.length) ∧
      Patch.parse p.text = .ok p) ∧
    ∀ s a v, parsePair s = .ok (a, v) →
      Patch.parse s = .ok ⟨a, v⟩ ∧ Patch.parse (Patch.text ⟨a, v⟩) = .ok ⟨a, v⟩ := by
  refine ⟨?_, fun p => ⟨toList_patch_text p, parse_patch_text p⟩, ?_⟩
  · intro s
    refine ⟨?_, fun a v => parsePair_eq_ok_iff, ?_, ?_⟩
    · rw [trim, String.toList_ofList]
      exact trimmed_trimBlanks s.toList
    · intro a v hpair ha hv hle
      exact ⟨_, parsePair_of_le (pair?_eq_some_iff.mpr ⟨hpair, ha, hv⟩) hle, rfl⟩
    · intro hgreat
      have hnone : pair? (trim s).toList = none := by
        apply Option.eq_none_iff_forall_ne_some.mpr
        rintro ⟨a, v⟩ h
        obtain ⟨hpair, ha, hv⟩ := pair?_eq_some_iff.mp h
        rcases hgreat a v hpair with hle | hle
        · exact absurd ha (Nat.not_lt_of_le hle)
        · exact absurd hv (Nat.not_lt_of_le hle)
      exact ⟨_, parsePair_of_none hnone, rfl⟩
  · intro s a v h
    refine ⟨?_, parse_patch_text ⟨a, v⟩⟩
    rw [Patch.parse, h]
    rfl

/-- A value above 65535 behind an address that fits, in another base and between blanks. -/
theorem pair_grammar_great : Pair (trim " 7=0X1ffff\n").toList 7 0x1ffff ∧
    ∃ e, parsePair " 7=0X1ffff\n" = .error e ∧ e.message = "expected a 16-bit number at: 7=0X1ffff" := by
  have hpair : Pair (trim " 7=0X1ffff\n").toList 7 0x1ffff := (pair?_eq_some_iff.mp rfl).1
  obtain ⟨e, he, hmessage⟩ :=
    (pair_grammar.1 _).2.2.1 7 0x1ffff hpair (by decide) (by decide) (Or.inr (by decide))
  exact ⟨hpair, e, he, hmessage.trans rfl⟩

end WordMachine.Text
