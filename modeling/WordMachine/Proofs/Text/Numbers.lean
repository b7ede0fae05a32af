import Mathlib.Data.List.Forall2
import Mathlib.Data.Nat.Digits.Defs
import Mathlib.Tactic.Ring
import WordMachine.Text.Number

/-!
# Which texts are numbers

A number is written with one or more digits, decimal or, behind `0x` or `0X`, hexadecimal
(`Number`). A word is read from exactly the texts that write a number below 2^16, with blanks at
their ends, and the error for any other text says whether it still is a number below 2^32
(`parseWord_grammar`).
-/

namespace WordMachine.Text

/-! ## Blanks -/

/-- `t` is `s` without the blanks at its ends. -/
structure Trimmed (s t : List Char) : Prop where
  blank : ∃ front back, s = front ++ t ++ back ∧ ∀ c ∈ front ++ back, isBlank c
  first : ∀ c ∈ t.head?, ¬ isBlank c
  last : ∀ c ∈ t.getLast?, ¬ isBlank c

theorem exists_append_trimLeft (cs : List Char) :
    ∃ front, front ++ trimLeft cs = cs ∧ ∀ c ∈ front, isBlank c :=
  ⟨cs.takeWhile isBlank, List.takeWhile_append_dropWhile, List.all_eq_true.mp List.all_takeWhile⟩

theorem not_isBlank_head_trimLeft (cs : List Char) : ∀ c ∈ (trimLeft cs).head?, ¬ isBlank c := by
  intro c hc
  have h := List.head?_dropWhile_not isBlank cs
  unfold trimLeft at hc
  rw [Option.mem_def.mp hc] at h
  simp [h]

theorem trimmed_trimBlanks (cs : List Char) : Trimmed cs (trimBlanks cs) := by
  obtain ⟨front, hfront, hblank⟩ := exists_append_trimLeft cs
  obtain ⟨back, hback, hblank'⟩ := exists_append_trimLeft (trimLeft cs).reverse
  have htrim : trimLeft cs = trimBlanks cs ++ back.reverse := by
    rw [trimBlanks, ← List.reverse_append, hback, List.reverse_reverse]
  refine ⟨⟨front, back.reverse, ?_, ?_⟩, ?_, ?_⟩
  · rw [List.append_assoc, ← htrim, hfront]
  · intro c hc
    rcases List.mem_append.mp hc with hc | hc
    · exact hblank c hc
    · exact hblank' c (List.mem_reverse.mp hc)
  · intro c hc
    apply not_isBlank_head_trimLeft cs
    rw [htrim, List.head?_append, Option.mem_def.mp hc]
    rfl
  · intro c hc
    rw [trimBlanks, List.getLast?_reverse] at hc
    exact not_isBlank_head_trimLeft _ c hc

/-! ## Digits -/

/-- The character is the digit of the base with this value; letters may be in either case. -/
def IsDigit (base : Nat) (c : Char) (d : Nat) : Prop :=
  d < base ∧ (c = d.digitChar ∨ c = d.digitChar.toUpper)

/-- One or more digits of the base, the most significant first. -/
def Numeral (base : Nat) (cs : List Char) (n : Nat) : Prop :=
  cs ≠ [] ∧ ∃ ds, List.Forall₂ (IsDigit base) cs ds ∧ n = Nat.ofDigits base ds.reverse

/-- A decimal numeral, or a hexadecimal one behind `0x` or `0X`. -/
inductive Number : List Char → Nat → Prop
  | decimal {cs n} : Numeral 10 cs n → Number cs n
  | hexadecimal {x cs n} : x = 'x' ∨ x = 'X' → Numeral 16 cs n → Number ('0' :: x :: cs) n

theorem digitValue?_table : ∀ n : Fin 128, ∀ d ∈ digitValue? (Char.ofNat n), IsDigit 16 (Char.ofNat n) d := by
  unfold IsDigit
  decide

theorem digitChar_table : ∀ d : Fin 16, digitValue? d.val.digitChar = some d.val ∧
    digitValue? d.val.digitChar.toUpper = some d.val := by
  decide

theorem toNat_lt_of_digitValue? {c : Char} {d : Nat} (h : digitValue? c = some d) : c.toNat < 128 := by
  have hle : ∀ {b : Char}, c ≤ b → b.toNat < 128 → c.toNat < 128 := by
    intro b hb
    exact Nat.lt_of_le_of_lt (UInt32.le_iff_toNat_le.mp hb)
  unfold digitValue? at h
  split at h
  · next hc => exact hle hc.2 (by decide)
  · split at h
    · next hc => exact hle hc.2 (by decide)
    · split at h
      · next hc => exact hle hc.2 (by decide)
      · cases h

theorem digitValue?_eq_some_iff {c : Char} {d : Nat} : digitValue? c = some d ↔ IsDigit 16 c d := by
  refine ⟨?_, ?_⟩
  · intro h
    have ht := digitValue?_table ⟨c.toNat, toNat_lt_of_digitValue? h⟩ d
    rw [Char.ofNat_toNat] at ht
    exact ht h
  · rintro ⟨hd, hc⟩
    obtain ⟨hlower, hupper⟩ := digitChar_table ⟨d, hd⟩
    rcases hc with rfl | rfl
    · exact hlower
    · exact hupper

section
variable {base value n : Nat} {c : Char} {cs : List Char}

theorem digit?_eq_some_iff (hb : base ≤ 16) {d : Nat} : digit? base c = some d ↔ IsDigit base c d := by
  rw [digit?, Option.filter_eq_some_iff, digitValue?_eq_some_iff, decide_eq_true_eq]
  refine ⟨?_, ?_⟩
  · rintro ⟨⟨_, hc⟩, hd⟩
    exact ⟨hd, hc⟩
  · rintro ⟨hd, hc⟩
    exact ⟨⟨Nat.lt_of_lt_of_le hd hb, hc⟩, hd⟩

theorem digitsValue?_eq_some_iff (hb : base ≤ 16) : digitsValue? base value cs = some n ↔
    ∃ ds, List.Forall₂ (IsDigit base) cs ds ∧
      n = value * base ^ ds.length + Nat.ofDigits base ds.reverse := by
  induction cs generalizing value with
  | nil => simp [digitsValue?, eq_comm]
  | cons c rest ih =>
    have hvalue : ∀ d (ds : List Nat), (value * base + d) * base ^ ds.length + Nat.ofDigits base ds.reverse =
        value * base ^ (d :: ds).length + Nat.ofDigits base (d :: ds).reverse := by
      intro d ds
      rw [List.reverse_cons, Nat.ofDigits_append, Nat.ofDigits_singleton, List.length_reverse,
        List.length_cons]
      ring
    simp only [digitsValue?, Option.bind_eq_bind, Option.bind_eq_some_iff, digit?_eq_some_iff hb, ih,
      List.forall₂_cons_left_iff]
    refine ⟨?_, ?_⟩
    · rintro ⟨d, hd, ds, hds, hn⟩
      exact ⟨d :: ds, ⟨d, ds, hd, hds, rfl⟩, hn.trans (hvalue d ds)⟩
    · rintro ⟨_, ⟨d, ds, hd, hds, rfl⟩, hn⟩
      exact ⟨d, hd, ds, hds, hn.trans (hvalue d ds).symm⟩

theorem numeral?_eq_some_iff (hb : base ≤ 16) : numeral? base cs = some n ↔ Numeral base cs n := by
  cases cs with
  | nil => simp [numeral?, Numeral]
  | cons c rest => simp [numeral?, Numeral, digitsValue?_eq_some_iff hb]

/-- No decimal numeral begins as a hexadecimal number does. -/
theorem not_numeral_hexadecimal {x : Char} (hx : x = 'x' ∨ x = 'X') : ¬ Numeral 10 ('0' :: x :: cs) n := by
  have hlower : digit? 10 'x' = none := by decide
  have hupper : digit? 10 'X' = none := by decide
  rw [← numeral?_eq_some_iff (by decide)]
  rcases hx with rfl | rfl <;> simp [numeral?, digitsValue?, hlower, hupper]

theorem number_hexadecimal_iff {x : Char} (hx : x = 'x' ∨ x = 'X') :
    Number ('0' :: x :: cs) n ↔ Numeral 16 cs n := by
  refine ⟨?_, .hexadecimal hx⟩
  intro h
  cases h with
  | decimal h => exact absurd h (not_numeral_hexadecimal hx)
  | hexadecimal _ h => exact h

theorem number_decimal_iff (hx : ∀ x digits, x = 'x' ∨ x = 'X' → cs ≠ '0' :: x :: digits) :
    Number cs n ↔ Numeral 10 cs n := by
  refine ⟨?_, .decimal⟩
  intro h
  cases h with
  | decimal h => exact h
  | hexadecimal h => exact absurd rfl (hx _ _ h)

theorem number?_eq_some_iff : number? cs = some n ↔ Number cs n ∧ n < 2 ^ 32 := by
  unfold number?
  rw [Option.filter_eq_some_iff, decide_eq_true_eq]
  refine and_congr_left' ?_
  split
  · rw [number_hexadecimal_iff (Or.inl rfl), numeral?_eq_some_iff (by decide)]
  · rw [number_hexadecimal_iff (Or.inr rfl), numeral?_eq_some_iff (by decide)]
  · next hlower hupper =>
    rw [numeral?_eq_some_iff (by decide), number_decimal_iff]
    intro x digits hx
    rcases hx with rfl | rfl
    · exact hlower digits
    · exact hupper digits

end

/-! ## Words -/

theorem toWord_eq_ok_iff {input : String} {n : Nat} {v : Word} : toWord input n = .ok v ↔ n = v.toNat := by
  have hv := v.toNat_lt
  unfold toWord
  split
  · next h =>
    rw [Except.ok.injEq, ← UInt16.toNat_inj, UInt16.toNat_ofNat', Nat.mod_eq_of_lt h]
  · next h =>
    refine iff_of_false (by simp) ?_
    omega

theorem toWord_of_le {input : String} {n : Nat} (h : 65536 ≤ n) : toWord input n = .error ⟨.word, input⟩ :=
  if_neg (Nat.not_lt_of_le h)

theorem parseWord_of_some {s : String} {n : Nat} (h : number? (trim s).toList = some n) :
    parseWord s = toWord (trim s) n := by
  simp only [parseWord, h]

theorem parseWord_of_none {s : String} (h : number? (trim s).toList = none) :
    parseWord s = .error ⟨.number, trim s⟩ := by
  simp only [parseWord, h]

/-- A word is read from a text that writes it, between blanks. Any other text is refused, as too great
if it writes a number below 2^32, and else as no number; its first twenty characters are quoted. -/
theorem parseWord_grammar (s : String) :
    Trimmed s.toList (trim s).toList ∧
      (∀ v : Word, parseWord s = .ok v ↔ Number (trim s).toList v.toNat) ∧
      (∀ n, Number (trim s).toList n → 65536 ≤ n → n < 2 ^ 32 → ∃ e, parseWord s = .error e ∧
        e.message = "expected a 16-bit number at: " ++ String.ofList ((trim s).toList.take 20)) ∧
      ((∀ n, Number (trim s).toList n → 2 ^ 32 ≤ n) → ∃ e, parseWord s = .error e ∧
        e.message = "expected a number at: " ++ String.ofList ((trim s).toList.take 20)) := by
  refine ⟨?_, ?_, ?_, ?_⟩
  · rw [trim, String.toList_ofList]
    exact trimmed_trimBlanks s.toList
  · intro v
    have hv : v.toNat < 2 ^ 32 := Nat.lt_trans v.toNat_lt (by decide)
    have hnumber : Number (trim s).toList v.toNat ↔ number? (trim s).toList = some v.toNat := by
      rw [number?_eq_some_iff, and_iff_left hv]
    rw [hnumber]
    cases hn : number? (trim s).toList with
    | none => simp [parseWord_of_none hn]
    | some n => rw [parseWord_of_some hn, toWord_eq_ok_iff, Option.some.injEq]
  · intro n hn hle hlt
    have h := parseWord_of_some (number?_eq_some_iff.mpr ⟨hn, hlt⟩)
    exact ⟨_, h.trans (toWord_of_le hle), rfl⟩
  · intro hgreat
    have hnone : number? (trim s).toList = none := by
      apply Option.eq_none_iff_forall_ne_some.mpr
      intro n hn
      obtain ⟨hn, hlt⟩ := number?_eq_some_iff.mp hn
      exact absurd hlt (Nat.not_lt_of_le (hgreat n hn))
    exact ⟨_, parseWord_of_none hnone, rfl⟩

example : parseWord " 0X001f\n" = .ok 31 := rfl

end WordMachine.Text
