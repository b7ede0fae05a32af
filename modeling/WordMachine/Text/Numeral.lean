/-!
# Numerals

Numbers are written in decimal, or in hexadecimal with a least number of places. They are read
from a text that holds digits of one base and nothing else. What was written for a number is read
as that number (`numeral?_toDigits`).
-/

namespace WordMachine.Text

/-- The decimal numeral of a natural number, without leading zeros. -/
def decimal (n : Nat) : String := String.ofList (Nat.toDigits 10 n)

/-- The decimal numeral of an integer: a minus sign stands before a negative one only. -/
def signedDecimal : Int → String
  | .ofNat n => decimal n
  | .negSucc n => "-" ++ decimal (n + 1)

def padLeft (fill : Char) (width : Nat) (s : String) : String :=
  String.ofList (List.replicate (width - s.length) fill) ++ s

def padRight (fill : Char) (width : Nat) (s : String) : String :=
  s ++ String.ofList (List.replicate (width - s.length) fill)

/-- The hexadecimal numeral in lower case, with zeros in front up to `width` places. -/
def hexadecimal (width n : Nat) : String :=
  padLeft '0' width (String.ofList (Nat.toDigits 16 n))

def digitValue? (c : Char) : Option Nat :=
  if '0' ≤ c ∧ c ≤ '9' then some (c.toNat - '0'.toNat)
  else if 'a' ≤ c ∧ c ≤ 'f' then some (c.toNat - 'a'.toNat + 10)
  else if 'A' ≤ c ∧ c ≤ 'F' then some (c.toNat - 'A'.toNat + 10)
  else none

def digit? (base : Nat) (c : Char) : Option Nat :=
  (digitValue? c).filter (· < base)

/-- The value of `digits` written after a numeral of value `value`. -/
def digitsValue? (base : Nat) (value : Nat) : List Char → Option Nat
  | [] => some value
  | c :: rest => do digitsValue? base (value * base + (← digit? base c)) rest

/-- The value of a text that holds one or more digits of the base and nothing else. -/
def numeral? (base : Nat) : List Char → Option Nat
  | [] => none
  | digits => digitsValue? base 0 digits

theorem digitsValue?_append (base value : Nat) (front back : List Char) :
    digitsValue? base value (front ++ back) =
      (digitsValue? base value front).bind fun v => digitsValue? base v back := by
  induction front generalizing value with
  | nil => rfl
  | cons c rest ih =>
    simp only [List.cons_append, digitsValue?, Option.bind_eq_bind, ih]
    cases digit? base c <;> rfl

theorem digit?_digitChar {base d : Nat} (hd : d < base) (hb : base ≤ 16) :
    digit? base d.digitChar = some d := by
  have h : ∀ k : Fin 16, digitValue? k.val.digitChar = some k.val := by decide
  rw [digit?, h ⟨d, Nat.lt_of_lt_of_le hd hb⟩]
  simp [hd]

theorem digitsValue?_toDigits {base : Nat} (h1 : 1 < base) (hb : base ≤ 16) (n : Nat) :
    digitsValue? base 0 (Nat.toDigits base n) = some n := by
  induction n using Nat.strongRecOn with
  | ind n ih =>
    have hd : digit? base (n % base).digitChar = some (n % base) :=
      digit?_digitChar (Nat.mod_lt n (by omega)) hb
    by_cases hn : n < base
    · rw [Nat.mod_eq_of_lt hn] at hd
      simp [Nat.toDigits_of_lt_base hn, digitsValue?, hd]
    · have hlt : n / base < n := Nat.div_lt_self (by omega) h1
      rw [Nat.toDigits_of_base_le h1 (Nat.le_of_not_lt hn), digitsValue?_append, ih _ hlt]
      simp [digitsValue?, hd, Nat.div_add_mod']

theorem digitsValue?_replicate_zero (base count : Nat) (h : 0 < base) (digits : List Char) :
    digitsValue? base 0 (List.replicate count '0' ++ digits) = digitsValue? base 0 digits := by
  have hz : digit? base '0' = some 0 := by simp [digit?, digitValue?, h]
  induction count with
  | zero => rfl
  | succ count ih => simp [List.replicate_succ, digitsValue?, hz, ih]

theorem numeral?_toDigits {base : Nat} (h1 : 1 < base) (hb : base ≤ 16) (n : Nat) :
    numeral? base (Nat.toDigits base n) = some n := by
  have hpos : 0 < (Nat.toDigits base n).length := Nat.length_toDigits_pos
  rw [← digitsValue?_toDigits h1 hb n]
  cases h : Nat.toDigits base n with
  | nil => rw [h] at hpos; cases hpos
  | cons c rest => rfl

end WordMachine.Text
