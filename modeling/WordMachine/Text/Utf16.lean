import WordMachine.Text.Utf8
import WordMachine.Word

/-!
# UTF-16

A character is one code unit, or a high and a low surrogate. A surrogate without its partner
decodes to the replacement character. Encoded characters decode to themselves
(`decode_encode`).
-/

namespace WordMachine.Text.Utf16

def encodeChar (c : Char) : List Word :=
  let n := c.toNat
  if n < 0x10000 then [UInt16.ofNat n]
  else [UInt16.ofNat (0xD800 + (n - 0x10000) / 0x400), UInt16.ofNat (0xDC00 + n % 0x400)]

def encode (cs : List Char) : List Word := cs.flatMap encodeChar

def isHigh (unit : Word) : Bool := 0xD800 ≤ unit.toNat && unit.toNat < 0xDC00

def isLow (unit : Word) : Bool := 0xDC00 ≤ unit.toNat && unit.toNat < 0xE000

/-- The character of a code unit that is not part of a pair. -/
def single (unit : Word) : Char :=
  if isHigh unit || isLow unit then Utf8.replacement else Char.ofNat unit.toNat

def pair (high low : Word) : Char :=
  Char.ofNat (0x10000 + (high.toNat - 0xD800) * 0x400 + (low.toNat - 0xDC00))

def decode : List Word → List Char
  | high :: low :: rest =>
    if isHigh high && isLow low then pair high low :: decode rest
    else single high :: decode (low :: rest)
  | [unit] => [single unit]
  | [] => []

theorem decode_cons_of_not_high {unit : Word} (h : isHigh unit = false) (rest : List Word) :
    decode (unit :: rest) = single unit :: decode rest := by
  cases rest with
  | nil => rfl
  | cons low rest => simp [decode, h]

theorem decode_encodeChar_append (c : Char) (rest : List Word) :
    decode (encodeChar c ++ rest) = c :: decode rest := by
  have hv : c.toNat < 0xD800 ∨ 0xDFFF < c.toNat ∧ c.toNat < 0x110000 := c.valid
  simp only [encodeChar]
  split
  · next h =>
    have hn : (UInt16.ofNat c.toNat).toNat = c.toNat := by
      rw [UInt16.toNat_ofNat']; omega
    have hh : isHigh (UInt16.ofNat c.toNat) = false := by
      simp only [isHigh, hn, Bool.and_eq_false_iff, decide_eq_false_iff_not]; omega
    have hl : isLow (UInt16.ofNat c.toNat) = false := by
      simp only [isLow, hn, Bool.and_eq_false_iff, decide_eq_false_iff_not]; omega
    rw [List.cons_append, List.nil_append, decode_cons_of_not_high hh]
    simp [single, hh, hl, hn]
  · next h =>
    have hhi : (UInt16.ofNat (0xD800 + (c.toNat - 0x10000) / 0x400)).toNat =
        0xD800 + (c.toNat - 0x10000) / 0x400 := by
      rw [UInt16.toNat_ofNat']; omega
    have hlo : (UInt16.ofNat (0xDC00 + c.toNat % 0x400)).toNat = 0xDC00 + c.toNat % 0x400 := by
      rw [UInt16.toNat_ofNat']; omega
    have hh : isHigh (UInt16.ofNat (0xD800 + (c.toNat - 0x10000) / 0x400)) = true := by
      simp only [isHigh, hhi, Bool.and_eq_true, decide_eq_true_eq]; omega
    have hl : isLow (UInt16.ofNat (0xDC00 + c.toNat % 0x400)) = true := by
      simp only [isLow, hlo, Bool.and_eq_true, decide_eq_true_eq]; omega
    have hc : 0x10000 + (0xD800 + (c.toNat - 0x10000) / 0x400 - 0xD800) * 0x400 +
        (0xDC00 + c.toNat % 0x400 - 0xDC00) = c.toNat := by omega
    simp only [List.cons_append, List.nil_append, decode, hh, hl, Bool.and_self, if_true, pair,
      hhi, hlo, hc, Char.ofNat_toNat]

theorem decode_encode (cs : List Char) : decode (encode cs) = cs := by
  induction cs with
  | nil => rfl
  | cons c cs ih => rw [encode, List.flatMap_cons, decode_encodeChar_append]; exact congrArg _ ih

end WordMachine.Text.Utf16
