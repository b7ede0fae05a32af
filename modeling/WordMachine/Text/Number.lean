import WordMachine.ParseError
import WordMachine.Text.Blank
import WordMachine.Text.Numeral
import WordMachine.Word

/-!
# Numbers in arguments

A number is written in decimal, or in hexadecimal after `0x` or `0X`, and must be below 2^32 to
count as one. Where a word is asked for it must also fit 16 bits. A pair is two numbers around
one `=`. Blanks around the whole are ignored.
-/

namespace WordMachine.Text

/-- The number written by all the characters together, if it is below 2^32. -/
def number? (cs : List Char) : Option Nat :=
  let value :=
    match cs with
    | '0' :: 'x' :: digits | '0' :: 'X' :: digits => numeral? 16 digits
    | _ => numeral? 10 cs
  value.filter (· < 4294967296)

def toWord (input : String) (n : Nat) : Except ParseError Word :=
  if n < 65536 then .ok (UInt16.ofNat n) else .error ⟨.word, input⟩

/-- Reads one word. Errors quote the text without the blanks around it. -/
def parseWord (s : String) : Except ParseError Word :=
  let input := trim s
  match number? input.toList with
  | some n => toWord input n
  | none => .error ⟨.number, input⟩

def pair? (cs : List Char) : Option (Nat × Nat) :=
  match cs.span (· != '=') with
  | (left, _ :: right) => do return (← number? left, ← number? right)
  | (_, []) => none

/-- Reads two words with `=` between them. Errors quote the text without the blanks around it. -/
def parsePair (s : String) : Except ParseError (Word × Word) :=
  let input := trim s
  match pair? input.toList with
  | some (left, right) => do return (← toWord input left, ← toWord input right)
  | none => .error ⟨.pair, input⟩

end WordMachine.Text
