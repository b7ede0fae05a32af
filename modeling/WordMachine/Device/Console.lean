import WordMachine.Device.Basic
import WordMachine.Input.LineBuffer

/-!
# Consoles

The device of a program that runs for a user: it reads the standard input and prints each code as
one character.
-/

namespace WordMachine

structure Console where
  input : LineBuffer
  printed : String := ""

namespace Console

def ofBytes (bytes : List UInt8) : Console := { input := .ofBytes bytes }

/-- The character of a code. Surrogates have none and print as the replacement character. -/
def char (code : Word) : Char :=
  if code.toNat.isValidChar then Char.ofNat code.toNat else Text.Utf8.replacement

instance : Device Console where
  input c :=
    let (code, input) := c.input.next
    (code.mapError Failure.kind, { c with input })
  output c code := (.ok (), { c with printed := c.printed.push (char code) })

end Console

end WordMachine
