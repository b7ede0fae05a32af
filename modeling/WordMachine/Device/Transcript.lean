import WordMachine.Device.Basic
import WordMachine.Input.LineBuffer

/-!
# Transcripts

A device that reads from bytes given beforehand and keeps every code that is printed.
-/

namespace WordMachine

structure Transcript where
  input : LineBuffer
  printed : Array Word := #[]

namespace Transcript

def ofBytes (bytes : List UInt8) : Transcript := { input := .ofBytes bytes }

/-- The printed codes as text. They are taken for UTF-16. -/
def text (t : Transcript) : String := String.ofList (Text.Utf16.decode t.printed.toList)

instance : Device Transcript where
  input t :=
    let (code, input) := t.input.next
    (code.mapError Failure.kind, { t with input })
  output t code := (.ok (), { t with printed := t.printed.push code })

end Transcript

end WordMachine
