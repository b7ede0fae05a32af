import WordMachine.Input.Source
import WordMachine.Text.Utf16
import WordMachine.Text.Utf8

/-!
# Line buffers

A program reads character codes, one at a time, from lines of text. A line is read only when every
code of the line before it has been handed out. Its bytes are decoded as UTF-8, its characters are
delivered as UTF-16 code units, and code 10 ends it.
-/

namespace WordMachine

/-- `pending` holds the codes of the current line that were not handed out, its end included. -/
structure LineBuffer where
  source : Source
  pending : List Word := []
  deriving DecidableEq, Repr

namespace LineBuffer

def terminator : Word := 10

/-- A carriage return right before the line feed belongs to the line's end. -/
def dropReturn (content : List UInt8) : List UInt8 :=
  if content.getLast? = some 13 then content.dropLast else content

def codes (content : List UInt8) : List Word := Text.Utf16.encode (Text.Utf8.decode content)

/-- Hands out the first code of a line that was just read. -/
def start (source : Source) (content : List UInt8) : Word × LineBuffer :=
  match codes content with
  | [] => (terminator, { source })
  | code :: rest => (code, { source, pending := rest ++ [terminator] })

/-- The failure of a read after the last line. -/
def ended : Failure := ⟨.unexpectedEnd, "input ended while waiting for a line"⟩

def next (buffer : LineBuffer) : Except Failure Word × LineBuffer :=
  match buffer.pending with
  | code :: rest => (.ok code, { buffer with pending := rest })
  | [] =>
    match buffer.source.read with
    | (.line content, source) =>
      let (code, buffer) := start source (dropReturn content)
      (.ok code, buffer)
    | (.unterminated content, source) =>
      let (code, buffer) := start source content
      (.ok code, buffer)
    | (.ended, source) => (.error ended, { source })
    | (.failed kind, source) => (.error { kind }, { source })

def needsLine (buffer : LineBuffer) : Bool := buffer.pending.isEmpty

def ofBytes (bytes : List UInt8) : LineBuffer := { source := { bytes } }

end LineBuffer

end WordMachine
