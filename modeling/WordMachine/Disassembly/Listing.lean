import WordMachine.Disassembly.Line

/-!
# Listings

A listing is the text of a disassembly, each line ended by a line feed. It can be written into a
sink that takes only so many bytes; when it is full, all that fits has been written.
-/

namespace WordMachine

/-- Bytes written to a place that may be bounded. -/
structure Sink where
  bytes : ByteArray := .empty
  room : Option Nat := none

namespace Sink

def full : Failure := ⟨.writeZero, "failed to write whole buffer"⟩

/-- Writes all the bytes, or those that fit. -/
def write (sink : Sink) (bytes : ByteArray) : Except Failure Unit × Sink :=
  match sink.room with
  | none => (.ok (), { sink with bytes := sink.bytes ++ bytes })
  | some room =>
    if bytes.size ≤ room then
      (.ok (), { bytes := sink.bytes ++ bytes, room := some (room - bytes.size) })
    else (.error full, { bytes := sink.bytes ++ bytes.extract 0 room, room := some 0 })

end Sink

namespace Disassembly

def lineText (line : Line) : String := line.text ++ "\n"

def listing (lines : List Line) : String := String.join (lines.map lineText)

/-- Writes the lines up to the first that does not fit. `count` lines were written before. -/
def writeLines : List Line → Nat → Sink → Except Failure Nat × Sink
  | [], count, sink => (.ok count, sink)
  | line :: rest, count, sink =>
    match sink.write (lineText line).toUTF8 with
    | (.ok (), sink) => writeLines rest (count + 1) sink
    | (.error failure, sink) => (.error failure, sink)

def write (lines : List Line) (sink : Sink) : Except Failure Nat × Sink :=
  writeLines lines 0 sink

end Disassembly

end WordMachine
