import WordMachine.Fault

/-!
# Byte sources

A source holds bytes that are read line by line. It may fail once, when a line is read past a
given place: the bytes of the line before that place are lost and reading goes on behind them.
Only an interruption loses nothing, since the same read goes on after it.
-/

namespace WordMachine

/-- One failure that lies ahead: it happens when a line reaches `distance` bytes from here. -/
structure Obstacle where
  distance : Nat
  kind : FailureKind
  deriving DecidableEq, Repr

structure Source where
  bytes : List UInt8
  obstacle : Option Obstacle := none
  deriving DecidableEq, Repr

namespace Source

def lineFeed : UInt8 := 10

inductive Reading
  | line (content : List UInt8)
  /-- The bytes before the end of the source, at least one. -/
  | unterminated (content : List UInt8)
  | ended
  | failed (kind : FailureKind)
  deriving DecidableEq, Repr

/-- Reads up to the next line feed without failing. -/
def readBytes (bytes : List UInt8) : Reading × List UInt8 :=
  match bytes.span (· != lineFeed) with
  | (content, _ :: rest) => (.line content, rest)
  | ([], []) => (.ended, [])
  | (content, []) => (.unterminated content, [])

/-- Reads a line of a source that has nothing ahead at which it fails. -/
def readSmooth (bytes : List UInt8) : Reading × Source :=
  let (reading, rest) := readBytes bytes
  (reading, { bytes := rest })

/-- Reads a line. The obstacle is met if no line feed comes before it. -/
def read (source : Source) : Reading × Source :=
  match source.obstacle with
  | none => readSmooth source.bytes
  | some ⟨distance, kind⟩ =>
    if distance ≤ (source.bytes.takeWhile (· != lineFeed)).length then
      if kind = .interrupted then
        readSmooth source.bytes
      else
        (.failed kind, { bytes := source.bytes.drop distance })
    else
      let (reading, rest) := readBytes source.bytes
      let read := source.bytes.length - rest.length
      (reading, { bytes := rest, obstacle := some ⟨distance - read, kind⟩ })

end Source

end WordMachine
