import WordMachine.Journal

/-!
# Outcomes

What a command does to the world outside: its exit code, what it prints, what it complains about,
the file it writes and, if asked to be verbose, its journal.
-/

namespace WordMachine.CommandLine

inductive Complaint
  | usage
  /-- A file could not be read or created. -/
  | files
  | message (text : String)
  deriving DecidableEq, Repr

structure Outcome where
  exitCode : UInt32 := 0
  printed : String := ""
  complaint : Option Complaint := none
  written : Option (String × String) := none
  journal : List Record := []
  deriving DecidableEq, Repr

namespace Outcome

def print (text : String) : Outcome := { printed := text }

def fail (complaint : Complaint) : Outcome := { exitCode := 1, complaint := some complaint }

end Outcome

structure Files where
  /-- The bytes of the file at a path, if it can be read. -/
  read : String → Option (List UInt8)
  /-- Whether a file can be created or overwritten at a path. -/
  writable : String → Bool

end WordMachine.CommandLine
