/-!
# Journals

What a run reports about itself is a sequence of records: how grave, what happened, and the values
that belong to it.
-/

namespace WordMachine

inductive Level
  | trace
  | debug
  | warning
  deriving DecidableEq, Repr

def Level.name : Level → String
  | .trace => "TRACE"
  | .debug => "DEBUG"
  | .warning => "WARNING"

structure Record where
  level : Level
  message : String
  fields : List (String × String)
  deriving DecidableEq, Repr

def Record.text (r : Record) : String :=
  String.join ((r.level.name ++ " " ++ r.message) ::
    r.fields.map fun (key, value) => ", " ++ key ++ ": " ++ value)

end WordMachine
