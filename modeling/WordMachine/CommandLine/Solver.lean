import WordMachine.CommandLine.Grammar
import WordMachine.CommandLine.Outcome
import WordMachine.Teleporter.Search
import WordMachine.Text.Number
import WordMachine.Vault.Orb

/-!
# The command that solves puzzles

`teleporter` looks for the seed that the teleporter accepts, `vault` for the shortest route of the
orb.
-/

namespace WordMachine.CommandLine.Solver

/-- An option that may stand before or behind a command. -/
def verbose : OptionSpec := { name := "verbose", kind := .flag, short := 'v' }

def grammar : Grammar where
  options := [verbose]
  commands := ["teleporter", "vault", "help"]

def teleporterGrammar : Grammar where
  options :=
    [ verbose,
      { name := "row", kind := .single, fallback := "4" },
      { name := "column", kind := .single, fallback := "1" },
      { name := "result", kind := .single, fallback := "6" } ]

def vaultGrammar : Grammar where
  options := [verbose]

def query (given : Given) : Except ParseError Teleporter.Query := do
  let number (name : String) := Text.parseWord ((given.value? name).getD "")
  let row ← number "row"
  let column ← number "column"
  let result ← number "result"
  return ⟨row.toNat, column.toNat, result⟩

def report (found : Option String) (journal : List Record) : Outcome :=
  { printed := found.getD "No solution\n", journal }

def teleporter (verbose : Bool) (given : Given) : Outcome :=
  match query given with
  | .error e => .fail (.message ("Parse error: " ++ e.message ++ "\n"))
  | .ok q =>
    let answer := q.find? 0 Word.modulus
    report (answer.map fun seed => "r7 = " ++ Text.decimal seed ++ "\n")
      (if verbose then (q.events 0 Word.modulus answer).map q.record else [])

def vault (verbose : Bool) : Outcome :=
  let answer := Vault.find Vault.Orb.graph Vault.Orb.start Vault.Orb.goal
  report (answer.path.map fun path => "Success!\n" ++ path.trace ++ "\n")
    (if verbose then answer.events.map (·.record) else [])

/-- Reads the arguments of a command, then checks those in front of it. The command is told
whether either asks it to be verbose. -/
def within (front : Given) (name : String) (command : Grammar) (args : List String)
    (act : Bool → Given → Outcome) : Outcome :=
  let read := do
    let (given, _) ← command.read {} args
    command.accept given
  match read with
  | .error .refused => .fail .usage
  | .error .help => .print ""
  | .error .version => .print ("synsolve-" ++ name ++ " \n")
  | .ok given =>
    match grammar.accept front with
    | .ok front => act (front.has "verbose" || given.has "verbose") given
    | .error _ => .fail .usage

def help (args : List String) : Outcome :=
  match args with
  | [] => .print ""
  | [command] => if grammar.commands.contains command then .print "" else .fail .usage
  | _ => .fail .usage

def run (args : List String) : Outcome :=
  match grammar.read {} args with
  | .error .refused => .fail .usage
  | .error .help => .print ""
  | .error .version => .print "synsolve 0.1.0\n"
  | .ok (_, none) => .fail .usage
  | .ok (front, some (command, rest)) =>
    if command = "teleporter" then within front command teleporterGrammar rest teleporter
    else if command = "vault" then within front command vaultGrammar rest fun verbose _ => vault verbose
    else help rest

end WordMachine.CommandLine.Solver
