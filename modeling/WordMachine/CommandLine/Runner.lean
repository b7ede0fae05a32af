import WordMachine.CommandLine.Grammar
import WordMachine.CommandLine.Outcome
import WordMachine.Device.Console
import WordMachine.Disassembly.Listing
import WordMachine.Machine.Patching
import WordMachine.Machine.Step
import WordMachine.Teleporter.Patches

/-!
# The command that runs an image

The command loads an image and runs it on a console, or lists it. What can go wrong is checked in
a fixed order: the arguments, the image file, the base address, the size, then what the listing
or the run needs.
-/

namespace WordMachine.CommandLine.Runner

def grammar : Grammar where
  takesWord := true
  options :=
    [ { name := "base", kind := .single },
      { name := "patch", kind := .repeated, short := 'p' },
      { name := "teleporter", kind := .single },
      { name := "halt-on-empty-ret", kind := .flag },
      { name := "disassemble", kind := .flag, short := 'd' },
      { name := "from", kind := .single, requires := "disassemble" },
      { name := "to", kind := .single, requires := "disassemble" },
      { name := "output", kind := .single, short := 'o', requires := "disassemble" },
      { name := "verbose", kind := .flag, short := 'v' } ]

def arguments (args : List String) : Except Stop Given := do
  let (given, _) ← grammar.read {} args
  grammar.accept given

inductive Error
  | parse (error : ParseError)
  | load (error : LoadError)
  | execution (fault : Fault)
  deriving DecidableEq, Repr

def Error.message : Error → String
  | .parse e => "Parse error: " ++ e.message ++ "\n"
  | .load e => "Load error: " ++ e.message ++ "\n"
  | .execution fault => "Execution error: " ++ fault.message ++ "\n"

inductive Task
  /-- Write a listing, into a file if there is a path. -/
  | list (lines : List Line) (path : Option String)
  | run (machine : Machine Console)

def imagePath (given : Given) : String := given.words.headD ""

def number? (given : Given) (name : String) : Except Error (Option Word) :=
  match given.value? name with
  | none => .ok none
  | some text => (Text.parseWord text).map some |>.mapError .parse

/-- The patches that the options ask for: those of the teleporter come first. -/
def patches (given : Given) : Except Error (List Patch) := do
  let r7 ← number? given "teleporter"
  let others ← (given.valuesOf "patch").mapM fun text => (Patch.parse text).mapError .parse
  return r7.elim [] Teleporter.patches ++ others

def machine (given : Given) (memory : Memory) (console : Console) :
    Except Error (Machine Console) := do
  let patches ← patches given
  let emptyReturn := if given.has "halt-on-empty-ret" then .halt else .fault
  let journal := if given.has "verbose" then some #[] else none
  let start := { Machine.start memory console with emptyReturn, journal }
  match start.patch patches with
  | (.ok (), m) => return m
  | (.error fault, _) => throw (.execution fault)

def task (given : Given) (image : Image) (console : Console) : Except Error Task := do
  let base := ((← number? given "base").map UInt16.toNat).getD 0
  let memory ← (Memory.empty.load base image).mapError .load
  if given.has "disassemble" then
    let start := ((← number? given "from").map UInt16.toNat).getD base
    let stop := ((← number? given "to").map UInt16.toNat).getD (base + image.size)
    let lines := Disassembly.lines memory.words.toArray start stop
    return .list lines (given.value? "output")
  else return .run (← machine given memory console)

def records (m : Machine Console) : List Record :=
  (m.journal.getD #[]).toList.map (·.record)

def finished (result : Except Fault Status) (m : Machine Console) : Outcome :=
  match result with
  | .ok _ => { printed := m.device.printed, journal := records m }
  | .error fault =>
    { Outcome.fail (.message (Error.execution fault).message) with
      printed := m.device.printed, journal := records m }

/-- Whether the next step waits for a line that the console has not got. -/
def awaitsLine (m : Machine Console) : Bool :=
  match m.fetch with
  | .ok (.input destination) =>
    m.status = .running && (Processor.destination destination).isOk && m.device.input.needsLine &&
      !m.device.input.source.bytes.contains Source.lineFeed
  | _ => false

/-- What is seen of a task. A run takes at most `fuel` steps. -/
def perform (fuel : Nat) (files : Files) : Task → Outcome
  | .list lines none => .print (Disassembly.listing lines)
  | .list lines (some path) =>
    if files.writable path then { written := some (path, Disassembly.listing lines) }
    else .fail .files
  | .run m =>
    let (result, m) := m.run fuel
    finished result m

def run (fuel : Nat) (files : Files) (input : List UInt8) (args : List String) : Outcome :=
  match arguments args with
  | .error .refused => .fail .usage
  | .error .help => .print ""
  | .error .version => .print "synrun 0.1.0\n"
  | .ok given =>
    match files.read (imagePath given) with
    | none => .fail .files
    | some bytes =>
      match task given (.ofBytes bytes) (.ofBytes input) with
      | .ok task => perform fuel files task
      | .error error => .fail (.message error.message)

end WordMachine.CommandLine.Runner
