import WordMachine.CommandLine.Runner
import WordMachine.CommandLine.Solver

/-!
# The program

The first argument names the command, `run` or `solve`; the others belong to it. What the commands
do is decided elsewhere. Here files and streams are read and written.
-/

namespace WordMachine.CommandLine

def help : String :=
  "usage: run [OPTIONS] IMAGE\n" ++
  "         --base ADDRESS  --patch ADDRESS=VALUE  --teleporter R7  --halt-on-empty-ret\n" ++
  "         --disassemble  --from ADDRESS  --to ADDRESS  --output FILE  --verbose\n" ++
  "       solve [--verbose] teleporter [--row N] [--column M] [--result R]\n" ++
  "       solve [--verbose] vault\n"

def Complaint.text : Complaint → String
  | .usage => help
  | .files => "IO error: a file could not be read or created\n"
  | .message text => text

/-- Shows an outcome and gives its exit code. A file that it writes was written before. -/
def Outcome.present (o : Outcome) : IO UInt32 := do
  let stderr ← IO.getStderr
  for record in o.journal do
    stderr.putStrLn record.text
  IO.print o.printed
  (← IO.getStdout).flush
  if let some complaint := o.complaint then
    stderr.putStr complaint.text
  return o.exitCode

/-- Reads from the standard input until a line has ended or nothing more comes. -/
partial def readLine (bytes : List UInt8) : IO (List UInt8) := do
  let chunk ← (← IO.getStdin).read 4096
  let bytes := bytes ++ chunk.toList
  if chunk.isEmpty || chunk.toList.contains Source.lineFeed then return bytes
  else readLine bytes

/-- Runs a machine to its end. What it prints appears at the latest when it waits for a line. -/
partial def drive (m : Machine Console) : IO Outcome := do
  let stdout ← IO.getStdout
  let m ← if Runner.awaitsLine m then
      stdout.flush
      let bytes ← readLine m.device.input.source.bytes
      pure { m with device.input.source := { bytes } }
    else pure m
  let (result, m) := m.step
  if !m.device.printed.isEmpty then
    stdout.putStr m.device.printed
  for record in Runner.records m do
    (← IO.getStderr).putStrLn record.text
  let m := { m with device.printed := "", journal := m.journal.map fun _ => #[] }
  match result with
  | .ok .running => drive m
  | result => return Runner.finished result m

/-- Does a task, with the console connected to the standard streams. -/
def Runner.Task.act : Runner.Task → IO Outcome
  | .run m => drive m
  | .list lines none => return .print (Disassembly.listing lines)
  | .list lines (some path) => do
    try
      IO.FS.writeFile path (Disassembly.listing lines)
      return {}
    catch _ => return .fail .files

def runner (args : List String) : IO Outcome := do
  match Runner.arguments args with
  | .error .refused => return .fail .usage
  | .error .help => return .print help
  | .error .version => return .print "synrun 0.1.0\n"
  | .ok given =>
    let image ← try some <$> IO.FS.readBinFile (Runner.imagePath given) catch _ => pure none
    match image with
    | none => return .fail .files
    | some bytes =>
      match Runner.task given (.ofBytes bytes.toList) (.ofBytes []) with
      | .ok task => task.act
      | .error error => return .fail (.message error.message)

def start (args : List String) : IO UInt32 := do
  match args with
  | "run" :: rest => (← runner rest).present
  | "solve" :: rest => (Solver.run rest).present
  | _ => (Outcome.fail .usage).present

end WordMachine.CommandLine

def main (args : List String) : IO UInt32 := WordMachine.CommandLine.start args
