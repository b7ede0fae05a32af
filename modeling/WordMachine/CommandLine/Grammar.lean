/-!
# Command line grammars

A grammar says which options a command knows, whether a word may stand beside them, and which
commands may follow. Options are written `--name value`, `--name=value`, `-n value`, `-nvalue` or
`-n=value`; options without a value can share one dash. Behind a lone `--` everything is a word,
and so is a lone dash.
-/

namespace WordMachine.CommandLine

inductive OptionKind
  /-- Given at most once, without a value. -/
  | flag
  /-- Given at most once, with a value. -/
  | single
  /-- Given any number of times, with a value each time. -/
  | repeated
  deriving DecidableEq, Repr

structure OptionSpec where
  name : String
  kind : OptionKind
  short : Option Char := none
  /-- Another option without which this one is refused. -/
  requires : Option String := none
  fallback : Option String := none
  deriving DecidableEq, Repr

structure Grammar where
  options : List OptionSpec
  /-- Whether exactly one word is required; otherwise none is allowed. -/
  takesWord : Bool := false
  commands : List String := []

/-- Why reading the arguments ends without a result. -/
inductive Stop
  | refused
  | help
  | version
  deriving DecidableEq, Repr

structure Given where
  options : List String := []
  values : List (String × String) := []
  words : List String := []
  /-- The option whose value may come next. -/
  awaiting : Option OptionSpec := none
  /-- Whether a lone `--` was met. -/
  onlyWords : Bool := false

namespace Given

def has (g : Given) (name : String) : Bool := g.options.contains name

def valuesOf (g : Given) (name : String) : List String :=
  g.values.filterMap fun (n, value) => if n = name then some value else none

def value? (g : Given) (name : String) : Option String := (g.valuesOf name).head?

def addValue (g : Given) (name value : String) : Given :=
  { g with values := g.values ++ [(name, value)], awaiting := none }

/-- An option that takes a value is given, with it or without. A value written together with the
option does not begin with `=`. -/
def addOption (g : Given) (spec : OptionSpec) (value : Option (List Char)) : Given :=
  let g := { g with options := g.options ++ [spec.name] }
  match value with
  | some value => g.addValue spec.name (String.ofList (value.dropWhile (· == '=')))
  | none => { g with awaiting := some spec }

def addFlag (g : Given) (name : String) : Given :=
  { g with options := g.options ++ [name], awaiting := none }

end Given

namespace Grammar

/-- An option of the form `--name` or `--name=value`, without its dashes. A flag ignores a
value. -/
def readLong (grammar : Grammar) (g : Given) (body : List Char) : Except Stop Given :=
  let (name, rest) := body.span (· != '=')
  let name := String.ofList name
  let value := rest.tail?
  match grammar.options.find? (·.name == name) with
  | some spec =>
    match spec.kind with
    | .flag => .ok (g.addFlag name)
    | .single | .repeated => .ok (g.addOption spec value)
  | none =>
    if name = "help" then .error .help
    else if name = "version" then .error .version
    else .error .refused

/-- Options that share one dash, without it. The first that takes a value takes the rest of the
characters for it. -/
def readShort (grammar : Grammar) (g : Given) : List Char → Except Stop Given
  | [] => .ok g
  | c :: rest =>
    match grammar.options.find? (·.short == some c) with
    | some spec =>
      match spec.kind with
      | .flag => readShort grammar (g.addFlag spec.name) rest
      | .single | .repeated => .ok (g.addOption spec (if rest.isEmpty then none else some rest))
    | none =>
      if c = 'h' then .error .help
      else if c = 'V' then .error .version
      else .error .refused

def readWord (grammar : Grammar) (g : Given) (word : String) : Except Stop Given :=
  if grammar.takesWord && g.words.isEmpty then .ok { g with words := [word] }
  else .error .refused

/-- Reads arguments up to a command, and gives the command with what follows it. -/
def read (grammar : Grammar) (g : Given) : List String →
    Except Stop (Given × Option (String × List String))
  | [] => .ok (g, none)
  | arg :: rest => do
    if g.onlyWords then read grammar (← grammar.readWord g arg) rest
    else match arg.toList with
      | ['-', '-'] => read grammar { g with onlyWords := true } rest
      | '-' :: '-' :: body => read grammar (← grammar.readLong g (body.dropWhile (· == '-'))) rest
      | '-' :: c :: body => read grammar (← grammar.readShort g (c :: body)) rest
      | _ =>
        match g.awaiting with
        | some spec => read grammar (g.addValue spec.name arg) rest
        | none =>
          if grammar.commands.contains arg then .ok (g, some (arg, rest))
          else read grammar (← grammar.readWord g arg) rest

def addFallbacks (grammar : Grammar) (g : Given) : Given :=
  grammar.options.foldl (fun g spec =>
    match spec.fallback with
    | some value => if (g.valuesOf spec.name).isEmpty then g.addValue spec.name value else g
    | none => g) g

def allowed (g : Given) (spec : OptionSpec) : Bool :=
  let times := g.options.count spec.name
  times == 0 ||
    ((spec.kind == .repeated || times == 1) &&
      (spec.kind == .flag || !(g.valuesOf spec.name).isEmpty) &&
      spec.requires.all g.has)

def accept (grammar : Grammar) (g : Given) : Except Stop Given :=
  let g := grammar.addFallbacks g
  if grammar.options.all (allowed g) && (!grammar.takesWord || !g.words.isEmpty) then .ok g
  else .error .refused

end Grammar

end WordMachine.CommandLine
