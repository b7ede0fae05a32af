/-!
# Parse errors

A text that cannot be read is reported by what was expected in its place and by its first twenty
characters.
-/

namespace WordMachine

inductive Expectation
  | number
  | word
  | pair
  | operation
  deriving DecidableEq, Repr

def Expectation.text : Expectation → String
  | .number => "a number"
  | .word => "a 16-bit number"
  | .pair => "ADDRESS=VALUE"
  | .operation => "an operation like +4"

structure ParseError where
  expected : Expectation
  input : String
  deriving DecidableEq, Repr

/-- Only the first twenty characters of the input are quoted. -/
def ParseError.message (e : ParseError) : String :=
  "expected " ++ e.expected.text ++ " at: " ++ String.ofList (e.input.toList.take 20)

end WordMachine
