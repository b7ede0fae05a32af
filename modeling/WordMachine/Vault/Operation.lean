import WordMachine.ParseError
import WordMachine.Text.Blank
import WordMachine.Text.Numeral

/-!
# Operations on a weight

An operation adds, subtracts or multiplies by its argument. It is written as its sign followed by
the argument; only arguments that are not negative can be read back. Weights and arguments are
signed 32-bit numbers, and an operation whose result is not one has no result.
-/

namespace WordMachine.Vault

inductive OperationKind
  | add
  | subtract
  | multiply
  deriving DecidableEq, Repr

namespace OperationKind

def sign : OperationKind → Char
  | .add => '+'
  | .subtract => '-'
  | .multiply => '*'

def ofSign? : Char → Option OperationKind
  | '+' => some .add
  | '-' => some .subtract
  | '*' => some .multiply
  | _ => none

def eval : OperationKind → Int → Int → Int
  | .add, a, b => a + b
  | .subtract, a, b => a - b
  | .multiply, a, b => a * b

theorem ofSign?_eq_some_iff {c : Char} {kind : OperationKind} :
    ofSign? c = some kind ↔ c = kind.sign := by
  refine ⟨?_, ?_⟩
  · intro h
    unfold ofSign? at h
    split at h <;> cases h <;> rfl
  · rintro rfl
    cases kind <;> rfl

end OperationKind

abbrev greatest : Int := 2147483647

abbrev least : Int := -2147483648

structure Operation where
  kind : OperationKind
  argument : Int
  deriving DecidableEq, Repr

namespace Operation

def result? (op : Operation) (weight : Int) : Option Int :=
  let result := op.kind.eval weight op.argument
  if least ≤ result ∧ result ≤ greatest then some result else none

/-- The sign and the argument, such as `+4`. A negative argument keeps its own sign: `+-4`. -/
def text (op : Operation) : String :=
  String.singleton op.kind.sign ++ Text.signedDecimal op.argument

def ofChars? : List Char → Option Operation
  | sign :: digits => do
    let kind ← OperationKind.ofSign? sign
    let argument ← Text.numeral? 10 digits
    if argument ≤ greatest then some ⟨kind, argument⟩ else none
  | [] => none

/-- Reads an operation with blanks around it. Errors quote the text with the blanks. -/
def parse (s : String) : Except ParseError Operation :=
  match ofChars? (Text.trimBlanks s.toList) with
  | some op => .ok op
  | none => .error ⟨.operation, s⟩

end Operation

end WordMachine.Vault
