import WordMachine.Text.Numeral
import WordMachine.Word

/-!
# Faults

A fault stops the program for good. It is raised by decoding, by an operand that cannot be used
as the instruction asks, by an empty stack, by a zero divisor or by the device.
-/

namespace WordMachine

/-- The kinds of failures, of which two are told from all others: where the input ends, and an
interruption, after which a read goes on. -/
inductive FailureKind
  | unexpectedEnd
  | interrupted
  | brokenPipe
  | notFound
  | permissionDenied
  | timedOut
  | writeZero
  | invalidData
  | other
  /-- A kind that is none of those above, by its name and by what is said about it. -/
  | unlisted (name description : String)
  deriving DecidableEq, Repr

namespace FailureKind

def name : FailureKind → String
  | .unexpectedEnd => "UnexpectedEof"
  | .interrupted => "Interrupted"
  | .brokenPipe => "BrokenPipe"
  | .notFound => "NotFound"
  | .permissionDenied => "PermissionDenied"
  | .timedOut => "TimedOut"
  | .writeZero => "WriteZero"
  | .invalidData => "InvalidData"
  | .other => "Other"
  | .unlisted name _ => name

/-- What is said about a failure of which only the kind is known. -/
def description : FailureKind → String
  | .unexpectedEnd => "unexpected end of file"
  | .interrupted => "operation interrupted"
  | .brokenPipe => "broken pipe"
  | .notFound => "entity not found"
  | .permissionDenied => "permission denied"
  | .timedOut => "timed out"
  | .writeZero => "write zero"
  | .invalidData => "invalid data"
  | .other => "other error"
  | .unlisted _ description => description

end FailureKind

/-- A failure of a source or a sink: its kind and what is said about it. -/
structure Failure where
  kind : FailureKind
  message : String := kind.description
  deriving DecidableEq, Repr

inductive Fault
  /-- The word is neither a literal nor a register reference, or no memory cell has this address. -/
  | addressOutOfRange (address : Word)
  /-- A literal stands where a register is written. -/
  | invalidWriteTarget (literal : Word)
  /-- The word at the address is not the number of an opcode. -/
  | unknownOpcode (opcode : Word) (address : Nat)
  /-- The opcode, or one of its operands, lies past the end of memory; `address` is the first
  address that could not be read. -/
  | fetchOutOfBounds (address : Nat)
  | stackUnderflow
  | modulusByZero
  /-- The input ended while a line was awaited. -/
  | inputClosed
  | device (kind : FailureKind)
  deriving DecidableEq, Repr

namespace Fault

open Text (decimal)

def message : Fault → String
  | .addressOutOfRange address => "address out of range: " ++ decimal address.toNat
  | .invalidWriteTarget literal => "cannot write to literal " ++ decimal literal.toNat
  | .unknownOpcode opcode _ => "unknown instruction " ++ decimal opcode.toNat
  | .fetchOutOfBounds address => "fetch out of bounds: " ++ decimal address
  | .stackUnderflow => "stack underflow"
  | .modulusByZero => "modulus by zero"
  | .inputClosed => "input closed"
  | .device kind => "i/o error: " ++ kind.name

def ofFailure : FailureKind → Fault
  | .unexpectedEnd => .inputClosed
  | kind => .device kind

end Fault

end WordMachine
