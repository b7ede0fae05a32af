import WordMachine.Device.Basic
import WordMachine.Instruction.Decode
import WordMachine.Journal
import WordMachine.Patch
import WordMachine.Processor.Action

/-!
# Machines

A machine is a processor with a device, a status and, if one is kept, a journal of what it did.
-/

namespace WordMachine

inductive Status
  | running
  | halted
  | faulted
  deriving DecidableEq, Repr

namespace Machine

inductive Event
  | fetched (pc : Word) (instruction : Instruction)
  | halted (pc : Word)
  /-- The instruction at `pc` could not be fetched or executed. -/
  | faulted (pc : Word) (fault : Fault)
  | patched (patch : Patch)
  deriving DecidableEq, Repr

def Event.record (event : Event) : Record :=
  let number (w : Word) := Text.decimal w.toNat
  let about (level : Level) (message : String) (fields : List (String × String)) : Record :=
    ⟨level, message, ("stage", "emulation") :: fields⟩
  match event with
  | .fetched pc i => about .trace "execute" [("pc", number pc), ("instruction", i.text)]
  | .halted pc => about .debug "halted" [("pc", number pc)]
  | .faulted pc fault => about .warning "fault" [("pc", number pc), ("fault", fault.message)]
  | .patched p => about .debug "apply patch" [("address", number p.address), ("value", number p.value)]

end Machine

structure Machine (δ : Type) where
  device : δ
  processor : Processor := {}
  status : Status := .running
  emptyReturn : EmptyReturn := .fault
  journal : Option (Array Machine.Event) := none

namespace Machine

variable {δ : Type}

def start (memory : Memory) (device : δ) : Machine δ := { device, processor := { memory } }

def note (m : Machine δ) (event : Event) : Machine δ :=
  { m with journal := m.journal.map (·.push event) }

def fetch (m : Machine δ) : Except Fault Instruction :=
  Instruction.decodeFrom Word.modulus (m.processor.memory.words[·]?) m.processor.pc.toNat

end Machine

end WordMachine
