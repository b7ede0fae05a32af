import WordMachine.Instruction.Basic
import WordMachine.Processor.Basic

/-!
# Actions

An instruction is executed in two parts. First everything that can go wrong with it is checked,
in a fixed order: its operands, its divisor, the address it uses, the stack. This yields a fault
or an action, and changes nothing. Then the action is carried out; unless it calls the device,
that cannot fail.
-/

namespace WordMachine

inductive EmptyReturn
  | fault
  | halt
  deriving DecidableEq, Repr

/-- What is left of an instruction once its operands are known to be usable. -/
inductive Action
  | proceed
  | halt
  | setRegister (r : Register) (n : Nat)
  | store (address : Memory.Address) (value : Word)
  | push (value : Word)
  /-- `value` is the topmost entry of the stack. -/
  | pop (r : Register) (value : Word)
  | jump (target : Word)
  | call (target : Word)
  /-- `target` is the topmost entry of the stack. -/
  | ret (target : Word)
  | print (code : Word)
  | read (r : Register)
  deriving DecidableEq, Repr

namespace Processor

/-- Checks an instruction. The order of the checks decides which of two faults is reported. -/
def plan (p : Processor) (emptyReturn : EmptyReturn) : Instruction → Except Fault Action
  | .halt => .ok .halt
  | .set destination source => do
    let value ← p.value source
    let r ← Processor.destination destination
    return .setRegister r value.toNat
  | .push source => do
    let value ← p.value source
    return .push value
  | .pop destination => do
    let r ← Processor.destination destination
    match p.stack with
    | value :: _ => return .pop r value
    | [] => throw .stackUnderflow
  | .binary op destination left right => do
    let a ← p.value left
    let b ← p.value right
    if op = .modulo ∧ b = 0 then throw .modulusByZero
    else
      let r ← Processor.destination destination
      return .setRegister r (op.eval a.toNat b.toNat)
  | .jump target => do
    let target ← p.value target
    return .jump target
  | .jumpIf nonzero condition target => do
    let value ← p.value condition
    if (value != 0) = nonzero then
      let target ← p.value target
      return .jump target
    else return .proceed
  | .not destination source => do
    let value ← p.value source
    let r ← Processor.destination destination
    return .setRegister r (Word.modulus - 1 - value.toNat % Word.modulus)
  | .readMemory destination address => do
    let address ← p.value address
    let value ← p.memory.read address
    let r ← Processor.destination destination
    return .setRegister r value.toNat
  | .writeMemory address source => do
    let address ← p.value address
    let value ← p.value source
    let cell ← Memory.addressOf address
    return .store cell value
  | .call target => do
    let target ← p.value target
    return .call target
  | .ret =>
    match p.stack, emptyReturn with
    | target :: _, _ => .ok (.ret target)
    | [], .fault => .error .stackUnderflow
    | [], .halt => .ok .halt
  | .output source => do
    let code ← p.value source
    return .print code
  | .input destination => do
    let r ← Processor.destination destination
    return .read r
  | .noop => .ok .proceed

/-- Carries out an action, as far as it concerns the processor. The program counter is already
behind the instruction, so that is what a call pushes. -/
def commit (p : Processor) : Action → Processor
  | .proceed | .halt | .print _ | .read _ => p
  | .setRegister r n => p.setRegister r n
  | .store address value => p.store address value
  | .push value => { p with stack := value :: p.stack }
  | .pop r value => { p.setRegister r value.toNat with stack := p.stack.tail }
  | .jump target => { p with pc := target }
  | .call target => { p with pc := target, stack := p.pc :: p.stack }
  | .ret target => { p with pc := target, stack := p.stack.tail }

end Processor

end WordMachine
