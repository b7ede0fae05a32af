import WordMachine.Machine.Basic

/-!
# Patching

Patches are applied in order, up to the first whose address is neither a memory cell nor a
register. A memory cell receives the value as it is, a register receives it modulo 32768.
-/

namespace WordMachine

def Processor.patch (p : Processor) (patch : Patch) : Except Fault Processor :=
  match Operand.ofWord patch.address with
  | .literal address => do
    let cell ← Memory.addressOf address
    return p.store cell patch.value
  | .register r => .ok (p.setRegister r patch.value.toNat)
  | .invalid word => .error (.addressOutOfRange word)

namespace Machine

variable {δ : Type}

def patch : Machine δ → List Patch → Except Fault Unit × Machine δ
  | m, [] => (.ok (), m)
  | m, p :: rest =>
    match m.processor.patch p with
    | .ok processor => Machine.patch ({ m with processor }.note (.patched p)) rest
    | .error fault => (.error fault, m)

end Machine

end WordMachine
