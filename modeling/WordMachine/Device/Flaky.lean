import WordMachine.Device.Basic

/-!
# Flaky devices

A device of which one input call and one output call fail. The failing call does not reach the
device behind it.
-/

namespace WordMachine

/-- One call that fails: it comes after `successes` others. -/
structure Outage where
  successes : Nat
  kind : FailureKind
  deriving DecidableEq, Repr

/-- The failure of this call, if it fails, and what lies ahead after it. -/
def Outage.next : Option Outage → Option FailureKind × Option Outage
  | none => (none, none)
  | some ⟨0, kind⟩ => (some kind, none)
  | some ⟨n + 1, kind⟩ => (none, some ⟨n, kind⟩)

structure Flaky (δ : Type) where
  device : δ
  inputOutage : Option Outage := none
  outputOutage : Option Outage := none

instance {δ : Type} [Device δ] : Device (Flaky δ) where
  input f :=
    match Outage.next f.inputOutage with
    | (some kind, inputOutage) => (.error kind, { f with inputOutage })
    | (none, inputOutage) =>
      let (code, device) := Device.input f.device
      (code, { f with device, inputOutage })
  output f code :=
    match Outage.next f.outputOutage with
    | (some kind, outputOutage) => (.error kind, { f with outputOutage })
    | (none, outputOutage) =>
      let (result, device) := Device.output f.device code
      (result, { f with device, outputOutage })

end WordMachine
