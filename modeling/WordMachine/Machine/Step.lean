import WordMachine.Machine.Basic

/-!
# Running a machine

A step fetches the instruction at the program counter, moves the counter behind it and executes
it. A fault stops the machine for good, and a stopped machine does not step. A run is a number of
steps that ends early when the machine stops.
-/

namespace WordMachine.Machine

variable {δ : Type} [Device δ]

/-- Carries out an action. It can only fail where it calls the device. -/
def perform (m : Machine δ) : Action → Except Fault Unit × Machine δ
  | .halt => (.ok (), { m with status := .halted })
  | .print code =>
    match Device.output m.device code with
    | (.ok (), device) => (.ok (), { m with device })
    | (.error kind, device) => (.error (.ofFailure kind), { m with device })
  | .read r =>
    match Device.input m.device with
    | (.ok code, device) =>
      (.ok (), { m with device, processor := m.processor.setRegister r code.toNat })
    | (.error kind, device) => (.error (.ofFailure kind), { m with device })
  | action => (.ok (), { m with processor := m.processor.commit action })

/-- Executes an instruction, which need not be the one at the program counter. -/
def execute (m : Machine δ) (i : Instruction) : Except Fault Unit × Machine δ :=
  match m.processor.plan m.emptyReturn i with
  | .ok action => m.perform action
  | .error fault => (.error fault, m)

/-- Moves the program counter behind an instruction that starts at it. -/
def advance (m : Machine δ) (i : Instruction) : Machine δ :=
  { m with processor.pc := UInt16.ofNat (m.processor.pc.toNat + i.size) }

def executeNext (m : Machine δ) : Except Fault Unit × Machine δ :=
  match m.fetch with
  | .ok i => ((m.note (.fetched m.processor.pc i)).advance i).execute i
  | .error fault => (.error fault, m)

/-- What a step answers whose instruction stood at `pc`, and what the journal tells of its end. -/
def conclude (pc : Word) : Except Fault Unit × Machine δ → Except Fault Status × Machine δ
  | (.ok (), m) =>
    if m.status = .halted then (.ok .halted, m.note (.halted pc)) else (.ok m.status, m)
  | (.error fault, m) => (.error fault, { m.note (.faulted pc fault) with status := .faulted })

/-- One step, which answers the status after it or the fault that stopped the machine. -/
def step (m : Machine δ) : Except Fault Status × Machine δ :=
  if m.status = .running then conclude m.processor.pc m.executeNext else (.ok m.status, m)

def run : Nat → Machine δ → Except Fault Status × Machine δ
  | 0, m => (.ok m.status, m)
  | fuel + 1, m =>
    if m.status = .running then
      match m.step with
      | (.ok _, m) => run fuel m
      | (.error fault, m) => (.error fault, m)
    else (.ok m.status, m)

theorem step_of_stopped {m : Machine δ} (h : m.status ≠ .running) : m.step = (.ok m.status, m) :=
  if_neg h

theorem run_of_stopped {m : Machine δ} (h : m.status ≠ .running) (fuel : Nat) :
    m.run fuel = (.ok m.status, m) := by
  cases fuel with
  | zero => rfl
  | succ fuel => exact if_neg h

end WordMachine.Machine
