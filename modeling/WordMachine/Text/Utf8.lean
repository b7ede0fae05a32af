/-!
# UTF-8 with replacement

Bytes are decoded one at a time. A sequence is given up at the first byte that cannot continue it,
one replacement character stands for the bytes given up, and that byte is looked at afresh. So a
byte below 128 always stands for itself, and decoding can be cut in front of one
(`decodeFrom_append_cons`).
-/

namespace WordMachine.Text.Utf8

/-- The character that stands for bytes which encode none. -/
def replacement : Char := '\ufffd'

inductive State
  | between
  /-- A sequence has begun. `value` holds the bits so far, `missing` more bytes are due, and the
  next of them must lie from `low` to `high`. -/
  | within (value missing : Nat) (low high : UInt8)
  deriving DecidableEq, Repr

/-- What the first byte of a sequence does. The bounds of the second byte keep out overlong
sequences, surrogates and numbers above 0x10FFFF. -/
def lead (b : UInt8) : List Char × State :=
  let bits (mask : UInt8) : Nat := (b &&& mask).toNat
  if b < 0x80 then ([Char.ofNat b.toNat], .between)
  else if b < 0xC2 then ([replacement], .between)
  else if b ≤ 0xDF then ([], .within (bits 0x1F) 1 0x80 0xBF)
  else if b = 0xE0 then ([], .within (bits 0x0F) 2 0xA0 0xBF)
  else if b = 0xED then ([], .within (bits 0x0F) 2 0x80 0x9F)
  else if b ≤ 0xEF then ([], .within (bits 0x0F) 2 0x80 0xBF)
  else if b = 0xF0 then ([], .within (bits 0x07) 3 0x90 0xBF)
  else if b ≤ 0xF3 then ([], .within (bits 0x07) 3 0x80 0xBF)
  else if b = 0xF4 then ([], .within (bits 0x07) 3 0x80 0x8F)
  else ([replacement], .between)

/-- One byte: the characters it completes, and the state after it. -/
def step : State → UInt8 → List Char × State
  | .between, b => lead b
  | .within value missing low high, b =>
    if low ≤ b ∧ b ≤ high then
      let value := value * 64 + (b &&& 0x3F).toNat
      if missing ≤ 1 then ([Char.ofNat value], .between)
      else ([], .within value (missing - 1) 0x80 0xBF)
    else
      let (cs, state) := lead b
      (replacement :: cs, state)

def finish : State → List Char
  | .between => []
  | .within .. => [replacement]

def decodeFrom : State → List UInt8 → List Char
  | state, [] => finish state
  | state, b :: rest =>
    let (cs, next) := step state b
    cs ++ decodeFrom next rest

def decode (bytes : List UInt8) : List Char := decodeFrom .between bytes

/-- The bounds on the next byte of every sequence lie above the bytes that stand for themselves. -/
def State.Valid : State → Prop
  | .between => True
  | .within _ _ low _ => 0x80 ≤ low

theorem valid_lead (b : UInt8) : (lead b).2.Valid := by
  unfold lead
  repeat' split
  all_goals simp [State.Valid]

theorem valid_step {state : State} (h : state.Valid) (b : UInt8) : (step state b).2.Valid := by
  cases state with
  | between => exact valid_lead b
  | within value missing low high =>
    simp only [step]
    split
    · split
      · exact trivial
      · simp [State.Valid]
    · exact valid_lead b

theorem step_of_lt {state : State} (h : state.Valid) {b : UInt8} (hb : b < 0x80) :
    step state b = (finish state ++ [Char.ofNat b.toNat], .between) := by
  cases state with
  | between => simp [step, lead, hb, finish]
  | within value missing low high =>
    have : ¬ low ≤ b := fun hl => absurd (UInt8.le_trans h hl) (UInt8.not_le.mpr hb)
    simp [step, lead, hb, finish, this]

theorem decodeFrom_append_cons {state : State} (h : state.Valid) (front : List UInt8) {b : UInt8}
    (hb : b < 0x80) (rest : List UInt8) :
    decodeFrom state (front ++ b :: rest) =
      decodeFrom state front ++ Char.ofNat b.toNat :: decode rest := by
  induction front generalizing state with
  | nil => simp [decodeFrom, step_of_lt h hb, decode]
  | cons a front ih => simp [decodeFrom, ih (valid_step h a)]

end WordMachine.Text.Utf8
