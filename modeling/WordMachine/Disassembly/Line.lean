import WordMachine.Instruction.Decode

/-!
# Disassembly

A range of memory is listed line by line. A line is the instruction decoded at its address and
covers the words of that instruction; where nothing can be decoded it covers one word. The next
line starts right behind, so the lines tile the range.
-/

namespace WordMachine

structure Line where
  address : Nat
  /-- The instruction there, or why there is none. -/
  result : Except Fault Instruction

namespace Line

def decode (words : Array Word) (address : Nat) : Line :=
  ⟨address, Instruction.decode words address⟩

def width (line : Line) : Nat :=
  match line.result with
  | .ok instruction => instruction.size
  | .error _ => 1

theorem width_pos (line : Line) : 0 < line.width := by
  unfold width
  split
  · exact Nat.lt_add_right _ Nat.one_pos
  · exact Nat.one_pos

/-- The address in at least five places, then the instruction or the fault. -/
def text (line : Line) : String :=
  Text.padLeft '0' 5 (Text.decimal line.address) ++ " " ++
    match line.result with
    | .ok instruction => instruction.text
    | .error fault => fault.message

end Line

namespace Disassembly

/-- The lines that start in `cursor, …, stop - 1`, one right behind the other. -/
def linesFrom (words : Array Word) (stop cursor : Nat) : List Line :=
  if cursor < stop then
    let line := Line.decode words cursor
    line :: linesFrom words stop (cursor + line.width)
  else []
termination_by stop - cursor
decreasing_by
  have := (Line.decode words cursor).width_pos
  omega

/-- The lines that start in `start, …, stop - 1`. Nothing is listed past the end of memory, but
the last instruction may reach beyond `stop`. -/
def lines (words : Array Word) (start stop : Nat) : List Line :=
  linesFrom words (min stop words.size) start

end Disassembly

end WordMachine
