import WordMachine.Disassembly.Listing
import WordMachine.Memory
import WordMachine.Proofs.Disassembly.Tiling

/-!
# Disassembling a program

A program is a list of instructions. Its words, written to bytes, read back and loaded anywhere in
memory, disassemble to the same instructions at the addresses where they were put
(`lines_program`).
-/

namespace WordMachine

def Instruction.extent : List Instruction → Nat
  | [] => 0
  | i :: rest => i.size + extent rest

theorem Instruction.length_flatMap_words (program : List Instruction) :
    (program.flatMap words).length = extent program := by
  induction program with
  | nil => rfl
  | cons i rest ih => rw [List.flatMap_cons, List.length_append, length_words, ih, extent]

theorem Instruction.decode_embedded (front back : List Word) (i : Instruction) :
    decode (front ++ (i.words ++ back)).toArray front.length = .ok i := by
  apply decode_eq_ok_iff.mpr
  rw [List.drop_left, ← i.length_words, List.take_left]

namespace Disassembly

open Instruction (extent)

/-- The lines of a program whose first word is at `address`. -/
def layout (address : Nat) : List Instruction → List Line
  | [] => []
  | i :: rest => ⟨address, .ok i⟩ :: layout (address + i.size) rest

theorem length_layout (address : Nat) (program : List Instruction) :
    (layout address program).length = program.length := by
  induction program generalizing address with
  | nil => rfl
  | cons i rest ih => simp [layout, ih]

theorem getElem?_layout (address : Nat) (program : List Instruction) (k : Nat) :
    (layout address program)[k]? =
      program[k]?.map fun i => ⟨address + extent (program.take k), .ok i⟩ := by
  induction program generalizing address k with
  | nil => rfl
  | cons i rest ih =>
    cases k with
    | zero => rfl
    | succ k => simp [layout, ih, extent, Nat.add_assoc]

theorem linesFrom_embedded (front back : List Word) (program : List Instruction) :
    linesFrom (front ++ (program.flatMap Instruction.words ++ back)).toArray
      (front.length + extent program) front.length = layout front.length program := by
  induction program generalizing front with
  | nil => exact linesFrom_of_le (Nat.le_refl _)
  | cons i rest ih =>
    have hd := Instruction.decode_embedded front (rest.flatMap Instruction.words ++ back) i
    -- behind the first instruction, its words belong to what stands in front
    have ih := ih (front ++ i.words)
    have hlt : front.length < front.length + extent (i :: rest) := by
      simp only [extent, Instruction.size]
      omega
    rw [List.append_assoc, List.length_append, i.length_words] at ih
    rw [List.flatMap_cons, List.append_assoc, linesFrom_of_lt hlt, extent, ← Nat.add_assoc, layout]
    simp only [Line.decode, hd, Line.width, ih]

theorem writeLines_unbounded (lines : List Line) (count : Nat) {sink : Sink} (h : sink.room = none) :
    (writeLines lines count sink).1 = .ok (count + lines.length) := by
  induction lines generalizing count sink with
  | nil => rfl
  | cons line rest ih =>
    simp only [writeLines, Sink.write, h]
    apply (ih (count + 1) rfl).trans
    rw [List.length_cons, Nat.add_assoc, Nat.add_comm 1]

theorem lines_program (program : List Instruction) (base : Nat) (h : base + extent program ≤ 32768) :
    let image : Image := ⟨program.flatMap Instruction.words⟩
    ∃ memory, Memory.empty.load base (.ofBytes image.toBytes) = .ok memory ∧
      let listed := lines memory.words.toArray base (base + extent program)
      listed.length = program.length ∧
        (∀ (k : Nat) i, program[k]? = some i → listed[k]? = some ⟨base + extent (program.take k), .ok i⟩) ∧
        ∀ sink : Sink, sink.room = none → (write listed sink).1 = .ok program.length := by
  intro image
  have hlen := Instruction.length_flatMap_words program
  have hfit : base + (program.flatMap Instruction.words).length ≤ Word.modulus := by
    rw [hlen]
    exact h
  let memory := Memory.empty.overlay base (program.flatMap Instruction.words) hfit
  have hload : Memory.empty.load base (.ofBytes image.toBytes) = .ok memory := by
    rw [Image.ofBytes_toBytes]
    exact dif_pos hfit
  have hlisted : lines memory.words.toArray base (base + extent program) = layout base program := by
    have hbase : (Memory.empty.words.toList.take base).length = base := by
      rw [List.length_take, Vector.length_toList]
      omega
    have := linesFrom_embedded (Memory.empty.words.toList.take base)
      (Memory.empty.words.toList.drop (base + (program.flatMap Instruction.words).length)) program
    rw [hbase] at this
    rw [lines, memory.words.size_toArray, Nat.min_eq_left h]
    exact this
  refine ⟨memory, hload, ?_⟩
  rw [hlisted]
  refine ⟨length_layout base program, ?_, ?_⟩
  · intro k i hk
    simp [getElem?_layout, hk]
  · intro sink hs
    rw [write, writeLines_unbounded _ _ hs, length_layout, Nat.zero_add]

/-- Ends where memory ends, with operands that no instruction can use. -/
def brim : List Instruction := [.binary .multiply 65535 40000 7, .jumpIf false 32776 65535, .ret]

theorem lines_program_brim :
    32760 + extent brim ≤ 32768 ∧
      ∃ memory, Memory.empty.load 32760
        (.ofBytes (Image.mk (brim.flatMap Instruction.words)).toBytes) = .ok memory ∧
        let listed := lines memory.words.toArray 32760 32768
        listed.length = 3 ∧ listed[1]? = some ⟨32764, .ok (.jumpIf false 32776 65535)⟩ ∧
          listed[2]? = some ⟨32767, .ok .ret⟩ ∧ (write listed {}).1 = .ok 3 := by
  have h : 32760 + extent brim ≤ 32768 := by decide
  obtain ⟨memory, hload, hlength, hline, hwrite⟩ := lines_program brim 32760 h
  exact ⟨h, memory, hload, hlength, hline 1 _ rfl, hline 2 _ rfl, hwrite {} rfl⟩

end Disassembly

end WordMachine
