import Mathlib.Data.List.Chain
import WordMachine.Disassembly.Line

/-!
# Listings tile memory

The lines of a range lie one right behind the other. Each covers the words of its instruction, or
one word where nothing can be decoded, and together they give back the words from the start of the
range to where the last line ends (`lines_tile`).
-/

namespace WordMachine

def Line.covered (words : Array Word) (line : Line) : List Word :=
  match line.result with
  | .ok instruction => instruction.words
  | .error _ => words[line.address]?.toList

theorem Line.width_le (line : Line) : line.width ≤ 4 := by
  unfold width
  split
  · rename_i i _
    have := i.opcode.arity_le
    simp only [Instruction.size]
    omega
  · omega

theorem Instruction.decode_eq_ok_iff {words : Array Word} {address : Nat} {i : Instruction} :
    decode words address = .ok i ↔ (words.toList.drop address).take i.size = i.words := by
  have hlen := i.length_words
  unfold decode
  rw [decodeFrom_eq_ok_iff]
  refine ⟨?_, ?_⟩
  · intro h
    apply List.ext_getElem?
    intro k
    by_cases hk : k < i.size
    · rw [List.getElem?_take_of_lt hk, List.getElem?_drop, Array.getElem?_toList, h k hk]
    · rw [List.getElem?_eq_none (by simp; omega), List.getElem?_eq_none (by omega)]
  · intro h k hk
    rw [← h, List.getElem?_take_of_lt hk, List.getElem?_drop, Array.getElem?_toList]

theorem Instruction.decode_error_cases {words : Array Word} {address : Nat} {fault : Fault}
    (h : decode words address = .error fault) :
    (∃ w, fault = .unknownOpcode w address) ∨ ∃ n, fault = .fetchOutOfBounds n := by
  rcases decodeFrom_error_cases h with ⟨w, _, _, rfl⟩ | ⟨_, rfl⟩ | rfl
  · exact Or.inl ⟨w, rfl⟩
  · exact Or.inr ⟨address, rfl⟩
  · exact Or.inr ⟨words.size, rfl⟩

namespace Disassembly

/-- Where the last of the lines ends, if the first begins at `start`. -/
def reach (start : Nat) (lines : List Line) : Nat :=
  lines.foldl (fun cursor line => cursor + line.width) start

@[simp] theorem reach_nil (start : Nat) : reach start [] = start := rfl

@[simp] theorem reach_cons (start : Nat) (line : Line) (rest : List Line) :
    reach start (line :: rest) = reach (start + line.width) rest := rfl

theorem le_reach (start : Nat) (lines : List Line) : start + lines.length ≤ reach start lines := by
  induction lines generalizing start with
  | nil => simp
  | cons line rest ih =>
    have := line.width_pos
    have := ih (start + line.width)
    simp only [List.length_cons, reach_cons]
    omega

section
variable {words : Array Word} {stop cursor : Nat}

theorem covered_decode (h : cursor < words.size) :
    (Line.decode words cursor).covered words =
        (words.toList.drop cursor).take (Line.decode words cursor).width ∧
      cursor + (Line.decode words cursor).width ≤ words.size := by
  unfold Line.covered Line.width Line.decode
  cases hd : Instruction.decode words cursor with
  | ok i =>
    have hw := Instruction.decode_eq_ok_iff.mp hd
    refine ⟨hw.symm, ?_⟩
    have hlen := congrArg List.length hw
    simp only [List.length_take, List.length_drop, Array.length_toList, i.length_words] at hlen
    show cursor + i.size ≤ words.size
    omega
  | error fault =>
    refine ⟨?_, h⟩
    simp only [← Array.getElem?_toList]
    rw [List.take_one, List.head?_drop]

theorem linesFrom_of_le (h : stop ≤ cursor) : linesFrom words stop cursor = [] := by
  rw [linesFrom, if_neg (Nat.not_lt.mpr h)]

theorem linesFrom_of_lt (h : cursor < stop) :
    linesFrom words stop cursor =
      Line.decode words cursor :: linesFrom words stop (cursor + (Line.decode words cursor).width) := by
  rw [linesFrom, if_pos h]

theorem address_head_linesFrom : ∀ line ∈ (linesFrom words stop cursor).head?, line.address = cursor := by
  intro line hl
  by_cases h : cursor < stop
  · rw [linesFrom_of_lt h, List.head?_cons, Option.mem_some_iff] at hl
    rw [← hl]
    rfl
  · simp [linesFrom_of_le (Nat.not_lt.mp h)] at hl

theorem isChain_linesFrom (words : Array Word) (stop cursor : Nat) :
    (linesFrom words stop cursor).IsChain fun line next => next.address = line.address + line.width := by
  induction cursor using linesFrom.induct words stop with
  | case1 cursor h line ih =>
    rw [linesFrom_of_lt h, List.isChain_cons]
    exact ⟨address_head_linesFrom, ih⟩
  | case2 cursor h => simp [linesFrom_of_le (Nat.not_lt.mp h)]

theorem mem_linesFrom (words : Array Word) (stop cursor : Nat) :
    ∀ line ∈ linesFrom words stop cursor, line.address < stop ∧
      line.result = Instruction.decode words line.address := by
  induction cursor using linesFrom.induct words stop with
  | case1 cursor h first ih =>
    intro line hl
    rw [linesFrom_of_lt h] at hl
    rcases List.mem_cons.mp hl with rfl | hl
    · exact ⟨h, rfl⟩
    · exact ih line hl
  | case2 cursor h => simp [linesFrom_of_le (Nat.not_lt.mp h)]

/-- Only the last line can reach beyond the range, and no line reaches beyond memory. -/
theorem reach_linesFrom (hs : stop ≤ words.size) (h : cursor < stop) :
    stop ≤ reach cursor (linesFrom words stop cursor) ∧
      reach cursor (linesFrom words stop cursor) ≤ min (stop + 3) words.size := by
  induction cursor using linesFrom.induct words stop with
  | case1 cursor _ line ih =>
    rw [linesFrom_of_lt h, reach_cons]
    by_cases hn : cursor + line.width < stop
    · exact ih hn
    · -- the last line: it begins inside the range, so its width alone bounds how far it reaches
      have := (covered_decode (Nat.lt_of_lt_of_le h hs)).2
      have := (Line.decode words cursor).width_le
      rw [linesFrom_of_le (Nat.not_lt.mp hn), reach_nil]
      simp only [line] at hn
      omega
  | case2 cursor hn => exact absurd h hn

theorem covered_linesFrom (hs : stop ≤ words.size) (cursor : Nat) :
    (linesFrom words stop cursor).flatMap (Line.covered words) =
      (words.toList.take (reach cursor (linesFrom words stop cursor))).drop cursor := by
  induction cursor using linesFrom.induct words stop with
  | case1 cursor h line ih =>
    have hc := (covered_decode (Nat.lt_of_lt_of_le h hs)).1
    have hr := le_reach (cursor + line.width) (linesFrom words stop (cursor + line.width))
    rw [linesFrom_of_lt h, List.flatMap_cons, reach_cons, hc, ih]
    generalize reach (cursor + line.width) (linesFrom words stop (cursor + line.width)) = final at hr ⊢
    -- the words up to `final` are those of this line and, behind it, those of the others
    have hf : final - cursor = line.width + (final - (cursor + line.width)) := by omega
    rw [List.drop_take, List.drop_take, hf, List.take_add, List.drop_drop]
  | case2 cursor h => simp [linesFrom_of_le (Nat.not_lt.mp h)]

end

/-- The lines of a range begin where it begins, follow each other without a gap or an overlap, and
cover the words up to the end of the range, of memory, or of an instruction that begins before. -/
theorem lines_tile (words : Array Word) (start stop : Nat) :
    let bound := min stop words.size
    let listed := lines words start stop
    let final := reach start listed
    (bound ≤ start → listed = []) ∧
      (start < bound → ∃ first rest, listed = first :: rest ∧ first.address = start) ∧
      listed.IsChain (fun line next => next.address = line.address + line.width) ∧
      (∀ line ∈ listed, line.address < bound ∧ line.result = Instruction.decode words line.address) ∧
      (start < bound → bound ≤ final ∧ final ≤ min (bound + 3) words.size) ∧
      listed.length ≤ final - start ∧
      listed.flatMap (Line.covered words) = (words.toList.take final).drop start := by
  intro bound listed final
  have hb : bound ≤ words.size := Nat.min_le_right stop words.size
  refine ⟨linesFrom_of_le, ?_, isChain_linesFrom words bound start, mem_linesFrom words bound start,
    reach_linesFrom hb, Nat.le_sub_of_add_le' (le_reach start listed), covered_linesFrom hb start⟩
  intro h
  exact ⟨_, _, linesFrom_of_lt h, rfl⟩

/-- A word that is no opcode, two instructions, and a third whose operands memory cuts off. -/
def broken : Array Word := #[30, 19, 65, 21, 9, 32768]

theorem lines_tile_broken :
    0 < min 5 broken.size ∧
      min 5 broken.size ≤ reach 0 (lines broken 0 5) ∧
      (lines broken 0 5).flatMap (Line.covered broken) = [30, 19, 65, 21, 9] := by
  obtain ⟨_, _, _, _, hr, _, hc⟩ := lines_tile broken 0 5
  have h0 : 0 < min 5 broken.size := by decide
  have hf : reach 0 (lines broken 0 5) = 5 := by
    rw [lines, linesFrom_of_lt (by decide), linesFrom_of_lt (by decide +kernel),
      linesFrom_of_lt (by decide +kernel), linesFrom_of_lt (by decide +kernel),
      linesFrom_of_le (by decide +kernel)]
    decide +kernel
  rw [hf] at hc
  exact ⟨h0, (hr h0).1, hc⟩

end Disassembly

end WordMachine
