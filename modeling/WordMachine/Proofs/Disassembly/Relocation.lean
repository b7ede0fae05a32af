import WordMachine.Memory
import WordMachine.Proofs.Disassembly.Tiling

/-!
# Words that are moved

What is decoded does not depend on the words in front, which only move the addresses, nor on those
behind, unless an instruction is cut off where the words end. So wherever an image is loaded, it holds
the instructions of its own words (`decoding_relocates`).
-/

namespace WordMachine

def Fault.moved (distance : Nat) : Fault → Fault
  | .unknownOpcode opcode address => .unknownOpcode opcode (distance + address)
  | .fetchOutOfBounds address => .fetchOutOfBounds (distance + address)
  | fault => fault

namespace Instruction

theorem decodeFrom_moved {bound distance : Nat} {v w : Nat → Option Word} (h : ∀ k, v (distance + k) = w k)
    (address : Nat) : decodeFrom (distance + bound) v (distance + address) =
      (decodeFrom bound w address).mapError (Fault.moved distance) := by
  have hoperands : (fun k => v (distance + address + 1 + k)) = fun k => w (address + 1 + k) := by
    funext k
    rw [← h]
    simp only [Nat.add_assoc]
  unfold decodeFrom
  rw [h, hoperands]
  cases w address with
  | none => rfl
  | some word =>
    simp only
    cases Opcode.ofWord? word with
    | none => rfl
    | some op =>
      simp only
      cases build? op fun k => w (address + 1 + k) <;> rfl

section
variable {words : List Word} {address n : Nat}

theorem decode_eq_unknownOpcode_iff {w : Word} :
    decode words.toArray address = .error (.unknownOpcode w n) ↔
      words[address]? = some w ∧ Opcode.ofWord? w = none ∧ n = address := by
  unfold decode
  rw [decodeFrom_eq_unknownOpcode_iff, List.getElem?_toArray]

theorem decode_eq_fetchOutOfBounds_iff :
    decode words.toArray address = .error (.fetchOutOfBounds n) ↔
      words.length ≤ address ∧ n = address ∨
        ∃ op : Opcode, words[address]? = some op.word ∧ words.length ≤ address + op.arity ∧
          n = words.length := by
  have hend : ∀ k, words.toArray[k]? = none ↔ words.length ≤ k := by simp
  unfold decode
  rw [List.size_toArray, decodeFrom_eq_fetchOutOfBounds_iff hend, List.getElem?_toArray]

/-- Words in front move the addresses. -/
theorem decode_append_left (front words : List Word) (address : Nat) :
    decode (front ++ words).toArray (front.length + address) =
      (decode words.toArray address).mapError (Fault.moved front.length) := by
  have hwords : ∀ k, (front ++ words).toArray[front.length + k]? = words.toArray[k]? := by
    intro k
    rw [List.getElem?_toArray, List.getElem?_append_right (Nat.le_add_right _ k), Nat.add_sub_cancel_left,
      List.getElem?_toArray]
  unfold decode
  rw [List.size_toArray, List.size_toArray, List.length_append]
  exact decodeFrom_moved hwords address

theorem decode_append_of_ok {i : Instruction} (h : decode words.toArray address = .ok i) (back : List Word) :
    decode (words ++ back).toArray address = .ok i := by
  unfold decode at h ⊢
  rw [decodeFrom_eq_ok_iff] at h ⊢
  intro k hk
  have hword := h k hk
  rw [← i.length_words] at hk
  have hin : address + k < words.length := by
    apply Nat.lt_of_not_le
    intro hout
    simp [hout, hk] at hword
  rw [← hword, List.getElem?_toArray, List.getElem?_append_left hin, List.getElem?_toArray]

theorem decode_append_of_unknownOpcode {w : Word}
    (h : decode words.toArray address = .error (.unknownOpcode w n))
    (back : List Word) : decode (words ++ back).toArray address = .error (.unknownOpcode w n) := by
  rw [decode_eq_unknownOpcode_iff] at h ⊢
  have hin : address < words.length := (List.getElem?_eq_some_iff.mp h.1).1
  rw [List.getElem?_append_left hin]
  exact h

end

end Instruction

namespace Line

def moved (distance : Nat) (line : Line) : Line :=
  ⟨distance + line.address, line.result.mapError (Fault.moved distance)⟩

/-- The instruction, if there is one, does not reach beyond the last word. -/
def Entire (line : Line) : Prop := ∀ n, line.result ≠ .error (.fetchOutOfBounds n)

theorem width_moved (distance : Nat) (line : Line) : (line.moved distance).width = line.width := by
  unfold moved width
  cases line.result <;> rfl

theorem decode_append_left (front words : List Word) (address : Nat) :
    decode (front ++ words).toArray (front.length + address) =
      (decode words.toArray address).moved front.length := by
  simp [decode, moved, Instruction.decode_append_left]

theorem decode_append_right {words : List Word} {address : Nat} (h : (decode words.toArray address).Entire)
    (back : List Word) : decode (words ++ back).toArray address = decode words.toArray address := by
  have hresult :
      Instruction.decode (words ++ back).toArray address = Instruction.decode words.toArray address := by
    cases hd : Instruction.decode words.toArray address with
    | ok i => exact Instruction.decode_append_of_ok hd back
    | error fault =>
      rcases Instruction.decode_error_cases hd with ⟨w, rfl⟩ | ⟨n, rfl⟩
      · exact Instruction.decode_append_of_unknownOpcode hd back
      · exact absurd hd (h n)
  simp [decode, hresult]

end Line

namespace Disassembly

theorem linesFrom_append_left (front words : List Word) (stop cursor : Nat) :
    linesFrom (front ++ words).toArray (front.length + stop) (front.length + cursor) =
      (linesFrom words.toArray stop cursor).map (Line.moved front.length) := by
  induction cursor using linesFrom.induct words.toArray stop with
  | case1 cursor h line ih =>
    rw [linesFrom_of_lt (Nat.add_lt_add_left h _), linesFrom_of_lt h, List.map_cons, Line.decode_append_left,
      Line.width_moved, Nat.add_assoc]
    exact congrArg _ ih
  | case2 cursor h =>
    have hle : stop ≤ cursor := Nat.le_of_not_lt h
    rw [linesFrom_of_le hle, linesFrom_of_le (Nat.add_le_add_left hle _)]
    rfl

theorem linesFrom_append_right {words : List Word} {stop cursor : Nat}
    (hentire : ∀ line ∈ linesFrom words.toArray stop cursor, line.Entire) (back : List Word) :
    linesFrom (words ++ back).toArray stop cursor = linesFrom words.toArray stop cursor := by
  induction cursor using linesFrom.induct words.toArray stop with
  | case1 cursor h line ih =>
    rw [linesFrom_of_lt h] at hentire
    have hline := Line.decode_append_right (hentire _ List.mem_cons_self) back
    rw [linesFrom_of_lt h, linesFrom_of_lt h, hline,
      ih fun line hl => hentire line (List.mem_cons_of_mem _ hl)]
  | case2 cursor h => rw [linesFrom_of_le (Nat.le_of_not_lt h), linesFrom_of_le (Nat.le_of_not_lt h)]

theorem lines_append_left (front words : List Word) (start stop : Nat) :
    lines (front ++ words).toArray (front.length + start) (front.length + stop) =
      (lines words.toArray start stop).map (Line.moved front.length) := by
  unfold lines
  rw [List.size_toArray, List.size_toArray, List.length_append, Nat.add_min_add_left]
  exact linesFrom_append_left front words _ start

theorem lines_append_right {words : List Word} {start stop : Nat} (hstop : stop ≤ words.length)
    (hentire : ∀ line ∈ lines words.toArray start stop, line.Entire) (back : List Word) :
    lines (words ++ back).toArray start stop = lines words.toArray start stop := by
  have hstop' : stop ≤ (words ++ back).length := by
    rw [List.length_append]
    exact Nat.le_add_right_of_le hstop
  unfold lines at hentire ⊢
  simp only [List.size_toArray, Nat.min_eq_left hstop, Nat.min_eq_left hstop'] at hentire ⊢
  exact linesFrom_append_right hentire back

end Disassembly

/-- Where an image was loaded, its words stand between others. -/
theorem Memory.exists_words_of_load {memory loaded : Memory} {base : Nat} {image : Image}
    (h : memory.load base image = .ok loaded) :
    ∃ front back, front.length = base ∧ loaded.words.toArray = (front ++ (image.words ++ back)).toArray := by
  obtain ⟨hfit, rfl⟩ := load_eq_ok_iff.mp h
  have hbase : base ≤ Word.modulus := Nat.le_of_add_right_le hfit
  exact ⟨memory.words.toList.take base, memory.words.toList.drop (base + image.words.length),
    by simp [hbase], rfl⟩

namespace Disassembly

open Instruction (decode)

/-- Words in front add their number to the addresses of lines and faults. Words behind change nothing where
an instruction or a word that is no opcode was found; what they can change is an instruction whose words
go on behind the last, or an address that is behind it. So an image that is loaded somewhere holds the
instructions of its own words, and lists as they do if none of them is cut off. -/
theorem decoding_relocates (words : List Word) :
    (∀ (front : List Word) address, decode (front ++ words).toArray (front.length + address) =
      (decode words.toArray address).mapError (Fault.moved front.length)) ∧
    (∀ back address i, decode words.toArray address = .ok i →
      decode (words ++ back).toArray address = .ok i) ∧
    (∀ back address w n, decode words.toArray address = .error (.unknownOpcode w n) →
      decode (words ++ back).toArray address = .error (.unknownOpcode w n)) ∧
    (∀ address n, decode words.toArray address = .error (.fetchOutOfBounds n) ↔
      words.length ≤ address ∧ n = address ∨
        ∃ op : Opcode, words[address]? = some op.word ∧ words.length ≤ address + op.arity ∧
          n = words.length) ∧
    (∀ front start stop, lines (front ++ words).toArray (front.length + start) (front.length + stop) =
      (lines words.toArray start stop).map (Line.moved front.length)) ∧
    ∀ (memory loaded : Memory) base, memory.load base ⟨words⟩ = .ok loaded →
      (∀ address i, decode words.toArray address = .ok i →
        decode loaded.words.toArray (base + address) = .ok i) ∧
      ∀ start stop, stop ≤ words.length → (∀ line ∈ lines words.toArray start stop, line.Entire) →
        lines loaded.words.toArray (base + start) (base + stop) =
          (lines words.toArray start stop).map (Line.moved base) := by
  refine ⟨fun front => Instruction.decode_append_left front words,
    fun back address i h => Instruction.decode_append_of_ok h back,
    fun back address w n h => Instruction.decode_append_of_unknownOpcode h back,
    fun address n => Instruction.decode_eq_fetchOutOfBounds_iff,
      fun front => lines_append_left front words, ?_⟩
  intro memory loaded base h
  obtain ⟨front, back, hbase, hloaded⟩ := Memory.exists_words_of_load h
  rw [← hbase, hloaded]
  refine ⟨?_, ?_⟩
  · intro address i hi
    rw [Instruction.decode_append_left, Instruction.decode_append_of_ok hi]
    rfl
  · intro start stop hstop hentire
    rw [lines_append_left, lines_append_right hstop hentire]

/-- A jump, a word that is no opcode, and an addition that lacks two operands. -/
def stump : List Word := [6, 32770, 30, 9, 1]

theorem decoding_relocates_stump :
    ∃ loaded, Memory.empty.load 100 ⟨stump⟩ = .ok loaded ∧
      decode stump.toArray 0 = .ok (.jump 32770) ∧ decode loaded.words.toArray 100 = .ok (.jump 32770) ∧
      decode stump.toArray 3 = .error (.fetchOutOfBounds 5) ∧
      decode (stump ++ [2, 3]).toArray 2 = .error (.unknownOpcode 30 2) ∧
      decode ([7] ++ stump).toArray 4 = .error (.fetchOutOfBounds 6) := by
  obtain ⟨hfront, _, hback, hcut, _, hload⟩ := decoding_relocates stump
  have hfit : 100 + stump.length ≤ Word.modulus := by decide
  have hjump : decode stump.toArray 0 = .ok (.jump 32770) := rfl
  have hunknown : decode stump.toArray 2 = .error (.unknownOpcode 30 2) := rfl
  have hstump : decode stump.toArray 3 = .error (.fetchOutOfBounds 5) :=
    (hcut 3 5).mpr (Or.inr ⟨.binary .add, rfl, by decide, rfl⟩)
  have hloaded : Memory.empty.load 100 ⟨stump⟩ = .ok (Memory.empty.overlay 100 stump hfit) := dif_pos hfit
  refine ⟨_, hloaded, hjump, (hload _ _ 100 hloaded).1 0 _ hjump, hstump, hback _ _ _ _ hunknown, ?_⟩
  exact (hfront [7] 3).trans (by rw [hstump]; rfl)

end Disassembly

end WordMachine
