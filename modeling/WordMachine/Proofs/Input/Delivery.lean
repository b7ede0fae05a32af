import Mathlib.Data.List.TakeDrop
import Mathlib.Data.List.TakeWhile
import WordMachine.Proofs.Input.Lines

/-!
# Delivery

A line buffer hands out, call by call, the codes that its stream decodes to as a whole, and then
nothing any more (`delivers_decoded_stream`). What it still has to hand out is a function of its
state, and each call takes the first code off it.
-/

namespace WordMachine

namespace Source

theorem bne_lineFeed {content : List UInt8} (h : lineFeed ∉ content) :
    ∀ b ∈ content, (b != lineFeed) = true := by
  intro b hb
  exact bne_iff_ne.mpr (ne_of_mem_of_not_mem hb h)

theorem readBytes_append {content : List UInt8} (h : lineFeed ∉ content) (rest : List UInt8) :
    readBytes (content ++ lineFeed :: rest) = (.line content, rest) := by
  have hall := bne_lineFeed h
  unfold readBytes
  rw [List.span_eq_takeWhile_dropWhile, List.takeWhile_append_of_pos hall, List.dropWhile_append_of_pos hall]
  simp

theorem readBytes_of_not_mem {content : List UInt8} (hne : content ≠ []) (h : lineFeed ∉ content) :
    readBytes content = (.unterminated content, []) := by
  have hall := bne_lineFeed h
  unfold readBytes
  rw [List.span_eq_takeWhile_dropWhile, List.takeWhile_eq_self_iff.mpr hall,
    List.dropWhile_eq_nil_iff.mpr hall]
  cases content with
  | nil => exact absurd rfl hne
  | cons b content => rfl

end Source

namespace LineBuffer

open Source (lineFeed)

/-- The codes that a buffer has still to hand out. -/
def remaining (buffer : LineBuffer) : List Word := buffer.pending ++ codes (normalise buffer.source.bytes)

theorem exists_start (source : Source) (content : List UInt8) :
    ∃ code pending, start source content = (code, { source, pending }) ∧
      code :: pending = codes content ++ [terminator] := by
  unfold start
  cases codes content with
  | nil => exact ⟨terminator, [], rfl, rfl⟩
  | cons code rest => exact ⟨code, rest ++ [terminator], rfl, rfl⟩

theorem start_remaining (bytes content : List UInt8) :
    (start { bytes } content).1 :: (start { bytes } content).2.remaining =
        codes content ++ terminator :: codes (normalise bytes) ∧
      (start { bytes } content).2.source = { bytes } := by
  obtain ⟨code, pending, hstart, hcodes⟩ := exists_start { bytes } content
  rw [hstart, remaining, ← List.cons_append, hcodes, List.append_assoc]
  exact ⟨rfl, rfl⟩

/-! ## Single calls -/

section
variable {content : List UInt8} (h : lineFeed ∉ content)
include h

theorem next_line (rest : List UInt8) :
    (ofBytes (content ++ lineFeed :: rest)).next =
      (.ok (start { bytes := rest } (dropReturn content)).1,
        (start { bytes := rest } (dropReturn content)).2) := by
  simp [next, ofBytes, Source.read, Source.readSmooth, Source.readBytes_append h]

theorem next_last (hne : content ≠ []) :
    (ofBytes content).next = (.ok (start { bytes := [] } content).1, (start { bytes := [] } content).2) := by
  simp [next, ofBytes, Source.read, Source.readSmooth, Source.readBytes_of_not_mem hne h]

end

theorem next_ofBytes (bytes : List UInt8) :
    (ofBytes bytes).next.1 =
        (match (codes (normalise bytes)).head? with | some code => .ok code | none => .error ended) ∧
      (ofBytes bytes).next.2.remaining = (codes (normalise bytes)).tail ∧
      (ofBytes bytes).next.2.source.obstacle = none := by
  induction bytes using line_induction with
  | nil => exact ⟨rfl, rfl, rfl⟩
  | last content hne h =>
    obtain ⟨hcodes, hsource⟩ := start_remaining [] content
    rw [normalise_nil] at hcodes
    rw [normalise_of_not_mem hne h, next_last h hne, codes_append, ← hcodes]
    exact ⟨rfl, rfl, congrArg Source.obstacle hsource⟩
  | line content rest h _ =>
    obtain ⟨hcodes, hsource⟩ := start_remaining rest (dropReturn content)
    rw [normalise_append h, next_line h, codes_append, ← hcodes]
    exact ⟨rfl, rfl, congrArg Source.obstacle hsource⟩

/-- A call hands out the first of the remaining codes and leaves the others. -/
theorem next_remaining {buffer : LineBuffer} (h : buffer.source.obstacle = none) :
    buffer.next.1 = (match buffer.remaining.head? with | some code => .ok code | none => .error ended) ∧
      buffer.next.2.remaining = buffer.remaining.tail ∧ buffer.next.2.source.obstacle = none := by
  obtain ⟨⟨bytes, obstacle⟩, pending⟩ := buffer
  cases h
  cases pending with
  | cons code rest => exact ⟨rfl, rfl, rfl⟩
  | nil => exact next_ofBytes bytes

/-! ## All calls -/

/-- The answer of a call after so many others. -/
def answer (buffer : LineBuffer) : Nat → Except Failure Word
  | 0 => buffer.next.1
  | k + 1 => buffer.next.2.answer k

theorem answer_eq {buffer : LineBuffer} (h : buffer.source.obstacle = none) (k : Nat) :
    buffer.answer k = match buffer.remaining[k]? with | some code => .ok code | none => .error ended := by
  induction k generalizing buffer with
  | zero =>
    rw [← List.head?_eq_getElem?]
    exact (next_remaining h).1
  | succ k ih =>
    obtain ⟨_, hrest, hnone⟩ := next_remaining h
    rw [answer, ih hnone, hrest, List.getElem?_tail]

/-- The answers are the UTF-16 codes of the whole normalised stream, decoded at once, and then that
it has ended. The same codes are those of its lines, each closed by a code that no line contains. -/
theorem delivers_decoded_stream (bytes : List UInt8) :
    (∀ k, (ofBytes bytes).answer k =
        match (codes (normalise bytes))[k]? with | some code => .ok code | none => .error ended) ∧
      ended.kind = .unexpectedEnd ∧
      codes (normalise bytes) = Text.Utf16.encode (Text.Utf8.decode (normalise bytes)) ∧
      ∃ lines : List (List UInt8),
        (∀ line ∈ lines, lineFeed ∉ line ∧ terminator ∉ codes line) ∧
          normalise bytes = lines.flatMap (· ++ [lineFeed]) ∧
          codes (normalise bytes) = lines.flatMap (codes · ++ [terminator]) :=
  ⟨answer_eq rfl, rfl, rfl, exists_lines bytes⟩

/-- Two carriage returns before a line feed, and a last line with half a character and no end. -/
example : (List.range 8).map (ofBytes [97, 13, 13, 10, 0xE2, 0x82]).answer =
    [.ok 97, .ok 13, .ok 10, .ok 0xFFFD, .ok 10, .error ended, .error ended, .error ended] := by
  rfl

end LineBuffer

end WordMachine
