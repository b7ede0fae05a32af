import WordMachine.Proofs.Disassembly.Legibility

/-!
# Listings that do not fit

A bounded sink keeps the front of what is written to it, up to its room, and it makes no difference into which
pieces the bytes fall or how many of them each call takes (`Sink.offered_iff`). So a listing is written
as a whole and its lines are counted, or it is cut where the room ends and the failure is reported
(`write_truncates`).
-/

namespace WordMachine

namespace Sink

/-- What comes of offering bytes to a bounded sink, call by call, in pieces of any size. While there is room,
a call takes one or more bytes off the front of those that are left. A call that takes none fails. -/
inductive Offered : Sink → ByteArray → Except Failure Unit × Sink → Prop
  | done {sink} : Offered sink .empty (.ok (), sink)
  | taken {sink room piece rest x} : sink.room = some room → 0 < piece.size → piece.size ≤ room →
      Offered { bytes := sink.bytes ++ piece, room := some (room - piece.size) } rest x →
      Offered sink (piece ++ rest) x
  | refused {sink bytes} : sink.room = some 0 → 0 < bytes.size → Offered sink bytes (.error full, sink)

section
variable {sink : Sink} {room : Nat} (h : sink.room = some room)
include h

theorem write_of_le {bytes : ByteArray} (hle : bytes.size ≤ room) :
    sink.write bytes = (.ok (), { bytes := sink.bytes ++ bytes, room := some (room - bytes.size) }) := by
  simp only [write, h, hle, if_true]

theorem write_of_gt {bytes : ByteArray} (hgt : room < bytes.size) :
    sink.write bytes = (.error full, { bytes := sink.bytes ++ bytes.extract 0 room, room := some 0 }) := by
  simp only [write, h, Nat.not_le_of_lt hgt, if_false]

theorem write_empty : sink.write .empty = (.ok (), sink) := by
  obtain ⟨bytes, _⟩ := sink
  cases h
  rw [write_of_le rfl (Nat.zero_le room), ByteArray.append_empty, ByteArray.size_empty, Nat.sub_zero]

/-- Behind a front that fits, the rest is written to the room that is left. -/
theorem write_append_of_le {front : ByteArray} (hle : front.size ≤ room) (back : ByteArray) :
    sink.write (front ++ back) =
      write { bytes := sink.bytes ++ front, room := some (room - front.size) } back := by
  by_cases hback : back.size ≤ room - front.size
  · have hboth : (front ++ back).size ≤ room := by
      rw [ByteArray.size_append]
      omega
    rw [write_of_le h hboth, write_of_le rfl hback, ByteArray.append_assoc, ByteArray.size_append,
      Nat.sub_sub]
  · have hboth : room < (front ++ back).size := by
      rw [ByteArray.size_append]
      omega
    have hfront : front.extract 0 room = front := by
      rw [← Nat.max_eq_left hle]
      exact ByteArray.extract_zero_max_size
    rw [write_of_gt h hboth, write_of_gt rfl (Nat.lt_of_not_le hback), ByteArray.append_assoc,
      ByteArray.extract_append, hfront, Nat.zero_sub]

/-- Behind a front that does not fit, nothing is written. -/
theorem write_append_of_gt {front : ByteArray} (hgt : room < front.size) (back : ByteArray) :
    sink.write (front ++ back) = sink.write front := by
  have hboth : room < (front ++ back).size := by
    rw [ByteArray.size_append]
    omega
  have hback : back.extract 0 (room - front.size) = .empty := by
    rw [Nat.sub_eq_zero_of_le (Nat.le_of_lt hgt), ByteArray.extract_same]
  rw [write_of_gt h hboth, write_of_gt h hgt, ByteArray.extract_append, Nat.zero_sub, hback,
    ByteArray.append_empty]

end

theorem exists_front {bytes : ByteArray} {size : Nat} (h : size ≤ bytes.size) :
    ∃ front back, bytes = front ++ back ∧ front.size = size := by
  refine ⟨bytes.extract 0 size, bytes.extract size bytes.size, ?_, ?_⟩
  · rw [← ByteArray.extract_eq_extract_append_extract size (Nat.zero_le size) h, ByteArray.extract_zero_size]
  · rw [ByteArray.size_extract]
    omega

theorem write_of_full {sink : Sink} (h : sink.room = some 0) {bytes : ByteArray} (hpos : 0 < bytes.size) :
    sink.write bytes = (.error full, sink) := by
  obtain ⟨_, _⟩ := sink
  cases h
  rw [write_of_gt rfl hpos, ByteArray.extract_same, ByteArray.append_empty]

section
variable {sink : Sink} {room : Nat} (h : sink.room = some room)
include h

/-- One call takes all that fits. If there is more, a second one fails. -/
theorem offered_write (bytes : ByteArray) : Offered sink bytes (sink.write bytes) := by
  by_cases hempty : bytes = .empty
  · subst hempty
    rw [write_empty h]
    exact .done
  · have hpos : 0 < bytes.size := Nat.pos_of_ne_zero fun hz => hempty (ByteArray.size_eq_zero_iff.mp hz)
    by_cases hle : bytes.size ≤ room
    · have htaken := Offered.taken h hpos hle .done
      rw [write_of_le h hle]
      rwa [ByteArray.append_empty] at htaken
    · by_cases hzero : room = 0
      · rw [write_of_full (hzero ▸ h) hpos]
        exact .refused (hzero ▸ h) hpos
      · obtain ⟨front, back, rfl, hfront⟩ := exists_front (Nat.le_of_not_le hle)
        rw [ByteArray.size_append] at hle
        have hback : 0 < back.size := by omega
        have hnone : some (room - front.size) = some 0 := by rw [hfront, Nat.sub_self]
        rw [write_append_of_le h (by omega), write_of_full hnone hback]
        exact .taken h (by omega) (by omega) (.refused hnone hback)

/-- However the calls fall, they do what one write does. -/
theorem offered_iff {bytes : ByteArray} {x : Except Failure Unit × Sink} :
    Offered sink bytes x ↔ x = sink.write bytes := by
  refine ⟨?_, ?_⟩
  · intro ho
    induction ho generalizing room with
    | done => exact (write_empty h).symm
    | taken hroom _ hle _ ih =>
      rw [write_append_of_le hroom hle]
      exact ih rfl
    | refused hroom hpos => exact (write_of_full hroom hpos).symm
  · rintro rfl
    exact offered_write h bytes

end

end Sink

namespace Disassembly

theorem toUTF8_listing_cons (line : Line) (rest : List Line) :
    (listing (line :: rest)).toUTF8 = (lineText line).toUTF8 ++ (listing rest).toUTF8 := by
  rw [listing_cons]
  simp [String.toUTF8]

theorem toList_listing (lines : List Line) :
    (listing lines).toList = lines.flatMap fun line => line.text.toList ++ ['\n'] := by
  induction lines with
  | nil => rfl
  | cons line rest ih =>
    rw [toList_listing_cons, ih, List.flatMap_cons, List.append_assoc, List.singleton_append]

/-- Lines are written one by one as their listing is written at once. -/
theorem writeLines_of_room (lines : List Line) (count : Nat) {sink : Sink} {room : Nat}
    (h : sink.room = some room) :
    writeLines lines count sink =
      if (listing lines).toUTF8.size ≤ room then
        (.ok (count + lines.length), (sink.write (listing lines).toUTF8).2)
      else (.error Sink.full, (sink.write (listing lines).toUTF8).2) := by
  induction lines generalizing count sink room with
  | nil =>
    have hempty : (listing []).toUTF8 = .empty := rfl
    rw [hempty, ByteArray.size_empty, if_pos (Nat.zero_le room), Sink.write_empty h]
    rfl
  | cons line rest ih =>
    rw [toUTF8_listing_cons, ByteArray.size_append, writeLines]
    by_cases hline : (lineText line).toUTF8.size ≤ room
    · rw [Sink.write_of_le h hline, Sink.write_append_of_le h hline]
      refine (ih (count + 1) rfl).trans ?_
      simp only [Nat.le_sub_iff_add_le' hline, List.length_cons, Nat.add_assoc, Nat.add_comm 1]
    · have hgt := Nat.lt_of_not_le hline
      rw [Sink.write_append_of_gt h hgt, if_neg (by omega), Sink.write_of_gt h hgt]

/-- A listing that fits into a bounded sink is written and its lines are counted. Of one that does not fit,
what fits is written and the failure is that the sink is full, wherever in a line the room ends. -/
theorem write_truncates (words : Array Word) (start stop limit : Nat) :
    let listed := lines words start stop
    let text := (listing listed).toUTF8
    (write listed {}).1 = .ok listed.length ∧ (write listed {}).2.bytes = text ∧
      (listing listed).toList = (listed.flatMap fun line => line.text.toList ++ ['\n']) ∧
      (∀ line ∈ listed, '\n' ∉ line.text.toList) ∧
      (text.size ≤ limit → ∃ sink, write listed { room := some limit } = (.ok listed.length, sink) ∧
        sink.bytes = text) ∧
      (limit < text.size → ∃ failure sink, write listed { room := some limit } = (.error failure, sink) ∧
        failure.kind = .writeZero ∧ sink.bytes = text.extract 0 limit) ∧
      ∀ (sink : Sink) room bytes x, sink.room = some room →
        (Sink.Offered sink bytes x ↔ x = sink.write bytes) := by
  intro listed text
  have hunbounded : (write listed {}).1 = .ok (0 + listed.length) := writeLines_unbounded listed 0 rfl
  rw [Nat.zero_add] at hunbounded
  have hroom : write listed { room := some limit } = _ := writeLines_of_room listed 0 rfl
  rw [Nat.zero_add] at hroom
  refine ⟨hunbounded, write_bytes listed, toList_listing listed,
    newline_not_mem_text words start stop, ?_, ?_, ?_⟩
  · intro hle
    rw [if_pos hle, Sink.write_of_le rfl hle] at hroom
    exact ⟨_, hroom, ByteArray.empty_append⟩
  · intro hgt
    rw [if_neg (Nat.not_le_of_lt hgt), Sink.write_of_gt rfl hgt] at hroom
    exact ⟨_, _, hroom, rfl, ByteArray.empty_append⟩
  · intro sink room bytes x h
    exact Sink.offered_iff h

/-- The room ends in the middle of an operand, at the end of the text, and at once. -/
theorem write_truncates_smudged :
    let listed := lines (smudged 40000) 0 5
    (∃ sink, write listed { room := some 51 } = (.ok 2, sink) ∧
      sink.bytes = "00000 add  r0 <BAD> 1\n00004 unknown instruction 30\n".toUTF8) ∧
    (∃ failure sink, write listed { room := some 17 } = (.error failure, sink) ∧ failure.kind = .writeZero ∧
      sink.bytes = "00000 add  r0 <BA".toUTF8) ∧
    (∃ failure sink, write listed { room := some 0 } = (.error failure, sink) ∧ failure.kind = .writeZero ∧
      sink.bytes = .empty) ∧
    '\n' ∉ (Line.text ⟨4, .error (.unknownOpcode 30 4)⟩).toList ∧
    Sink.Offered { room := some 3 } "halt".toUTF8 (Sink.write { room := some 3 } "halt".toUTF8) := by
  have hlines := lines_smudged 40000
  have htext :
      listing (lines (smudged 40000) 0 5) = "00000 add  r0 <BAD> 1\n00004 unknown instruction 30\n" := by
    rw [hlines]
    decide +kernel
  have hlength : (lines (smudged 40000) 0 5).length = 2 := by rw [hlines]; rfl
  obtain ⟨_, _, _, hone, hfits, _, hcalls⟩ := write_truncates (smudged 40000) 0 5 51
  have hcut := fun limit => (write_truncates (smudged 40000) 0 5 limit).2.2.2.2.2.1
  simp only [htext] at hfits hcut
  rw [hlength] at hfits
  refine ⟨hfits (by decide), hcut 17 (by decide), hcut 0 (by decide), hone _ ?_, (hcalls _ 3 _ _ rfl).mpr rfl⟩
  rw [hlines]
  simp

end Disassembly

end WordMachine
