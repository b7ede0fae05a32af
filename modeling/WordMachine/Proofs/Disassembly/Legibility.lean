import Mathlib.Data.List.Forall2
import WordMachine.Proofs.Disassembly.Fields
import WordMachine.Proofs.Disassembly.RoundTrip
import WordMachine.Proofs.Machine.Execution

/-!
# What listings show

A line shows its address and the opcode with its operands, or the fault. It shows them in fields that
cannot be taken for others; only the operands that no instruction can use look alike. So two ranges
are listed by the same text exactly if they have the same lines up to such operands
(`listings_alike`).
-/

namespace WordMachine

open Text (Fields Solid)

/-! ## Operands -/

namespace Operand

/-- Words that look alike as operands: if they are not the same, no instruction can use them. -/
def Alike (v w : Word) : Prop := v = w ∨ 32776 ≤ v.toNat ∧ 32776 ≤ w.toNat

/-- The number of the word that a text stands for. -/
def read? : List Char → Option Nat
  | 'r' :: digits => (Text.digitsValue? 10 0 digits).map (32768 + ·)
  | digits => Text.digitsValue? 10 0 digits

theorem text_register (r : Register) : (register r).text.toList = 'r' :: (Text.decimal r.val).toList := by
  rw [text, Register.text, String.toList_append]
  rfl

theorem solid_text (o : Operand) : Solid o.text.toList := by
  cases o with
  | literal value => exact Text.solid_decimal value.toNat
  | register r =>
    rw [text_register]
    have h := Text.solid_decimal r.val
    exact ⟨by simp, by simp [h.2.1], by simp [h.2.2]⟩
  | invalid w => exact (by decide : Solid "<BAD>".toList)

theorem text_of_le {w : Word} (h : 32776 ≤ w.toNat) : (ofWord w).text = "<BAD>" := by
  rcases ofWord_cases w with ⟨hw, _⟩ | ⟨r, hw, _⟩ | ⟨_, ho⟩
  · omega
  · omega
  · rw [ho, text]

theorem read?_decimal (n : Nat) : read? (Text.decimal n).toList = some n := by
  have hvalue : Text.digitsValue? 10 0 (Text.decimal n).toList = some n := by
    rw [Text.decimal, String.toList_ofList, Text.digitsValue?_toDigits (by decide) (by decide)]
  unfold read?
  split
  · rename_i digits hd
    have hr : 'r'.isDigit = true := Text.isDigit_of_mem_decimal (hd ▸ List.mem_cons_self)
    cases hr
  · exact hvalue

theorem read?_text (w : Word) :
    read? (ofWord w).text.toList = if w.toNat < 32776 then some w.toNat else none := by
  rcases ofWord_cases w with ⟨hw, ho⟩ | ⟨r, hw, ho⟩ | ⟨hw, _⟩
  · rw [ho, if_pos (by omega)]
    exact read?_decimal w.toNat
  · rw [ho, text_register, if_pos (by omega), hw]
    simp only [read?, Text.decimal, String.toList_ofList]
    rw [Text.digitsValue?_toDigits (by decide) (by decide)]
    rfl
  · rw [text_of_le hw, if_neg (by omega)]
    rfl

theorem text_eq_iff {v w : Word} : (ofWord v).text = (ofWord w).text ↔ Alike v w := by
  refine ⟨?_, ?_⟩
  · intro h
    have hr := read?_text v
    rw [h, read?_text] at hr
    by_cases hv : v.toNat < 32776
    · by_cases hw : w.toNat < 32776
      · rw [if_pos hv, if_pos hw] at hr
        exact Or.inl (UInt16.toNat_inj.mp (Option.some.inj hr).symm)
      · simp [hv, hw] at hr
    · by_cases hw : w.toNat < 32776
      · simp [hv, hw] at hr
      · exact Or.inr ⟨by omega, by omega⟩
  · rintro (rfl | ⟨hv, hw⟩)
    · rfl
    · rw [text_of_le hv, text_of_le hw]

end Operand

/-! ## Instructions -/

namespace Opcode

theorem forall_of_table {P : Opcode → Prop} (h : ∀ op ∈ table.toList, P op) (op : Opcode) : P op := by
  have hm : op ∈ table := Array.mem_of_getElem? (ofWord?_word op)
  exact h op (Array.mem_toList_iff.mpr hm)

theorem find?_mnemonic (op : Opcode) : table.find? (·.mnemonic == op.mnemonic) = some op := by
  apply forall_of_table (P := fun op => table.find? (·.mnemonic == op.mnemonic) = some op)
  decide

theorem mnemonic_injective {op op' : Opcode} (h : op.mnemonic = op'.mnemonic) : op = op' := by
  have := find?_mnemonic op
  rw [h, find?_mnemonic] at this
  exact (Option.some.inj this).symm

/-- The messages begin with words of more letters. -/
theorem mnemonic_short (op : Opcode) : Solid op.mnemonic.toList ∧ op.mnemonic.toList.length ≤ 4 := by
  apply forall_of_table (P := fun op => Solid op.mnemonic.toList ∧ op.mnemonic.toList.length ≤ 4)
  decide

end Opcode

namespace Instruction

/-- The opcode is the same and the operands look alike. -/
def Alike (i j : Instruction) : Prop := i.opcode = j.opcode ∧ List.Forall₂ Operand.Alike i.operands j.operands

theorem fields_text (i : Instruction) :
    Fields i.text.toList (i.opcode.mnemonic.toList :: i.operands.map fun w =>
      (Operand.ofWord w).text.toList) := by
  have hm := Fields.single i.opcode.mnemonic_short.1
  have hj : Fields (" ".intercalate (i.operands.map fun w => (Operand.ofWord w).text)).toList
      (i.operands.map fun w => (Operand.ofWord w).text.toList) := by
    rw [String.toList_intercalate, List.map_map]
    apply Fields.join
    intro piece hp
    obtain ⟨w, _, rfl⟩ := List.mem_map.mp hp
    exact (Operand.ofWord w).solid_text
  unfold text
  split
  · rename_i h
    rw [h]
    exact hm
  · rw [String.toList_append, String.toList_append, Text.padRight, String.toList_append, String.toList_ofList,
      List.append_assoc]
    exact (hm.pad _).append hj

theorem text_eq_iff {i j : Instruction} : i.text = j.text ↔ i.Alike j := by
  have hmap : ∀ {vs ws : List Word},
      (vs.map fun w => (Operand.ofWord w).text) = (ws.map fun w => (Operand.ofWord w).text) ↔
        List.Forall₂ Operand.Alike vs ws := by
    intro vs ws
    rw [← List.forall₂_eq_eq_eq, List.forall₂_map_left_iff, List.forall₂_map_right_iff]
    simp only [Operand.text_eq_iff]
  refine ⟨?_, ?_⟩
  · intro h
    have hf := i.fields_text
    rw [h] at hf
    obtain ⟨hm, ho⟩ := List.cons.inj (hf.unique j.fields_text)
    refine ⟨Opcode.mnemonic_injective (String.toList_injective hm), hmap.mp ?_⟩
    apply List.map_injective_iff.mpr fun _ _ => String.toList_injective
    rw [List.map_map, List.map_map]
    exact ho
  · rintro ⟨hop, ho⟩
    -- both have operands or both have none, so both are padded or none is
    unfold text
    rw [hop]
    generalize i.operands = vs at ho ⊢
    generalize j.operands = ws at ho ⊢
    cases ho with
    | nil => rfl
    | cons hv hvs => simp only [hmap.mpr (.cons hv hvs)]

end Instruction

/-! ## Failures -/

namespace Fault

open Text (decimal)

theorem fields_unknownOpcode (w : Word) (address : Nat) :
    Fields (message (.unknownOpcode w address)).toList
      ["unknown".toList, "instruction".toList, (decimal w.toNat).toList] := by
  have hwords : Fields "unknown instruction".toList ["unknown".toList, "instruction".toList] :=
    ⟨by decide, by decide⟩
  exact hwords.number w.toNat

theorem fields_fetchOutOfBounds (n : Nat) :
    Fields (message (.fetchOutOfBounds n)).toList
      ["fetch".toList, "out".toList, "of".toList, "bounds:".toList, (decimal n).toList] := by
  have hwords :
      Fields "fetch out of bounds:".toList ["fetch".toList, "out".toList, "of".toList, "bounds:".toList] :=
    ⟨by decide, by decide⟩
  exact hwords.number n

end Fault

namespace Instruction

section
variable {words others : Array Word} {address : Nat} {fault fault' : Fault}

theorem exists_fields_message (h : decode words address = .error fault) :
    ∃ first rest, Fields fault.message.toList (first :: rest) ∧ 4 < first.length := by
  rcases decode_error_cases h with ⟨w, rfl⟩ | ⟨n, rfl⟩
  · exact ⟨_, _, Fault.fields_unknownOpcode w address, by decide⟩
  · exact ⟨_, _, Fault.fields_fetchOutOfBounds n, by decide⟩

theorem text_ne_message (h : decode words address = .error fault) (i : Instruction) :
    i.text ≠ fault.message := by
  intro he
  obtain ⟨first, rest, hf, hlength⟩ := exists_fields_message h
  rw [← he] at hf
  rw [(List.cons.inj (hf.unique i.fields_text)).1] at hlength
  have := i.opcode.mnemonic_short.2
  omega

theorem message_injective (h : decode words address = .error fault)
    (h' : decode others address = .error fault')
    (he : fault.message = fault'.message) : fault = fault' := by
  rcases decode_error_cases h with ⟨w, rfl⟩ | ⟨n, rfl⟩ <;>
    rcases decode_error_cases h' with ⟨w', rfl⟩ | ⟨n', rfl⟩
  · have hf := (Fault.fields_unknownOpcode w address).unique (he ▸ Fault.fields_unknownOpcode w' address)
    simp only [List.cons.injEq, and_true, true_and] at hf
    rw [UInt16.toNat_inj.mp (Text.decimal_injective (String.toList_injective hf))]
  · have hf := (Fault.fields_unknownOpcode w address).unique (he ▸ Fault.fields_fetchOutOfBounds n')
    simp at hf
  · have hf := (Fault.fields_fetchOutOfBounds n).unique (he ▸ Fault.fields_unknownOpcode w' address)
    simp at hf
  · have hf := (Fault.fields_fetchOutOfBounds n).unique (he ▸ Fault.fields_fetchOutOfBounds n')
    simp only [List.cons.injEq, and_true, true_and] at hf
    rw [Text.decimal_injective (String.toList_injective hf)]

end

end Instruction

/-! ## Lines -/

namespace Line

/-- The address and the fault are the same, or the address is and the instructions look alike. -/
inductive Alike : Line → Line → Prop
  | failed {address fault} : Alike ⟨address, .error fault⟩ ⟨address, .error fault⟩
  | decoded {address} {i j : Instruction} : i.Alike j → Alike ⟨address, .ok i⟩ ⟨address, .ok j⟩

/-- What stands behind the address. -/
def body (line : Line) : String :=
  match line.result with
  | .ok instruction => instruction.text
  | .error fault => fault.message

theorem text_eq (line : Line) :
    line.text = Text.padLeft '0' 5 (Text.decimal line.address) ++ " " ++ line.body := rfl

section
variable {v w : Array Word}

theorem exists_fields_body (words : Array Word) (address : Nat) :
    ∃ fields, Fields (decode words address).body.toList fields := by
  unfold body decode
  cases h : Instruction.decode words address with
  | ok i => exact ⟨_, i.fields_text⟩
  | error fault =>
    obtain ⟨_, _, hf, _⟩ := Instruction.exists_fields_message h
    exact ⟨_, hf⟩

theorem exists_fields_text (words : Array Word) (address : Nat) :
    ∃ fields, Fields (decode words address).text.toList
      ((Text.padLeft '0' 5 (Text.decimal address)).toList :: fields) := by
  obtain ⟨fields, hf⟩ := exists_fields_body words address
  rw [text_eq, String.append_assoc, String.toList_append, String.toList_append]
  exact ⟨fields, (Fields.single (Text.solid_padLeft_decimal 5 address)).append hf⟩

theorem alike_of_body {address : Nat} (h : (decode v address).body = (decode w address).body) :
    (decode v address).Alike (decode w address) := by
  unfold body decode at h
  unfold decode
  cases hv : Instruction.decode v address with
  | ok i =>
    cases hw : Instruction.decode w address with
    | ok j =>
      rw [hv, hw] at h
      exact .decoded (Instruction.text_eq_iff.mp h)
    | error fault =>
      rw [hv, hw] at h
      exact absurd h (Instruction.text_ne_message hw i)
  | error fault =>
    cases hw : Instruction.decode w address with
    | ok j =>
      rw [hv, hw] at h
      exact absurd h.symm (Instruction.text_ne_message hv j)
    | error fault' =>
      rw [hv, hw] at h
      rw [Instruction.message_injective hv hw h]
      exact .failed

theorem text_eq_iff {a b : Nat} :
    (decode v a).text = (decode w b).text ↔ (decode v a).Alike (decode w b) := by
  refine ⟨?_, ?_⟩
  · intro h
    obtain ⟨_, ha⟩ := exists_fields_text v a
    obtain ⟨_, hb⟩ := exists_fields_text w b
    rw [h] at ha
    have haddress := Text.padLeft_decimal_injective (String.toList_injective (List.cons.inj (ha.unique hb)).1)
    subst haddress
    rw [text_eq, text_eq] at h
    exact alike_of_body (String.append_right_inj _ |>.mp h)
  · intro h
    generalize decode v a = l at h ⊢
    generalize decode w b = r at h ⊢
    cases h with
    | failed => rfl
    | decoded h =>
      exact congrArg (Text.padLeft '0' 5 (Text.decimal _) ++ " " ++ ·) (Instruction.text_eq_iff.mpr h)

end

end Line

/-! ## Listings -/

namespace Disassembly

theorem listing_cons (line : Line) (rest : List Line) :
    listing (line :: rest) = lineText line ++ listing rest := by
  simp [listing, String.join_cons]

theorem toList_listing_cons (line : Line) (rest : List Line) :
    (listing (line :: rest)).toList = line.text.toList ++ '\n' :: (listing rest).toList := by
  rw [listing_cons, lineText, String.append_assoc, String.toList_append, String.toList_append]
  rfl

theorem writeLines_bytes (lines : List Line) (count : Nat) {sink : Sink} (h : sink.room = none) :
    (writeLines lines count sink).2.bytes = sink.bytes ++ (listing lines).toUTF8 := by
  induction lines generalizing count sink with
  | nil => simp [writeLines, listing]
  | cons line rest ih =>
    simp only [writeLines, Sink.write, h]
    rw [ih (count + 1) rfl, listing_cons, ByteArray.append_assoc]
    simp [String.toUTF8]

theorem write_bytes (lines : List Line) : (write lines {}).2.bytes = (listing lines).toUTF8 := by
  rw [write, writeLines_bytes lines 0 rfl]
  simp

section
variable {lines : List Line} (h : ∀ line ∈ lines, '\n' ∉ line.text.toList)
include h

theorem splitOn_listing :
    (listing lines).toList.splitOn '\n' = lines.map (fun line => line.text.toList) ++ [[]] := by
  induction lines with
  | nil => rfl
  | cons line rest ih =>
    obtain ⟨hl, hr⟩ := List.forall_mem_cons.mp h
    rw [toList_listing_cons, List.splitOn_append_cons_self_of_not_mem hl, ih hr]
    rfl

theorem count_listing : (listing lines).toList.count '\n' = lines.length := by
  induction lines with
  | nil => rfl
  | cons line rest ih =>
    obtain ⟨hl, hr⟩ := List.forall_mem_cons.mp h
    rw [toList_listing_cons, List.count_append, List.count_cons_self, List.count_eq_zero.mpr hl,
      ih hr, Nat.zero_add]
    rfl

theorem listing_eq_iff {others : List Line} (h' : ∀ line ∈ others, '\n' ∉ line.text.toList) :
    listing lines = listing others ↔ lines.map Line.text = others.map Line.text := by
  refine ⟨?_, ?_⟩
  · intro he
    have hsplit := splitOn_listing h
    rw [he, splitOn_listing h'] at hsplit
    apply List.map_injective_iff.mpr fun _ _ => String.toList_injective
    rw [List.map_map, List.map_map]
    exact (List.append_cancel_right hsplit).symm
  · intro he
    have htext : ∀ lines, listing lines = String.join ((lines.map Line.text).map (· ++ "\n")) := by
      intro lines
      rw [List.map_map]
      rfl
    rw [htext, htext, he]

end

theorem exists_addresses (words : Array Word) (start stop : Nat) :
    ∃ addresses : List Nat, lines words start stop = addresses.map (Line.decode words) := by
  refine ⟨(lines words start stop).map Line.address, ?_⟩
  rw [List.map_map]
  refine (List.map_id _).symm.trans (List.map_congr_left fun line hl => ?_)
  obtain ⟨address, result⟩ := line
  exact congrArg (Line.mk address) (mem_linesFrom words _ start _ hl).2

theorem newline_not_mem_text (words : Array Word) (start stop : Nat) :
    ∀ line ∈ lines words start stop, '\n' ∉ line.text.toList := by
  obtain ⟨addresses, ha⟩ := exists_addresses words start stop
  rw [ha]
  intro line hl
  obtain ⟨address, _, rfl⟩ := List.mem_map.mp hl
  obtain ⟨_, hf⟩ := Line.exists_fields_text words address
  exact hf.line

section
variable (v w : Array Word) (a b c d : Nat)

theorem text_eq_iff_alike : ∀ l ∈ lines v a b, ∀ r ∈ lines w c d, l.text = r.text ↔ l.Alike r := by
  obtain ⟨addresses, ha⟩ := exists_addresses v a b
  obtain ⟨others, ho⟩ := exists_addresses w c d
  rw [ha, ho]
  intro l hl r hr
  obtain ⟨_, _, rfl⟩ := List.mem_map.mp hl
  obtain ⟨_, _, rfl⟩ := List.mem_map.mp hr
  exact Line.text_eq_iff

theorem map_text_eq_iff :
    (lines v a b).map Line.text = (lines w c d).map Line.text ↔
      List.Forall₂ Line.Alike (lines v a b) (lines w c d) := by
  obtain ⟨addresses, ha⟩ := exists_addresses v a b
  obtain ⟨others, ho⟩ := exists_addresses w c d
  rw [ha, ho, ← List.forall₂_eq_eq_eq]
  simp only [List.forall₂_map_left_iff, List.forall₂_map_right_iff, Line.text_eq_iff]

end

/-- The text of a listing has as many line feeds as lines, and it tells the lines: two ranges are
written the same exactly if their lines agree one by one in the address and in the fault or the
opcode and the operands, but for operands that no instruction can use. What was decoded never looks
like a failure. -/
theorem listings_alike (v w : Array Word) (a b c d : Nat) :
    let left := lines v a b
    let right := lines w c d
    (write left {}).2.bytes = (listing left).toUTF8 ∧
      (listing left).toList.count '\n' = left.length ∧
      ((write left {}).2.bytes = (write right {}).2.bytes ↔ List.Forall₂ Line.Alike left right) ∧
      ∀ l ∈ left, ∀ r ∈ right, ∀ i fault, l.result = .ok i → r.result = .error fault → l.text ≠ r.text := by
  intro left right
  have hleft := newline_not_mem_text v a b
  refine ⟨write_bytes left, count_listing hleft, ?_, ?_⟩
  · have hsame : (write left {}).2.bytes = (write right {}).2.bytes ↔ listing left = listing right := by
      rw [write_bytes, write_bytes]
      exact String.toByteArray_inj
    rw [hsame, listing_eq_iff hleft (newline_not_mem_text w c d)]
    exact map_text_eq_iff v w a b c d
  · intro l hl r hr i fault hi hf he
    cases (text_eq_iff_alike v w a b c d l hl r hr).mp he with
    | failed => cases hi
    | decoded => cases hf

/-- An addition with a word that is no operand, and a word that is no opcode. -/
def smudged (w : Word) : Array Word := #[9, 32768, w, 1, 30]

theorem lines_smudged (w : Word) :
    lines (smudged w) 0 5 = [⟨0, .ok (.binary .add 32768 w 1)⟩, ⟨4, .error (.unknownOpcode 30 4)⟩] := by
  have h0 : Line.decode (smudged w) 0 = ⟨0, .ok (.binary .add 32768 w 1)⟩ := rfl
  have h4 : Line.decode (smudged w) 4 = ⟨4, .error (.unknownOpcode 30 4)⟩ := rfl
  have hsize : (Instruction.binary .add 32768 w 1).size = 4 := rfl
  have hmin : min 5 (smudged w).size = 5 := rfl
  rw [lines, hmin, linesFrom_of_lt (by decide), h0]
  simp only [Line.width, hsize]
  rw [linesFrom_of_lt (by decide), h4, linesFrom_of_le (by decide)]

theorem listings_alike_smudged :
    (write (lines (smudged 40000) 0 5) {}).2.bytes = (write (lines (smudged 65535) 0 5) {}).2.bytes ∧
      (write (lines (smudged 40000) 0 5) {}).2.bytes ≠ (write (lines (smudged 7) 0 5) {}).2.bytes ∧
      Line.text ⟨0, .ok (.binary .add 32768 40000 1)⟩ ≠ Line.text ⟨4, .error (.unknownOpcode 30 4)⟩ := by
  have hbad := (listings_alike (smudged 40000) (smudged 65535) 0 5 0 5).2.2.1
  have hgood := (listings_alike (smudged 40000) (smudged 7) 0 5 0 5).2.2.1
  have hlines := (listings_alike (smudged 40000) (smudged 40000) 0 5 0 5).2.2.2
  simp only [lines_smudged] at hbad hgood hlines ⊢
  have hsame : Instruction.Alike (.binary .add 32768 40000 1) (.binary .add 32768 65535 1) :=
    ⟨rfl, .cons (Or.inl rfl) (.cons (Or.inr ⟨by decide, by decide⟩) (.cons (Or.inl rfl) .nil))⟩
  refine ⟨hbad.mpr (.cons (.decoded hsame) (.cons .failed .nil)), ?_, ?_⟩
  · intro he
    cases hgood.mp he with
    | cons h _ =>
      cases h with
      | decoded h =>
        rcases h.2 with _ | ⟨_, _ | ⟨h | ⟨_, h⟩, _⟩⟩
        · exact absurd h (by decide)
        · exact absurd h (by decide)
  · exact hlines _ (by simp) _ (by simp) _ _ rfl rfl

end Disassembly

end WordMachine
