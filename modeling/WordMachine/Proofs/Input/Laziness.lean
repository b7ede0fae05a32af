import WordMachine.Proofs.Input.Failures

/-!
# Lazy reading

A line buffer has read no more lines than it needs for the codes that it has delivered, and it asks its
source for another one exactly when it says so (`reads_lazily`).
-/

namespace WordMachine.LineBuffer

open Source (lineFeed)

/-! ## Beginnings that yield enough codes -/

/-- Whole lines, the last of which may be the last of the bytes and have no end. -/
def Whole (bytes front : List UInt8) : Prop := front <+: bytes ∧ (Closed front ∨ front = bytes)

def yield (front : List UInt8) : Nat := (codes (normalise front)).length

/-- The fewest whole lines that yield so many codes. -/
structure Fewest (bytes : List UInt8) (k : Nat) (front : List UInt8) : Prop where
  whole : Whole bytes front
  enough : k ≤ yield front
  least : ∀ other, Whole bytes other → k ≤ yield other → front.length ≤ other.length

theorem yield_append {front : List UInt8} (h : Closed front) (rest : List UInt8) :
    yield (front ++ rest) = yield front + yield rest := by
  rw [yield, codes_normalise_append h, List.length_append]
  rfl

theorem yield_le {other front : List UInt8} (h : Closed other) (hstart : other <+: front) :
    yield other ≤ yield front := by
  obtain ⟨rest, rfl⟩ := hstart
  rw [yield_append h]
  exact Nat.le_add_right _ _

theorem fewest_nil (bytes : List UInt8) : Fewest bytes 0 [] where
  whole := ⟨List.nil_prefix, Or.inl (Or.inl rfl)⟩
  enough := Nat.zero_le _
  least _ _ _ := Nat.zero_le _

/-- One more line is read for the code after the last that the lines read so far yield. -/
theorem Fewest.append {front content rest : List UInt8} (hf : Closed front) (hc : lineFeed ∉ content)
    {b : UInt8} (hb : Closed (content ++ [b]) ∨ rest = []) (hpos : 0 < yield (content ++ [b])) :
    Fewest (front ++ (content ++ [b]) ++ rest) (yield front + 1) (front ++ (content ++ [b])) where
  whole := by
    refine ⟨List.prefix_append _ rest, ?_⟩
    rcases hb with hb | rfl
    · exact Or.inl (hf.append hb)
    · exact Or.inr (List.append_nil _).symm
  enough := by
    rw [yield_append hf]
    exact Nat.add_le_add_left hpos _
  least := by
    rintro other ⟨hstart, hother⟩ hk
    refine Nat.le_of_not_lt fun hlt => ?_
    have hshort : other.length ≤ (front ++ content).length := by
      simp only [List.length_append, List.length_singleton] at hlt ⊢
      omega
    have hclosed : Closed other := by
      refine hother.resolve_right fun he => ?_
      rw [he, List.length_append] at hlt
      omega
    -- a line that is not complete yields nothing, so what is shorter yields no more than `front`
    have hstart' : other <+: front ++ content := by
      apply List.prefix_of_prefix_length_le hstart _ hshort
      rw [← List.append_assoc, List.append_assoc]
      exact List.prefix_append _ _
    have hle := yield_le hclosed (hclosed.of_append hstart' hc)
    omega

/-! ## Calls -/

/-- What is asked of a buffer. -/
inductive Call
  | next
  | needsLine
  deriving DecidableEq

def call (buffer : LineBuffer) : Call → LineBuffer
  | .next => buffer.next.2
  | .needsLine => buffer

def codesOf : Except Failure Word → Nat
  | .ok _ => 1
  | .error _ => 0

/-- How many codes the calls deliver. -/
def delivered (buffer : LineBuffer) : List Call → Nat
  | [] => 0
  | .next :: calls => codesOf buffer.next.1 + buffer.next.2.delivered calls
  | .needsLine :: calls => buffer.delivered calls

def session (bytes : List UInt8) (calls : List Call) : LineBuffer := calls.foldl call (ofBytes bytes)

/-- The next call has the same answer whatever the source is, and leaves it as it is. -/
def LeavesSource (buffer : LineBuffer) : Prop :=
  ∀ source, ({ buffer with source } : LineBuffer).next = (buffer.next.1, { buffer.next.2 with source })

theorem needsLine_iff_not_leavesSource (buffer : LineBuffer) :
    buffer.needsLine = true ↔ ¬ buffer.LeavesSource := by
  obtain ⟨source, pending⟩ := buffer
  cases pending with
  | cons code rest => exact iff_of_false Bool.false_ne_true (not_not_intro fun _ => rfl)
  | nil =>
    refine iff_of_true rfl fun h => ?_
    -- no answer agrees with two sources that fail in different ways
    have h1 := congrArg Prod.fst (h ⟨[], some ⟨0, .timedOut⟩⟩)
    have h2 := congrArg Prod.fst (h ⟨[], some ⟨0, .brokenPipe⟩⟩)
    have he := h1.trans h2.symm
    cases he

/-- A call without pending codes reads one line, if there is one. -/
theorem exists_next_line {bytes : List UInt8} (hne : bytes ≠ []) : ∃ content b rest code pending,
    bytes = content ++ [b] ++ rest ∧ lineFeed ∉ content ∧ (Closed (content ++ [b]) ∨ rest = []) ∧
      (ofBytes bytes).next = (.ok code, { source := { bytes := rest }, pending }) ∧
      code :: pending = codes (normalise (content ++ [b])) := by
  induction bytes using line_induction with
  | nil => exact absurd rfl hne
  | last content _ h =>
    obtain ⟨code, pending, hstart, hcodes⟩ := exists_start { bytes := [] } content
    have hcontent := List.dropLast_concat_getLast hne
    refine ⟨content.dropLast, content.getLast hne, [], code, pending, ?_, ?_, Or.inr rfl, ?_, ?_⟩
    · rw [List.append_nil, hcontent]
    · exact fun hm => h (List.dropLast_subset content hm)
    · rw [next_last h hne, hstart]
    · rw [hcontent, codes_last hne h, hcodes]
  | line content rest h _ =>
    obtain ⟨code, pending, hstart, hcodes⟩ := exists_start { bytes := rest } (dropReturn content)
    refine ⟨content, lineFeed, rest, code, pending, by simp, h, Or.inl (closed_line content), ?_, ?_⟩
    · rw [next_line h, hstart]
    · rw [codes_line h, hcodes]

/-- What is known of a buffer that has delivered `k` codes and read these bytes. -/
structure Reading (bytes : List UInt8) (k : Nat) (buffer : LineBuffer) (consumed : List UInt8) : Prop where
  split : consumed ++ buffer.source.bytes = bytes
  smooth : buffer.source.obstacle = none
  fewest : Fewest bytes k consumed
  yielded : yield consumed = k + buffer.pending.length

section
variable {bytes consumed : List UInt8} {k : Nat} {buffer : LineBuffer}

theorem Reading.next (h : Reading bytes k buffer consumed) :
    ∃ consumed', Reading bytes (k + codesOf buffer.next.1) buffer.next.2 consumed' := by
  obtain ⟨⟨unread, obstacle⟩, pending⟩ := buffer
  obtain ⟨hsplit, hsmooth, hfewest, hyielded⟩ := h
  cases hsmooth
  cases pending with
  | cons code rest =>
    rw [List.length_cons] at hyielded
    refine ⟨consumed, hsplit, rfl, ⟨hfewest.whole, ?_, ?_⟩, ?_⟩
    · show k + 1 ≤ yield consumed
      omega
    · intro other hother hk
      exact hfewest.least other hother (Nat.le_of_succ_le hk)
    · show yield consumed = k + 1 + rest.length
      omega
  | nil =>
    by_cases hunread : unread = []
    · subst hunread
      exact ⟨consumed, hsplit, rfl, hfewest, hyielded⟩
    · obtain ⟨content, b, rest, code, pending, hbytes, hc, hb, hnext, hcodes⟩ := exists_next_line hunread
      have hline : yield (content ++ [b]) = pending.length + 1 := by rw [yield, ← hcodes, List.length_cons]
      have hclosed : Closed consumed := by
        refine hfewest.whole.2.resolve_right fun he => ?_
        rw [he] at hsplit
        exact hunread (List.append_right_eq_self.mp hsplit)
      have hmore := Fewest.append hclosed hc hb (by omega)
      rw [List.append_assoc, ← hbytes, hsplit, hyielded] at hmore
      have hnext' : LineBuffer.next { source := { bytes := unread } } = _ := hnext
      rw [hnext']
      refine ⟨consumed ++ (content ++ [b]), ?_, rfl, hmore, ?_⟩
      · rw [List.append_assoc, ← hbytes, hsplit]
      · rw [yield_append hclosed, hyielded, hline]
        show k + 0 + (pending.length + 1) = k + 1 + pending.length
        omega

theorem Reading.calls (h : Reading bytes k buffer consumed) (calls : List Call) :
    ∃ consumed', Reading bytes (k + buffer.delivered calls) (calls.foldl call buffer) consumed' := by
  induction calls generalizing k buffer consumed with
  | nil => exact ⟨consumed, h⟩
  | cons c calls ih =>
    cases c with
    | next =>
      obtain ⟨consumed', h'⟩ := h.next
      rw [delivered, ← Nat.add_assoc]
      exact ih h'
    | needsLine => exact ih h

theorem needsLine_iff_yield (h : Reading bytes k buffer consumed) :
    buffer.needsLine = true ↔ yield consumed = k := by
  rw [needsLine, List.isEmpty_iff, ← List.length_eq_zero_iff, h.yielded]
  omega

theorem failure_eq_ended (h : Reading bytes k buffer consumed) {failure : Failure}
    (hf : buffer.next.1 = .error failure) :
    failure = ended := by
  rw [(next_remaining h.smooth).1] at hf
  split at hf
  · cases hf
  · exact (Except.error.inj hf).symm

end

theorem session_filter (bytes : List UInt8) (calls : List Call) :
    session bytes (calls.filter (· != .needsLine)) = session bytes calls := by
  have hfold :
      ∀ buffer : LineBuffer, (calls.filter (· != .needsLine)).foldl call buffer =
        calls.foldl call buffer := by
    induction calls with
    | nil => exact fun _ => rfl
    | cons c calls ih =>
      cases c with
      | next => exact fun buffer => ih buffer.next.2
      | needsLine => exact ih
  exact hfold (ofBytes bytes)

/-- After any calls the source has given up just the fewest whole lines that yield the codes delivered so
far. A line is needed exactly when they yield no more, and then alone does the next call turn to the
source; to ask for this changes nothing, and it is so after the end was reported. -/
theorem reads_lazily (bytes : List UInt8) (calls : List Call) :
    ∃ consumed, consumed ++ (session bytes calls).source.bytes = bytes ∧
      Fewest bytes ((ofBytes bytes).delivered calls) consumed ∧
      ((session bytes calls).needsLine = true ↔ yield consumed = (ofBytes bytes).delivered calls) ∧
      ((session bytes calls).needsLine = true ↔ ¬ (session bytes calls).LeavesSource) ∧
      session bytes (calls.filter (· != .needsLine)) = session bytes calls ∧
      (∀ failure, (session bytes calls).next.1 = .error failure →
        failure = ended ∧ (session bytes (calls ++ [.next])).needsLine = true) ∧
      ∀ front, ∃ s : List Word, Answers (ofBytes front) (s.map .ok) ∧ s.length = yield front := by
  have hstart : Reading bytes 0 (ofBytes bytes) [] := ⟨rfl, rfl, fewest_nil bytes, rfl⟩
  obtain ⟨consumed, h⟩ := hstart.calls calls
  rw [Nat.zero_add] at h
  refine ⟨consumed, h.split, h.fewest, needsLine_iff_yield h, needsLine_iff_not_leavesSource _,
    session_filter bytes calls, ?_, fun front => ⟨codes (normalise front), answers_ofBytes front, rfl⟩⟩
  intro failure hf
  refine ⟨failure_eq_ended h hf, ?_⟩
  rw [session, List.foldl_append]
  exact needsLine_of_error hf

example : (session [97, 13, 10, 98] [.next, .needsLine, .next]).needsLine = true := rfl

end WordMachine.LineBuffer
