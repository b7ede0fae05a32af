import WordMachine.Proofs.Input.Failures
import WordMachine.Proofs.Machine.Completion
import WordMachine.Proofs.Machine.Exchange
import WordMachine.Proofs.Memory.Placement

/-!
# A program that echoes a line

The program `echo` prints what it reads until it has printed a 10. It gives back the first line of any
text, as far as a register can hold its codes: they are reduced before they are looked at, so a code that
is only then 10 ends the program as well (`echo_prints_first_line`).
-/

namespace WordMachine

namespace Machine

/-- An instruction is fetched from where it stands in the image that was loaded. -/
theorem fetch_of_ofImage {δ : Type} {m : Machine δ} {image : Image}
    (h : Memory.ofImage image = .ok m.processor.memory)
    {i : Instruction} (hi : i.words <+: image.words.drop m.processor.pc.toNat) : m.fetch = .ok i := by
  refine fetch_eq_ok_iff.mpr fun k hk => ?_
  rw [← i.length_words] at hk
  have hle := hi.length_le
  rw [List.length_drop] at hle
  have hlt : m.processor.pc.toNat + k < image.size := by
    rw [Image.size]
    omega
  obtain ⟨rest, hrest⟩ := hi
  rw [Memory.getElem?_of_ofImage h hlt, ← List.getElem?_drop, ← hrest, List.getElem?_append_left hk]

/-! ## The program -/

/-- At 0 it reads into the first register, at 2 it prints that, at 4 it compares it with 10, and at 8 it
goes back unless they are equal. At 11 it halts. -/
def echo : Image := ⟨[20, 32768, 19, 32768, 4, 32769, 32768, 10, 8, 32769, 0, 0]⟩

/-- The machine runs `echo` and has come to this address, with this input and output. -/
structure Echoes (m : Machine Transcript) (pc : Word) (input : LineBuffer) (printed : List Word) : Prop where
  program : Memory.ofImage echo = .ok m.processor.memory
  status : m.status = .running
  pc : m.processor.pc = pc
  input : m.device.input = input
  printed : m.device.printed.toList = printed

section
variable {m : Machine Transcript} {pc : Word} {input : LineBuffer} {printed : List Word}

theorem Echoes.fetch (h : m.Echoes pc input printed) {i : Instruction}
    (hi : i.words <+: echo.words.drop pc.toNat) :
    m.fetch = .ok i := by
  apply fetch_of_ofImage h.program
  rwa [h.pc]

theorem Echoes.past (h : m.Echoes pc input printed) (i : Instruction) :
    (m.past i).Echoes (UInt16.ofNat (pc.toNat + i.size)) input printed :=
  ⟨h.program, h.status, congrArg (fun pc : Word => UInt16.ofNat (pc.toNat + i.size)) h.pc, h.input, h.printed⟩

theorem Echoes.step (h : m.Echoes pc input printed) (i : Instruction)
    (hi : i.words <+: echo.words.drop pc.toNat)
    {action : Action} (hp : (m.past i).processor.Planned m.emptyReturn i action) {n : Machine Transcript}
    (hn : (m.past i).perform action = (.ok (), n)) (hs : n.status = .running) : m.step = (.ok .running, n) :=
  step_of_planned h.status (h.fetch hi) hp hn hs

/-! ## Its instructions -/

section
variable (h : m.Echoes 0 input printed) (hsmooth : input.source.obstacle = none)
include h hsmooth

theorem Echoes.read {code : Word} {rest : List Word} (hr : input.remaining = code :: rest) :
    ∃ n, m.step = (.ok .running, n) ∧ n.Echoes 2 input.next.2 printed ∧
      n.processor.value 32768 = .ok (Word.wrap code.toNat) := by
  have hd : Processor.destination 32768 = .ok ⟨0, by decide⟩ := Processor.destination_eq_ok_iff.mpr rfl
  have hpast := h.past (.input 32768)
  rw [← hpast.input] at hsmooth hr
  have hn := perform_read_ok (r := ⟨0, by decide⟩) (Transcript.input_of_remaining hsmooth hr)
  refine ⟨_, h.step (.input 32768) (by decide) (.input hd) hn h.status, ?_, ?_⟩
  · exact ⟨hpast.program, hpast.status, hpast.pc, congrArg (fun b => b.next.2) hpast.input, hpast.printed⟩
  · exact Processor.value_setRegister hd _ _

theorem Echoes.read_end (hr : input.remaining = []) :
    ∃ n, m.step = (.error .inputClosed, n) ∧ n.status = .faulted ∧ n.device.printed.toList = printed := by
  have hd : Processor.destination 32768 = .ok ⟨0, by decide⟩ := Processor.destination_eq_ok_iff.mpr rfl
  have hpast := h.past (.input 32768)
  rw [← hpast.input] at hsmooth hr
  have hn := perform_read_error (r := ⟨0, by decide⟩) (Transcript.input_of_consumed hsmooth hr)
  have he : (m.past (.input 32768)).execute (.input 32768) = _ := (execute_of_planned (.input hd)).trans hn
  have hs := step_of_fetch_ok h.status (h.fetch (i := .input 32768) (by decide))
  rw [he] at hs
  exact ⟨_, hs, rfl, hpast.printed⟩

end

theorem Echoes.print (h : m.Echoes 2 input printed) {code : Word} (hv : m.processor.value 32768 = .ok code) :
    ∃ n, m.step = (.ok .running, n) ∧ n.Echoes 4 input (printed ++ [code]) ∧
      n.processor.value 32768 = .ok code := by
  have hpast := h.past (.output 32768)
  refine ⟨_, h.step (.output 32768) (by decide) (.output hv) (perform_print _ code) h.status, ?_, hv⟩
  refine ⟨hpast.program, hpast.status, hpast.pc, hpast.input, ?_⟩
  rw [← hpast.printed]
  exact Array.toList_push

theorem Echoes.compare (h : m.Echoes 4 input printed) {code : Word}
    (hv : m.processor.value 32768 = .ok code) :
    ∃ n, m.step = (.ok .running, n) ∧ n.Echoes 8 input printed ∧
      n.processor.value 32769 = .ok (if code = 10 then 1 else 0) := by
  have hd : Processor.destination 32769 = .ok ⟨1, by decide⟩ := Processor.destination_eq_ok_iff.mpr rfl
  have hten : m.processor.value 10 = .ok 10 := Processor.value_eq_ok_iff.mpr (Or.inl ⟨by decide, rfl⟩)
  have hpast := h.past (.binary .equal 32769 32768 10)
  refine ⟨_, h.step (.binary .equal 32769 32768 10) (by decide)
    (.binary hv hten (by simp) hd) rfl h.status, ?_, ?_⟩
  · exact ⟨hpast.program, hpast.status, hpast.pc, hpast.input, hpast.printed⟩
  · refine (Processor.value_setRegister hd _ _).trans ?_
    simp only [BinaryOp.eval, UInt16.toNat_inj]
    split <;> rfl

theorem Echoes.back (h : m.Echoes 8 input printed) (hv : m.processor.value 32769 = .ok 0) :
    ∃ n, m.step = (.ok .running, n) ∧ n.Echoes 0 input printed := by
  have hstart : m.processor.value 0 = .ok 0 := Processor.value_eq_ok_iff.mpr (Or.inl ⟨by decide, rfl⟩)
  have hpast := h.past (.jumpIf false 32769 0)
  refine ⟨_, h.step (.jumpIf false 32769 0) (by decide) (.jumpTaken hv rfl hstart) rfl h.status, ?_⟩
  exact ⟨hpast.program, hpast.status, rfl, hpast.input, hpast.printed⟩

theorem Echoes.leave (h : m.Echoes 8 input printed) (hv : m.processor.value 32769 = .ok 1) :
    ∃ n, m.step = (.ok .running, n) ∧ n.Echoes 11 input printed := by
  exact ⟨_, h.step (.jumpIf false 32769 0) (by decide) (.jumpPassed hv (by decide)) rfl h.status, h.past _⟩

theorem Echoes.halt (h : m.Echoes 11 input printed) :
    ∃ n, m.step = (.ok .halted, n) ∧ n.status = .halted ∧ n.device.input = input ∧
      n.device.printed.toList = printed := by
  have hs := step_of_fetch_ok h.status (h.fetch (i := .halt) (by decide))
  have he : (m.past .halt).execute .halt = (.ok (), { m.past .halt with status := .halted }) :=
    execute_of_planned .halt
  rw [he, conclude_of_halted _ rfl] at hs
  exact ⟨_, hs, rfl, h.input, h.printed⟩

/-! ## Its runs -/

section
variable (h : m.Echoes 0 input printed) (hsmooth : input.source.obstacle = none)
include h hsmooth

/-- One code is read and printed, and compared with 10. -/
theorem Echoes.code {code : Word} {rest : List Word} (hr : input.remaining = code :: rest) :
    ∃ n : Machine Transcript, n.Echoes 8 input.next.2 (printed ++ [Word.wrap code.toNat]) ∧
      n.processor.value 32769 = .ok (if Word.wrap code.toNat = 10 then 1 else 0) ∧
      ∀ answer k, Completes n answer k → Completes m answer k := by
  obtain ⟨n₁, hs₁, h₁, hv₁⟩ := h.read hsmooth hr
  obtain ⟨n₂, hs₂, h₂, hv₂⟩ := h₁.print hv₁
  obtain ⟨n₃, hs₃, h₃, hv₃⟩ := h₂.compare hv₂
  exact ⟨n₃, h₃, hv₃, fun _ _ hc => .step h.status hs₁ (.step h₁.status hs₂ (.step h₂.status hs₃ hc))⟩

theorem Echoes.completes_code {code : Word} {rest : List Word} (hr : input.remaining = code :: rest)
    (hten : Word.wrap code.toNat = 10) :
    ∃ n, Completes m (.ok .halted) n ∧ n.status = .halted ∧ n.device.input = input.next.2 ∧
      n.device.printed.toList = printed ++ [10] := by
  obtain ⟨n₁, h₁, hv, hcompletes⟩ := h.code hsmooth hr
  rw [hten] at h₁ hv
  obtain ⟨n₂, hs₂, h₂⟩ := h₁.leave hv
  obtain ⟨n, hs, hn, hinput, hprinted⟩ := h₂.halt
  have hstop : Completes n (.ok n.status) n := .stopped (by simp [hn])
  rw [hn] at hstop
  exact ⟨n, hcompletes _ _ (.step h₁.status hs₂ (.step h₂.status hs hstop)), hn, hinput, hprinted⟩

theorem Echoes.again {code : Word} {rest : List Word} (hr : input.remaining = code :: rest)
    (hten : Word.wrap code.toNat ≠ 10) :
    ∃ n : Machine Transcript, n.Echoes 0 input.next.2 (printed ++ [Word.wrap code.toNat]) ∧
      ∀ answer k, Completes n answer k → Completes m answer k := by
  obtain ⟨n₁, h₁, hv, hcompletes⟩ := h.code hsmooth hr
  rw [if_neg hten] at hv
  obtain ⟨n, hs, hn⟩ := h₁.back hv
  exact ⟨n, hn, fun _ _ hc => hcompletes _ _ (.step h₁.status hs hc)⟩

end

theorem Echoes.completes_line {front back : List Word} (h : m.Echoes 0 input printed)
    (hsmooth : input.source.obstacle = none) (hfront : 10 ∉ front)
    (hr : input.remaining.map (fun code => Word.wrap code.toNat) = front ++ 10 :: back) :
    ∃ n, Completes m (.ok .halted) n ∧ n.status = .halted ∧ n.device.input = input.after (front.length + 1) ∧
      n.device.printed.toList = printed ++ (front ++ [10]) := by
  -- each code of the line takes the loop back to 0, with one code less to come
  induction front generalizing m input printed with
  | nil =>
    obtain ⟨code, rest, hcode, hten, -⟩ := List.map_eq_cons_iff.mp hr
    exact h.completes_code hsmooth hcode hten
  | cons c front ih =>
    obtain ⟨code, rest, hcode, rfl, hrest⟩ := List.map_eq_cons_iff.mp hr
    rw [List.mem_cons, not_or] at hfront
    obtain ⟨n₁, h₁, hcompletes⟩ := h.again hsmooth hcode (Ne.symm hfront.1)
    obtain ⟨_, hremaining, hnone⟩ := LineBuffer.next_remaining hsmooth
    rw [hcode, List.tail_cons] at hremaining
    rw [← hremaining] at hrest
    obtain ⟨n, hc, hn, hinput, hprinted⟩ := ih h₁ hnone hfront.2 hrest
    refine ⟨n, hcompletes _ _ hc, hn, hinput, ?_⟩
    rw [hprinted, List.append_assoc]
    rfl

theorem Echoes.completes_end (h : m.Echoes 0 input printed) (hsmooth : input.source.obstacle = none)
    (hr : input.remaining = []) :
    ∃ n, Completes m (.error .inputClosed) n ∧ n.status = .faulted ∧ n.device.printed.toList = printed := by
  obtain ⟨n, hs, hn, hprinted⟩ := h.read_end hsmooth hr
  exact ⟨n, .fault hs, hn, hprinted⟩

end

theorem echoes_start {memory : Memory} (h : Memory.ofImage echo = .ok memory) (bytes : List UInt8) :
    (start memory (Transcript.ofBytes bytes)).Echoes 0 (.ofBytes bytes) [] :=
  ⟨h, rfl, rfl, rfl, rfl⟩

/-- From a fresh machine the program always ends. Without input it ends in a fault, with nothing printed.
Otherwise it halts after the first of the codes that is reduced to 10; it has printed all up to that one,
reduced, and has taken no more of them. -/
theorem echo_prints_first_line (bytes : List UInt8) :
    ∃ (memory : Memory) (codes : List Word) (answer : Except Fault Status) (n : Machine Transcript),
      Memory.ofImage echo = .ok memory ∧
      LineBuffer.Answers (.ofBytes bytes) (codes.map .ok) ∧
      Completes (start memory (Transcript.ofBytes bytes)) answer n ∧
      (bytes = [] → answer = .error .inputClosed ∧ n.status = .faulted ∧ n.device.printed = #[]) ∧
      (bytes ≠ [] → ∃ front back, codes.map (fun code => Word.wrap code.toNat) = front ++ 10 :: back ∧
        10 ∉ front ∧
        answer = .ok .halted ∧ n.status = .halted ∧ n.device.printed.toList = front ++ [10] ∧
        n.device.input = (LineBuffer.ofBytes bytes).after (front.length + 1)) := by
  obtain ⟨memory, hmemory⟩ := (Memory.exists_ofImage_iff echo).mpr (by decide)
  have h := echoes_start hmemory bytes
  have hcodes := LineBuffer.answers_ofBytes bytes
  by_cases hne : bytes = []
  · subst hne
    obtain ⟨n, hc, hn, hprinted⟩ := h.completes_end rfl rfl
    refine ⟨memory, _, _, n, hmemory, hcodes, hc, fun _ => ⟨rfl, hn, ?_⟩, fun h => absurd rfl h⟩
    exact Array.toList_inj.mp hprinted
  · have hten : 10 ∈ (LineBuffer.ofBytes bytes).remaining.map (fun code => Word.wrap code.toNat) :=
      List.mem_map.mpr ⟨LineBuffer.terminator, LineBuffer.terminator_mem_codes hne, rfl⟩
    obtain ⟨front, back, hfront, hnot⟩ := List.eq_append_cons_of_mem hten
    obtain ⟨n, hc, hn, hinput, hprinted⟩ := h.completes_line rfl hnot hfront
    exact ⟨memory, _, _, n, hmemory, hcodes, hc, fun h => absurd h hne,
      fun _ => ⟨front, back, hfront, hnot, rfl, hn, hprinted, hinput⟩⟩

/-- U+800A in the second place is printed as 10 and ends the program. -/
theorem echo_prints_first_line_folded :
    (∃ memory n, Memory.ofImage echo = .ok memory ∧
      Completes (start memory (Transcript.ofBytes [])) (.error .inputClosed) n ∧ n.device.printed = #[]) ∧
    ∃ memory n, Memory.ofImage echo = .ok memory ∧
      Completes (start memory (Transcript.ofBytes [97, 0xE8, 0x80, 0x8A, 98])) (.ok .halted) n ∧
      n.device.printed.toList = [97, 10] ∧
      n.device.input = (LineBuffer.ofBytes [97, 0xE8, 0x80, 0x8A, 98]).after 2 := by
  refine ⟨?_, ?_⟩
  · obtain ⟨memory, _, _, n, hmemory, _, hc, hempty, _⟩ := echo_prints_first_line []
    obtain ⟨rfl, _, hprinted⟩ := hempty rfl
    exact ⟨memory, n, hmemory, hc, hprinted⟩
  · obtain ⟨memory, codes, _, n, hmemory, ha, hc, _, hline⟩ :=
      echo_prints_first_line [97, 0xE8, 0x80, 0x8A, 98]
    obtain ⟨front, back, hcodes, hnot, rfl, _, hprinted, hinput⟩ := hline (by decide)
    rw [ha.codes_unique (LineBuffer.answers_ofBytes _)] at hcodes
    have hfolded : [97, 10, 98, 10] = front ++ 10 :: back := by
      rw [← hcodes]
      decide +kernel
    rcases front with _ | ⟨c, _ | ⟨c', front⟩⟩
    · simp at hfolded
    · obtain ⟨rfl, -⟩ := List.cons.inj hfolded
      exact ⟨memory, n, hmemory, hc, hprinted, hinput⟩
    · simp only [List.cons_append, List.cons.injEq] at hfolded
      simp [← hfolded.2.1] at hnot

end Machine

end WordMachine
