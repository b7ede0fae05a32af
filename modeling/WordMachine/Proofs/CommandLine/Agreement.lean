import WordMachine.Proofs.CommandLine.Spelling

/-!
# What the command prints

The command prints what a transcript of the same machine holds as text, and its exit code and
complaint tell how the run of that machine ends (`console_agrees`).
-/

namespace WordMachine.CommandLine.Runner

variable {files : Files} {args : List String} (l : Launch files args) (input : List UInt8)

theorem start_ofBytes :
    l.start (Console.ofBytes input) = (l.start (Transcript.ofBytes input)).mapDevice Transcript.console := rfl

theorem muted_run {c : Machine Console} {m : Machine Transcript}
    (h : c.muted = m.mapDevice Transcript.console) (fuel : Nat) :
    (c.run fuel).1 = (m.run fuel).1 ∧ (c.run fuel).2.device = (m.run fuel).2.device.console := by
  have hc := Machine.stepwise_muted.run c fuel
  have hm := (Machine.stepwise_mapDevice Transcript.console_respects).run m fuel
  rw [h, hm] at hc
  exact ⟨(congrArg Prod.fst hc).symm, (congrArg (fun x => x.2.device) hc).symm⟩

theorem finished_stops {answer : Except Fault Status} {n : Machine Transcript} (h : Machine.Stops (answer, n))
    {c : Machine Console} (hc : c.device.printed = n.device.text) :
    (n.status = .halted ∧ answer = .ok .halted ∧
        finished answer c = { printed := n.device.text, journal := records c }) ∨
      ∃ fault, n.status = .faulted ∧ answer = .error fault ∧
        finished answer c =
          { exitCode := 1
            printed := n.device.text
            complaint := some (.message ("Execution error: " ++ fault.message ++ "\n"))
            journal := records c } := by
  cases h with
  | halt hs => exact Or.inl ⟨hs, rfl, by rw [← hc]; rfl⟩
  | @fault _ fault hs => exact Or.inr ⟨fault, hs, rfl, by rw [← hc]; rfl⟩

theorem run_eq_finished {c : Machine Console}
    (h : task l.given (.ofBytes l.bytes) (.ofBytes input) = .ok (.run c))
    (fuel : Nat) : run fuel files input args = finished (c.run fuel).1 (c.run fuel).2 := by
  unfold run
  rw [l.read]
  simp only [l.image, h]
  rfl

/-- The run of a machine on a transcript decides what the command prints, step by step, and how it
ends. -/
theorem console_agrees (l : Launch files args) (input : List UInt8) :
    ∃ (m : Machine Transcript) (c : Machine Console),
      (l.start (Transcript.ofBytes input)).patch (l.r7.elim [] Teleporter.patches ++ l.patches) =
        (.ok (), m) ∧
      task l.given (.ofBytes l.bytes) (.ofBytes input) = .ok (.run c) ∧
      (∀ k, (c.after k).device.printed = (m.after k).device.text ∧
        (m.after k).device.text.toList = (m.after k).device.printed.toList.map Console.char ∧
        Text.Utf8.replacement ∉ (m.after k).device.text.toList) ∧
      ∀ answer n, m.Completes answer n → ∃ bound, ∀ fuel, bound ≤ fuel → ∃ journal,
        (n.status = .halted ∧ answer = .ok .halted ∧
          run fuel files input args = { printed := n.device.text, journal }) ∨
        ∃ fault, n.status = .faulted ∧ answer = .error fault ∧
          run fuel files input args =
            { exitCode := 1
              printed := n.device.text
              complaint := some (.message ("Execution error: " ++ fault.message ++ "\n"))
              journal } := by
  obtain ⟨m, hm, hrunning⟩ := (l.start (Transcript.ofBytes input)).exists_patch l.address_allPatches
  obtain ⟨c, hc, hmuted⟩ := l.exists_task (.ofBytes input)
  rw [start_ofBytes, Machine.patch_mapDevice, hm] at hmuted
  have hnarrow : ∀ k, ∀ code ∈ (m.after k).device.printed.toList, code.toNat ≤ 32767 := by
    intro k
    -- a policy, patches and steps are acts of a host, so no wide code was printed
    have hacts := Machine.printed_narrow l.memory input
      [.setEmptyReturn l.emptyReturn, .patch l.allPatches, .run k]
    have hk : ((((l.start (Transcript.ofBytes input)).patch l.allPatches).2.run k).2) = m.after k := by
      rw [hm, Machine.run_snd]
    rw [← hk]
    exact hacts
  have htext : ∀ k, (c.after k).device.printed = (m.after k).device.text := by
    intro k
    rw [← Machine.run_snd, (muted_run hmuted k).2, ← Machine.run_snd, ← Transcript.text_eq_printed]
    rw [Machine.run_snd]
    exact hnarrow k
  refine ⟨m, c, hm, hc, ?_, ?_⟩
  · intro k
    have hlist : (m.after k).device.text.toList = (m.after k).device.printed.toList.map Console.char := by
      rw [Transcript.text_eq_printed (hnarrow k), Transcript.console, String.toList_ofList]
    refine ⟨htext k, hlist, ?_⟩
    rw [hlist]
    intro hmem
    obtain ⟨code, hcode, he⟩ := List.mem_map.mp hmem
    exact char_ne_replacement (hnarrow k code hcode) he
  · intro answer n hn
    obtain ⟨bound, hb⟩ := hn.exists_bound
    refine ⟨bound, ?_⟩
    intro fuel hle
    have hprinted := htext fuel
    rw [← Machine.run_snd, ← Machine.run_snd, hb fuel hle] at hprinted
    rw [run_eq_finished l input hc, (muted_run hmuted fuel).1, hb fuel hle]
    exact ⟨_, finished_stops (hn.stops hrunning) hprinted⟩

/-- One file, which prints register 0 and returns from an empty stack. -/
def greeting : Files where
  read path := if path = "image" then some [19, 0, 0, 128, 18, 0] else none
  writable _ := false

def greeter : Memory := Memory.empty.overlay 0 [19, 32768, 18] (by decide)

theorem console_agrees_greeting :
    ∃ bound, ∀ fuel, bound ≤ fuel → ∃ journal,
      run fuel greeting [] ["image", "--patch", "32768=0x41"] =
        { exitCode := 1
          printed := "A"
          complaint := some (.message "Execution error: stack underflow\n")
          journal } := by
  obtain ⟨l, -, hmemory, hr7, hpatches, hpolicy⟩ :
      ∃ l : Launch greeting (commandLine "image" false none none ["32768=0x41"]),
        l.bytes = [19, 0, 0, 128, 18, 0] ∧ l.memory = greeter ∧ l.r7 = none ∧ l.patches = [⟨32768, 0x41⟩] ∧
          l.emptyReturn = .fault :=
    exists_launch greeting (b := none) (v := none) (by decide) rfl rfl rfl rfl (by decide) rfl
  obtain ⟨m, c, hm, _, _, hruns⟩ := console_agrees l []
  have hpatched : m = { Machine.start greeter (Transcript.ofBytes []) with
      processor := ({ memory := greeter } : Processor).setRegister 0 65 } := by
    unfold Launch.start at hm
    rw [hmemory, hpolicy, hr7, hpatches] at hm
    exact (congrArg Prod.snd hm).symm
  have hstatus : (m.after 2).status = .faulted := by
    rw [hpatched]
    decide +kernel
  have hprinted : (m.after 2).device.printed = #[65] := by
    rw [hpatched]
    decide +kernel
  have hrun : m.run 2 = (.error .stackUnderflow, m.after 2) := by
    rw [hpatched]
    exact Prod.ext rfl (Machine.run_snd _ 2)
  have hcompletes : m.Completes (.error .stackUnderflow) (m.after 2) :=
    Machine.completes_of_run hrun (by simp [hstatus])
  obtain ⟨bound, hb⟩ := hruns _ _ hcompletes
  refine ⟨bound, ?_⟩
  intro fuel hle
  obtain ⟨journal, ⟨_, ha, _⟩ | ⟨fault, _, ha, hout⟩⟩ := hb fuel hle
  · cases ha
  · cases ha
    rw [Transcript.text, hprinted] at hout
    exact ⟨journal, hout⟩

end WordMachine.CommandLine.Runner
