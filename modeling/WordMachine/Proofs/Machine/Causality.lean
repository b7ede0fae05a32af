import WordMachine.Proofs.Machine.Exchange
import WordMachine.Proofs.Machine.UnreadMemory

/-!
# Input and the future

Two machines that differ in their devices alone stay together as long as the devices answer alike.
A line buffer answers from the lines that it was asked for and from no later byte, so what a run does
does not depend on lines that it has not reached (`input_causal`).
-/

namespace WordMachine

/-- Calls of related devices have the same answers and leave related devices. Calls for input need do
so only where they leave the first device in the given set. -/
structure Device.Twins {δ : Type} [Device δ] (related : δ → δ → Prop) (within : δ → Prop) : Prop where
  output : ∀ {d e} code, related d e →
    (Device.output e code).1 = (Device.output d code).1 ∧
      related (Device.output d code).2 (Device.output e code).2
  input : ∀ {d e}, related d e → within (Device.input d).2 →
    (Device.input e).1 = (Device.input d).1 ∧ related (Device.input d).2 (Device.input e).2

namespace Machine

section
variable {δ : Type}

/-- The machine with another device. -/
def on (m : Machine δ) (device : δ) : Machine δ := { m with device }

theorem device_conclude (pc : Word) (x : Except Fault Unit × Machine δ) :
    (conclude pc x).2.device = x.2.device := by
  obtain ⟨result, m⟩ := x
  cases result with
  | ok u =>
    unfold conclude
    simp only
    split <;> rfl
  | error fault => rfl

theorem conclude_on (device : δ) (pc : Word) (x : Except Fault Unit × Machine δ) :
    conclude pc (x.1, x.2.on device) = ((conclude pc x).1, (conclude pc x).2.on device) :=
  conclude_map (g := fun m => m.on device) (fun _ => rfl) (fun _ _ => rfl) (fun _ => rfl) pc x

variable [Device δ]

/-- A step makes at most one call. -/
theorem device_step (m : Machine δ) :
    m.step.2.device = m.device ∨ (∃ code, m.step.2.device = (Device.output m.device code).2) ∨
      m.step.2.device = (Device.input m.device).2 := by
  obtain ⟨status, journal, hs | ⟨i, _, hs⟩⟩ := step_snd m <;> rw [hs]
  · exact Or.inl rfl
  · rcases execute_cases (m.past i) i with ⟨fault, _, he⟩ | ⟨action, _, he⟩ <;> simp only [he]
    · exact Or.inl rfl
    · cases action with
      | print code => exact Or.inr (Or.inl ⟨code, device_perform_print _ code⟩)
      | read r => exact Or.inr (Or.inr (device_perform_read _ r))
      | _ => exact Or.inl (device_perform _ rfl)

section
variable {related : δ → δ → Prop} {within : δ → Prop} (ht : Device.Twins related within)
include ht

theorem perform_on {m : Machine δ} {e : δ} (h : related m.device e) {action : Action}
    (hw : within (m.perform action).2.device) :
    ∃ e', (m.on e).perform action = ((m.perform action).1, (m.perform action).2.on e') ∧
      related (m.perform action).2.device e' := by
  cases action with
  | print code =>
    obtain ⟨hanswer, hrelated⟩ := ht.output code h
    rw [device_perform_print]
    refine ⟨(Device.output e code).2, ?_, hrelated⟩
    cases hd : Device.output m.device code with
    | mk result d =>
      rw [hd] at hanswer
      have he : Device.output (m.on e).device code = (result, (Device.output e code).2) :=
        Prod.ext hanswer rfl
      cases result with
      | ok u => rw [perform_print_ok hd, perform_print_ok he]; rfl
      | error kind => rw [perform_print_error hd, perform_print_error he]; rfl
  | read r =>
    rw [device_perform_read] at hw ⊢
    obtain ⟨hanswer, hrelated⟩ := ht.input h hw
    refine ⟨(Device.input e).2, ?_, hrelated⟩
    cases hd : Device.input m.device with
    | mk result d =>
      rw [hd] at hanswer
      have he : Device.input (m.on e).device = (result, (Device.input e).2) := Prod.ext hanswer rfl
      cases result with
      | ok code => rw [perform_read_ok hd, perform_read_ok he]; rfl
      | error kind => rw [perform_read_error hd, perform_read_error he]; rfl
  | _ => exact ⟨e, rfl, h⟩

theorem execute_on {m : Machine δ} {e : δ} (h : related m.device e) {i : Instruction}
    (hw : within (m.execute i).2.device) :
    ∃ e', (m.on e).execute i = ((m.execute i).1, (m.execute i).2.on e') ∧
      related (m.execute i).2.device e' := by
  rcases execute_cases m i with ⟨fault, hp, he⟩ | ⟨action, hp, he⟩
  · have he' : (m.on e).execute i = (.error fault, m.on e) := by
      unfold execute
      rw [show (m.on e).processor.plan (m.on e).emptyReturn i = .error fault from hp]
    rw [he, he']
    exact ⟨e, rfl, h⟩
  · have he' : (m.on e).execute i = (m.on e).perform action := execute_of_planned hp
    rw [he] at hw ⊢
    rw [he']
    exact perform_on ht h hw

theorem step_on {m : Machine δ} {e : δ} (h : related m.device e) (hw : within m.step.2.device) :
    ∃ e', (m.on e).step = (m.step.1, m.step.2.on e') ∧ related m.step.2.device e' := by
  by_cases hr : m.status = .running
  · rcases step_cases hr with ⟨fault, hf, hs⟩ | ⟨i, hf, hs⟩
    · have hs' := step_of_fetch_error (m := m.on e) hr hf
      rw [hs, device_conclude]
      exact ⟨e, hs'.trans (conclude_on e m.processor.pc (.error fault, m)), h⟩
    · have hs' := step_of_fetch_ok (m := m.on e) hr hf
      rw [hs, device_conclude] at hw
      obtain ⟨e', he, hrelated⟩ := execute_on ht (m := m.past i) h hw
      rw [hs, device_conclude]
      refine ⟨e', ?_, hrelated⟩
      rw [← conclude_on e', ← he]
      exact hs'
  · have hs' : (m.on e).step = (.ok m.status, m.on e) := step_of_stopped hr
    rw [step_of_stopped hr, hs']
    exact ⟨e, rfl, h⟩

theorem after_on {m : Machine δ} {e : δ} (h : related m.device e) {n : Nat}
    (hw : ∀ k, k ≤ n → within (m.after k).device) :
    ∃ e', (m.on e).after n = (m.after n).on e' ∧ related (m.after n).device e' := by
  induction n with
  | zero => exact ⟨e, rfl, h⟩
  | succ n ih =>
    obtain ⟨e', he, hrelated⟩ := ih fun k hk => hw k (by omega)
    obtain ⟨e'', hs, hrelated'⟩ := step_on ht hrelated (hw (n + 1) (Nat.le_refl _))
    refine ⟨e'', ?_, hrelated'⟩
    rw [after, he, hs]
    rfl

theorem step_after_on {m : Machine δ} {e : δ} (h : related m.device e) {n : Nat}
    (hw : ∀ k, k ≤ n + 1 → within (m.after k).device) : ((m.on e).after n).step.1 = (m.after n).step.1 := by
  obtain ⟨e', he, hrelated⟩ := after_on ht h fun k hk => hw k (Nat.le_succ_of_le hk)
  obtain ⟨e'', hs, _⟩ := step_on ht hrelated (hw (n + 1) (Nat.le_refl _))
  rw [he, hs]

end

theorem calls_after_le (m : Machine (Traced δ)) (call : Device.Call) {k n : Nat} (h : k ≤ n) :
    (m.after k).device.calls.count call ≤ (m.after n).device.calls.count call := by
  induction n, h using Nat.le_induction with
  | base => exact Nat.le_refl _
  | succ n _ ih =>
    apply ih.trans
    rw [after]
    rcases device_step (m.after n) with h | ⟨code, h⟩ | h <;> rw [h]
    · exact List.count_le_count_cons
    · exact List.count_le_count_cons

end

end Machine

/-! ## Lines and what follows them -/

namespace Transcript

/-- The calls for input so far have taken the first codes of `s`; the others are still to come, and
anything may follow them. -/
structure Supplies (s : List Word) (d : Traced Transcript) : Prop where
  obstacle : d.device.input.source.obstacle = none
  remaining : ∃ rest, d.device.input.remaining = s.drop (d.calls.count .input) ++ rest

theorem Supplies.input {s : List Word} {d : Traced Transcript} (h : Supplies s d)
    (hlt : d.calls.count .input < s.length) :
    (Device.input d).1 = .ok s[d.calls.count .input] ∧ (Device.input d).2.device.printed = d.device.printed ∧
      Supplies s (Device.input d).2 := by
  obtain ⟨rest, hrest⟩ := h.remaining
  rw [List.drop_eq_getElem_cons hlt] at hrest
  have hcode : Device.input d.device = _ := input_of_remaining h.obstacle hrest
  obtain ⟨_, hremaining, hnone⟩ := LineBuffer.next_remaining h.obstacle
  rw [hrest, List.cons_append, List.tail_cons] at hremaining
  exact ⟨congrArg Prod.fst hcode, rfl, hnone, rest, hremaining.trans (by simp [Device.input])⟩

theorem Supplies.output {s : List Word} {d : Traced Transcript} (h : Supplies s d) (code : Word) :
    Supplies s (Device.output d code).2 :=
  ⟨h.obstacle, by simpa [Device.output] using h.remaining⟩

/-- Two devices that were called alike, printed the same and have the rest of `s` to come. -/
structure Shares (s : List Word) (d e : Traced Transcript) : Prop where
  calls : e.calls = d.calls
  printed : e.device.printed = d.device.printed
  left : Supplies s d
  right : Supplies s e

theorem twins (s : List Word) : Device.Twins (Shares s) fun d => d.calls.count .input ≤ s.length where
  output := by
    rintro d e code ⟨hcalls, hprinted, hd, he⟩
    refine ⟨rfl, ?_, ?_, hd.output code, he.output code⟩
    · simp only [Device.output, hcalls]
    · simp only [Device.output, hprinted]
  input := by
    rintro d e ⟨hcalls, hprinted, hd, he⟩ hwithin
    have hlt : d.calls.count .input < s.length := by
      simpa [Device.input, Nat.succ_le_iff] using hwithin
    obtain ⟨hcode, hkept, hd'⟩ := hd.input hlt
    obtain ⟨hcode', hkept', he'⟩ := he.input (hcalls ▸ hlt)
    refine ⟨?_, ?_, ?_, hd', he'⟩
    · rw [hcode, hcode']
      simp only [hcalls]
    · simp only [Device.input, hcalls]
    · rw [hkept, hkept', hprinted]

theorem shares_ofBytes {p : List UInt8} (hp : p = [] ∨ p.getLast? = some Source.lineFeed) (x y : List UInt8)
    (printed : Array Word) :
    Shares (LineBuffer.codes (LineBuffer.normalise p)) ⟨{ input := .ofBytes (p ++ x), printed }, []⟩
      ⟨{ input := .ofBytes (p ++ y), printed }, []⟩ where
  calls := rfl
  printed := rfl
  left := ⟨rfl, _, LineBuffer.codes_normalise_append hp x⟩
  right := ⟨rfl, _, LineBuffer.codes_normalise_append hp y⟩

end Transcript

namespace Machine

/-- The machine with these bytes to read. -/
def reading (m : Machine Transcript) (bytes : List UInt8) : Machine Transcript :=
  { m with device.input := .ofBytes bytes }

section
variable (m : Machine Transcript) {p : List UInt8} (hp : p = [] ∨ p.getLast? = some Source.lineFeed)
  (x y : List UInt8)
  {n : Nat}
  (hn : (((m.reading (p ++ x)).traced []).after n).device.calls.count .input ≤
    (LineBuffer.codes (LineBuffer.normalise p)).length)
include hp hn

theorem after_reading {k : Nat} (hk : k ≤ n) :
    (m.reading (p ++ y)).after k =
      { (m.reading (p ++ x)).after k with device.input := ((m.reading (p ++ y)).after k).device.input } := by
  obtain ⟨e, he, _, hprinted, _, _⟩ := after_on (Transcript.twins _) (m := (m.reading (p ++ x)).traced [])
    (Transcript.shares_ofBytes hp x y m.device.printed) (n := k) fun j hj =>
      (calls_after_le _ _ (hj.trans hk)).trans hn
  have hy :
      (m.reading (p ++ y)).after k =
        ((((m.reading (p ++ x)).traced []).after k).on e).mapDevice Traced.device := by
    rw [← he]
    exact after_traced _ k
  rw [hy, after_traced (m.reading (p ++ x)) k]
  unfold on mapDevice
  simp only
  rw [← hprinted]

theorem step_reading {k : Nat} (hk : k < n) :
    ((m.reading (p ++ y)).after k).step.1 = ((m.reading (p ++ x)).after k).step.1 := by
  have h := step_after_on (Transcript.twins _) (m := (m.reading (p ++ x)).traced [])
    (Transcript.shares_ofBytes hp x y m.device.printed) (n := k) fun j hj =>
      (calls_after_le _ _ (hj.trans hk)).trans hn
  rw [after_traced (m.reading (p ++ y)), after_traced (m.reading (p ++ x)), step_mapDevice Traced.respects,
    step_mapDevice Traced.respects]
  exact h

end

/-- What follows the lines of a text plays no part until a run has called for more codes than the
text has. Up to there two runs whose input begins with these lines answer alike and leave machines
that differ only in what is still to be read. -/
theorem input_causal (m : Machine Transcript) (p x y : List UInt8)
    (hp : p = [] ∨ p.getLast? = some Source.lineFeed) :
    ∃ s : List Word,
      (∀ k, (LineBuffer.ofBytes p).answer k =
        match s[k]? with | some code => .ok code | none => .error LineBuffer.ended) ∧
      ∀ n, (((m.reading (p ++ x)).traced []).after n).device.calls.count .input ≤ s.length →
        (∀ k, k < n → ((m.reading (p ++ y)).after k).step.1 = ((m.reading (p ++ x)).after k).step.1) ∧
        ∀ k, k ≤ n → (m.reading (p ++ y)).after k =
          { (m.reading (p ++ x)).after k with device.input := ((m.reading (p ++ y)).after k).device.input } :=
  ⟨_, LineBuffer.answer_eq rfl, fun _ hn =>
    ⟨fun _ hk => step_reading m hp x y hn hk, fun _ hk => after_reading m hp x y hn hk⟩⟩

/-- The line that is read ends in a carriage return and a line feed; only then do the inputs differ. -/
theorem input_causal_echoing :
    [65, 13, 10].getLast? = some Source.lineFeed ∧ (LineBuffer.ofBytes [65, 13, 10]).answer 1 = .ok 10 ∧
      (((echoing.reading ([65, 13, 10] ++ [66])).traced []).after 3).device.calls.count .input = 2 ∧
      ((echoing.reading ([65, 13, 10] ++ [])).after 3).processor =
        ((echoing.reading ([65, 13, 10] ++ [66])).after 3).processor ∧
      ((echoing.reading ([65, 13, 10] ++ [66])).after 3).processor.register 1 = 10 ∧
      ((echoing.reading ([65, 13, 10] ++ [66])).after 3).step.1 = .ok .running ∧
      ((echoing.reading ([65, 13, 10] ++ [])).after 3).step.1 = .error .inputClosed := by
  have hp : [65, 13, 10].getLast? = some Source.lineFeed := rfl
  have hcode : (LineBuffer.ofBytes [65, 13, 10]).answer 1 = .ok 10 := rfl
  have hcalls :
      (((echoing.reading ([65, 13, 10] ++ [66])).traced []).after 3).device.calls.count .input = 2 := by
    decide +kernel
  obtain ⟨s, hs, hall⟩ := input_causal echoing [65, 13, 10] [66] [] (Or.inr hp)
  have hlength : 2 ≤ s.length := by
    rw [hs 1] at hcode
    cases hc : s[1]? with
    | some code => exact (List.getElem?_eq_some_iff.mp hc).1
    | none => simp [hc] at hcode
  have hafter := (hall 3 (hcalls ▸ hlength)).2 3 (Nat.le_refl _)
  refine ⟨hp, rfl, hcalls, ?_, by decide +kernel, ?_, ?_⟩
  · rw [hafter]
  · rfl
  · rfl

end Machine

end WordMachine
