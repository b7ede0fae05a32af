import WordMachine.Device.Console
import WordMachine.Device.Transcript
import WordMachine.Proofs.Machine.Stepwise
import WordMachine.Proofs.Machine.WordWidth

/-!
# Printing

A console prints the character of each code as it comes, a transcript decodes all its codes
together. No machine prints a code of more than 15 bits, and of such codes both make the same text.
-/

namespace WordMachine

section
variable {code : Word} (h : code.toNat ≤ 32767)
include h

theorem isValidChar_of_narrow : code.toNat.isValidChar := Or.inl (by omega)

theorem isHigh_of_narrow : Text.Utf16.isHigh code = false := by
  simp [Text.Utf16.isHigh]
  omega

theorem isLow_of_narrow : Text.Utf16.isLow code = false := by
  simp [Text.Utf16.isLow]
  omega

theorem single_of_narrow : Text.Utf16.single code = Console.char code := by
  simp [Text.Utf16.single, Console.char, isHigh_of_narrow h, isLow_of_narrow h, isValidChar_of_narrow h]

theorem char_ne_replacement : Console.char code ≠ Text.Utf8.replacement := by
  have hv := isValidChar_of_narrow h
  intro he
  have hn : (Char.ofNat code.toNat).toNat = code.toNat := congrArg Char.toNat (dif_pos hv)
  rw [Console.char, if_pos hv] at he
  rw [he] at hn
  have hr : Text.Utf8.replacement.toNat = 65533 := rfl
  omega

end

theorem decode_of_narrow {codes : List Word} (h : ∀ code ∈ codes, code.toNat ≤ 32767) :
    Text.Utf16.decode codes = codes.map Console.char := by
  induction codes with
  | nil => rfl
  | cons code rest ih =>
    have hcode := h code List.mem_cons_self
    rw [Text.Utf16.decode_cons_of_not_high (isHigh_of_narrow hcode), single_of_narrow hcode, List.map_cons,
      ih fun c hc => h c (List.mem_cons_of_mem code hc)]

namespace Transcript

/-- The console that has printed the same codes. -/
def console (t : Transcript) : Console where
  input := t.input
  printed := String.ofList (t.printed.toList.map Console.char)

theorem console_respects : Device.Respects console := by
  refine ⟨fun _ => rfl, ?_⟩
  intro t code
  have hp : (String.ofList (t.printed.toList.map Console.char)).push (Console.char code) =
      String.ofList ((t.printed.push code).toList.map Console.char) := by
    apply String.toList_inj.mp
    simp
  exact Prod.ext rfl (congrArg (Console.mk t.input) hp)

def recorded (t : Transcript) : Recorded Transcript := ⟨t, t.printed.toList.reverse⟩

theorem recorded_respects : Device.Respects recorded := by
  refine ⟨fun _ => rfl, ?_⟩
  intro t code
  simp [Device.output, recorded]

theorem text_eq_printed {t : Transcript} (h : ∀ code ∈ t.printed.toList, code.toNat ≤ 32767) :
    t.text = t.console.printed := by
  rw [text, decode_of_narrow h]
  rfl

end Transcript

namespace Machine

theorem printed_narrow (memory : Memory) (bytes : List UInt8) (acts : List Act) :
    ∀ code ∈ (acts.foldl act (start memory (Transcript.ofBytes bytes))).device.printed.toList,
      code.toNat ≤ 32767 := by
  have hn : (acts.foldl act (start memory (⟨.ofBytes bytes, []⟩ : Recorded Transcript))).Narrow :=
    (narrow_start memory (Transcript.ofBytes bytes) none).foldl_act acts
  have hm : acts.foldl act (start memory (⟨.ofBytes bytes, []⟩ : Recorded Transcript)) =
      (acts.foldl act (start memory (Transcript.ofBytes bytes))).mapDevice Transcript.recorded :=
    foldl_act_mapDevice Transcript.recorded_respects acts (start memory (Transcript.ofBytes bytes))
  rw [hm] at hn
  intro code hc
  exact hn.handed code (List.mem_reverse.mpr hc)

end Machine

end WordMachine
