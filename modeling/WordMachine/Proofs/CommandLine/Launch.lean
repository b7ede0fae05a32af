import WordMachine.CommandLine.Runner
import WordMachine.Proofs.Machine.Patches
import WordMachine.Proofs.Machine.Printing

/-!
# Launches

What a command line asks for that runs an image, and the machine that it makes of it.
-/

namespace WordMachine

/-! ## Patches -/

theorem Machine.exists_patch {δ : Type} (m : Machine δ) {patches : List Patch}
    (h : ∀ p ∈ patches, p.address.toNat < 32776) :
    ∃ n, m.patch patches = (.ok (), n) ∧ n.status = m.status := by
  obtain ⟨n, hn, hw⟩ := m.patch_of_fits fun p hp => decide_eq_true (Nat.le_of_lt_succ (h p hp))
  exact ⟨n, hn, hw.status⟩

namespace CommandLine.Runner

structure Launch (files : Files) (args : List String) where
  given : Given
  bytes : List UInt8
  base : Option Word
  memory : Memory
  r7 : Option Word
  patches : List Patch
  read : arguments args = .ok given
  runs : given.has "disassemble" = false
  image : files.read (imagePath given) = some bytes
  based : number? given "base" = .ok base
  fits : Memory.empty.load ((base.map UInt16.toNat).getD 0) (.ofBytes bytes) = .ok memory
  teleports : number? given "teleporter" = .ok r7
  patched : (given.valuesOf "patch").mapM Patch.parse = .ok patches
  addresses : ∀ p ∈ patches, p.address.toNat < 32776

theorem mapM_mapError {α β ε ζ : Type} (f : α → Except ε β) (g : ε → ζ) (l : List α) :
    l.mapM (fun a => (f a).mapError g) = (l.mapM f).mapError g := by
  induction l with
  | nil => rfl
  | cons a l ih =>
    rw [List.mapM_cons, List.mapM_cons, ih]
    cases f a with
    | error e => rfl
    | ok b => cases l.mapM f <;> rfl

namespace Launch

variable {files : Files} {args : List String} (l : Launch files args)

def emptyReturn : EmptyReturn := if l.given.has "halt-on-empty-ret" then .halt else .fault

/-- The patches of the teleporter come first. -/
def allPatches : List Patch := l.r7.elim [] Teleporter.patches ++ l.patches

def start {δ : Type} (device : δ) (journal : Option (Array Machine.Event) := none) : Machine δ :=
  { Machine.start l.memory device with emptyReturn := l.emptyReturn, journal }

theorem address_allPatches : ∀ p ∈ l.allPatches, p.address.toNat < 32776 := by
  intro p hp
  rcases List.mem_append.mp hp with hp | hp
  · cases hr : l.r7 with
    | none => simp [hr] at hp
    | some r7 =>
      rw [hr] at hp
      have := Teleporter.cells_patches r7 p hp
      omega
  · exact l.addresses p hp

theorem patches_eq : Runner.patches l.given = .ok l.allPatches := by
  unfold Runner.patches
  rw [l.teleports, mapM_mapError, l.patched]
  rfl

theorem machine_eq (console : Console) :
    Runner.machine l.given l.memory console =
      match (l.start console (if l.given.has "verbose" then some #[] else none)).patch l.allPatches with
      | (.ok (), m) => .ok m
      | (.error fault, _) => .error (.execution fault) := by
  unfold Runner.machine
  rw [l.patches_eq]
  rfl

theorem exists_machine (console : Console) :
    ∃ c, Runner.machine l.given l.memory console = .ok c ∧
      c.muted = ((l.start console).patch l.allPatches).2 := by
  rw [machine_eq]
  generalize (if l.given.has "verbose" then some #[] else none) = journal
  obtain ⟨c, hc, _⟩ := (l.start console journal).exists_patch l.address_allPatches
  have hm := (l.start console journal).patch_muted l.allPatches
  rw [hc] at hm ⊢
  exact ⟨c, rfl, (congrArg Prod.snd hm).symm⟩

theorem exists_task (console : Console) :
    ∃ c, Runner.task l.given (.ofBytes l.bytes) console = .ok (.run c) ∧
      c.muted = ((l.start console).patch l.allPatches).2 := by
  obtain ⟨c, hc, hm⟩ := l.exists_machine console
  refine ⟨c, ?_, hm⟩
  have hload :
      (Memory.empty.load ((l.base.map UInt16.toNat).getD 0) (.ofBytes l.bytes)).mapError Error.load =
        .ok l.memory := by
    rw [l.fits]
    rfl
  unfold Runner.task
  rw [l.based]
  simp only [hload, l.runs, hc, bind, Except.bind]
  rfl

end Launch

end CommandLine.Runner

end WordMachine
