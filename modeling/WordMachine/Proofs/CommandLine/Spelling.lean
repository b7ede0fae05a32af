import Mathlib.Data.List.TakeDrop
import Mathlib.Data.List.TakeWhile
import WordMachine.Proofs.CommandLine.Launch

/-!
# How a launch is written

Every choice of an image, a base, a value for the teleporter, patches and a return policy has a
command line that launches it (`exists_launch`).
-/

namespace WordMachine

/-! ## Numbers do not begin with a dash -/

namespace Text

theorem trimBlanks_cons {c : Char} (h : isBlank c = false) (cs : List Char) :
    ∃ rest, trimBlanks (c :: cs) = c :: rest := by
  have hc : trimLeft (c :: cs) = c :: cs := by simp [trimLeft, h]
  rw [trimBlanks, hc, List.reverse_cons, trimLeft, List.dropWhile_append]
  split
  · exact ⟨[], by simp [h]⟩
  · exact ⟨_, by rw [List.reverse_append]; rfl⟩

theorem number?_dash (cs : List Char) : number? ('-' :: cs) = none := by
  simp [number?, numeral?, digitsValue?, digit?, digitValue?]

theorem pair?_dash (cs : List Char) : pair? ('-' :: cs) = none := by
  unfold pair?
  rw [List.span_eq_takeWhile_dropWhile, List.takeWhile_cons_of_pos (by decide),
    List.dropWhile_cons_of_pos (by decide)]
  cases cs.dropWhile (· != '=') with
  | nil => rfl
  | cons d right => simp [number?_dash]

variable {s : String}

theorem toList_trim_of_dash (h : s.toList.head? = some '-') : ∃ rest, (trim s).toList = '-' :: rest := by
  obtain ⟨cs, hs⟩ : ∃ cs, s.toList = '-' :: cs := by
    cases hl : s.toList with
    | nil => simp [hl] at h
    | cons c cs =>
      rw [hl] at h
      cases h
      exact ⟨cs, rfl⟩
  rw [trim, hs, String.toList_ofList]
  exact trimBlanks_cons (by decide) cs

theorem head?_of_parseWord {w : Word} (h : parseWord s = .ok w) : s.toList.head? ≠ some '-' := by
  intro hd
  obtain ⟨rest, ht⟩ := toList_trim_of_dash hd
  simp [parseWord, ht, number?_dash] at h

theorem head?_of_parsePair {p : Word × Word} (h : parsePair s = .ok p) : s.toList.head? ≠ some '-' := by
  intro hd
  obtain ⟨rest, ht⟩ := toList_trim_of_dash hd
  simp [parsePair, ht, pair?_dash] at h

theorem head?_of_map_parseWord {text : Option String} {w : Option Word} (h : text.map parseWord = w.map .ok) :
    ∀ s ∈ text, s.toList.head? ≠ some '-' := by
  rintro s rfl
  cases w with
  | none => simp at h
  | some w => exact head?_of_parseWord (Option.some.inj h)

end Text

theorem Patch.head?_of_parse {s : String} {p : Patch} (h : Patch.parse s = .ok p) :
    s.toList.head? ≠ some '-' := by
  unfold Patch.parse at h
  cases hp : Text.parsePair s with
  | ok pair => exact Text.head?_of_parsePair hp
  | error e =>
    rw [hp] at h
    cases h

theorem Patch.head?_of_mapM_parse {texts : List String} {patches : List Patch}
    (h : texts.mapM Patch.parse = .ok patches) :
    ∀ text ∈ texts, text.toList.head? ≠ some '-' := by
  induction texts generalizing patches with
  | nil => simp
  | cons text texts ih =>
    rw [List.mapM_cons] at h
    obtain ⟨p, hp, h⟩ := except_bind_eq_ok_iff.mp h
    obtain ⟨rest, hrest, _⟩ := except_bind_eq_ok_iff.mp h
    intro s hs
    rcases List.mem_cons.mp hs with rfl | hs
    · exact head?_of_parse hp
    · exact ih hrest s hs

namespace CommandLine

/-! ## Reading arguments -/

namespace Given

variable (g : Given) (name : String) (texts : List String)

def giveAll : Given :=
  { g with options := g.options ++ texts.map fun _ => name, values := g.values ++ texts.map (name, ·) }

theorem giveAll_cons (text : String) :
    (g.giveAll name [text]).giveAll name texts = g.giveAll name (text :: texts) := by
  simp [giveAll]

theorem valuesOf_giveAll (other : String) :
    (g.giveAll name texts).valuesOf other = g.valuesOf other ++ if name = other then texts else [] := by
  by_cases h : name = other
  · unfold valuesOf giveAll
    rw [List.filterMap_append, List.filterMap_map, if_pos h]
    apply congrArg (_ ++ ·)
    exact (congrArg (List.filterMap · texts) (funext fun _ => if_pos h)).trans List.filterMap_some
  · simp [giveAll, valuesOf, h]

theorem has_giveAll (other : String) :
    (g.giveAll name texts).has other = (g.has other || (name == other && !texts.isEmpty)) := by
  cases texts with
  | nil => simp [giveAll, has]
  | cons text texts =>
    by_cases h : name = other
    · simp [giveAll, has, h]
    · have h' : ¬ other = name := fun e => h e.symm
      simp [giveAll, has, h, h']

theorem count_giveAll (other : String) :
    (g.giveAll name texts).options.count other =
      g.options.count other + if name = other then texts.length else 0 := by
  rw [giveAll, List.count_append, List.map_const', List.count_replicate]
  simp

end Given

namespace Grammar

variable {grammar : Grammar} {g g' : Given} {arg : String} (rest : List String)

theorem read_word (ho : g.onlyWords = false) (hs : g.awaiting = none) (ha : arg.toList.head? ≠ some '-')
    (hc : grammar.commands = []) (hw : grammar.readWord g arg = .ok g') :
    grammar.read g (arg :: rest) = grammar.read g' rest := by
  cases hl : arg.toList with
  | nil => simp [read, ho, hl, hs, hc, hw, bind, Except.bind]
  | cons c cs =>
    have hd : c ≠ '-' := by simpa [hl] using ha
    simp [read, ho, hl, hs, hd, hc, hw, bind, Except.bind]

theorem read_value {spec : OptionSpec} (ho : g.onlyWords = false) (hs : g.awaiting = some spec)
    (ha : arg.toList.head? ≠ some '-') :
    grammar.read g (arg :: rest) = grammar.read (g.addValue spec.name arg) rest := by
  cases hl : arg.toList with
  | nil => simp [read, ho, hl, hs]
  | cons c cs =>
    have hc : c ≠ '-' := by simpa [hl] using ha
    simp [read, ho, hl, hs, hc]

section
variable (name : String) {spec : OptionSpec} (hn : name.toList.all (· != '=') = true)
  (hf : grammar.options.find? (·.name == name) = some spec)
include hn hf

theorem readLong_name (g : Given) :
    grammar.readLong g name.toList =
      .ok (match spec.kind with | .flag => g.addFlag name | _ => g.addOption spec none) := by
  have hall : ∀ c ∈ name.toList, (c != '=') = true := List.all_eq_true.mp hn
  unfold readLong
  rw [List.span_eq_takeWhile_dropWhile, List.takeWhile_eq_self_iff.mpr hall,
    List.dropWhile_eq_nil_iff.mpr hall]
  simp only [String.ofList_toList, hf]
  cases spec.kind <;> rfl

theorem read_name (hd : name.toList.head?.any (· != '-') = true) (ho : g.onlyWords = false) :
    grammar.read g (("--" ++ name) :: rest) =
      grammar.read (match spec.kind with | .flag => g.addFlag name | _ => g.addOption spec none) rest := by
  have hr := readLong_name name hn hf g
  have ha : ("--" ++ name).toList = '-' :: '-' :: name.toList := by simp
  cases hl : name.toList with
  | nil => simp [hl] at hd
  | cons c cs =>
    have hc : c ≠ '-' := by simpa [hl] using hd
    rw [hl] at ha hr
    simp [read, ho, ha, hc, hr, bind, Except.bind]

end

/-- An option with each of the texts as its value. -/
def spell (name : String) (texts : List String) : List String :=
  texts.flatMap fun text => ["--" ++ name, text]

theorem read_spell (name : String) {spec : OptionSpec} (hn : name.toList.all (· != '=') = true)
    (hf : grammar.options.find? (·.name == name) = some spec) (hd : name.toList.head?.any (· != '-') = true)
    (hk : spec.kind ≠ .flag) {texts : List String} (ht : ∀ text ∈ texts, text.toList.head? ≠ some '-')
    (ho : g.onlyWords = false) (hs : g.awaiting = none) :
    grammar.read g (spell name texts ++ rest) = grammar.read (g.giveAll name texts) rest := by
  induction texts generalizing g with
  | nil => simp [spell, Given.giveAll]
  | cons text texts ih =>
    have hname : spec.name = name := by simpa using List.find?_some hf
    have hvalue : (g.addOption spec none).addValue name text = g.giveAll name [text] := by
      simp [Given.addOption, Given.addValue, Given.giveAll, hname, hs]
    have hread : grammar.read g (spell name (text :: texts) ++ rest) =
        grammar.read (g.addOption spec none) (text :: (spell name texts ++ rest)) := by
      rw [show spell name (text :: texts) ++ rest =
          ("--" ++ name) :: text :: (spell name texts ++ rest) from rfl,
        read_name _ name hn hf hd ho]
      cases h : spec.kind with
      | flag => exact absurd h hk
      | _ => rfl
    rw [hread, read_value (g := g.addOption spec none) _ ho rfl (ht text List.mem_cons_self), hname,
      hvalue, ih (g := g.giveAll name [text]) (fun t h => ht t (List.mem_cons_of_mem text h)) ho hs,
      Given.giveAll_cons]

end Grammar

namespace Runner

open Grammar (spell)

def commandLine (path : String) (halt : Bool) (base r7 : Option String) (patches : List String) :
    List String :=
  path :: ((if halt then ["--halt-on-empty-ret"] else []) ++
    (spell "base" base.toList ++ (spell "teleporter" r7.toList ++ spell "patch" patches)))

def givenBy (path : String) (halt : Bool) (base r7 : Option String) (patches : List String) : Given :=
  let word : Given := { words := [path], options := if halt then ["halt-on-empty-ret"] else [] }
  ((word.giveAll "base" base.toList).giveAll "teleporter" r7.toList).giveAll "patch" patches

variable {path : String} {halt : Bool} {base r7 : Option String} {patches : List String}

theorem allowed_givenBy :
    grammar.options.all (Grammar.allowed (givenBy path halt base r7 patches)) = true := by
  cases halt <;> cases base <;> cases r7 <;> cases patches <;>
    simp [grammar, Grammar.allowed, givenBy, Given.count_giveAll, Given.valuesOf_giveAll]

theorem arguments_commandLine (hpath : path.toList.head? ≠ some '-')
    (hbase : ∀ text ∈ base, text.toList.head? ≠ some '-')
    (hr7 : ∀ text ∈ r7, text.toList.head? ≠ some '-')
    (hpatches : ∀ text ∈ patches, text.toList.head? ≠ some '-') :
    arguments (commandLine path halt base r7 patches) = .ok (givenBy path halt base r7 patches) := by
  have hflag :
      ∀ rest, grammar.read { words := [path] } ((if halt then ["--halt-on-empty-ret"] else []) ++ rest) =
      grammar.read { words := [path], options := if halt then ["halt-on-empty-ret"] else [] } rest := by
    intro rest
    cases halt with
    | true =>
      have hf :
          grammar.options.find? (·.name == "halt-on-empty-ret") =
            some { name := "halt-on-empty-ret", kind := .flag } :=
        rfl
      exact Grammar.read_name (g := { words := [path] }) rest _ (by decide) hf (by decide) rfl
    | false => rfl
  have hread :
      grammar.read {} (commandLine path halt base r7 patches) =
        .ok (givenBy path halt base r7 patches, none) := by
    unfold commandLine
    rw [Grammar.read_word _ rfl rfl hpath rfl rfl, hflag,
      Grammar.read_spell _ "base" (by decide) rfl (by decide) (by decide) (by simpa using hbase) rfl rfl,
      Grammar.read_spell _ "teleporter" (by decide) rfl (by decide) (by decide) (by simpa using hr7) rfl rfl,
      ← List.append_nil (spell "patch" patches),
      Grammar.read_spell _ "patch" (by decide) rfl (by decide) (by decide) hpatches rfl rfl]
    rfl
  unfold arguments
  rw [hread]
  have hfallbacks :
      grammar.addFallbacks (givenBy path halt base r7 patches) = givenBy path halt base r7 patches := rfl
  simp only [bind, Except.bind, Grammar.accept, hfallbacks]
  rw [allowed_givenBy]
  rfl

theorem valuesOf_givenBy (name : String) :
    (givenBy path halt base r7 patches).valuesOf name =
      (if "base" = name then base.toList else []) ++ (if "teleporter" = name then r7.toList else []) ++
        if "patch" = name then patches else [] := by
  simp [givenBy, Given.valuesOf_giveAll]
  rfl

theorem has_givenBy (name : String) :
    (givenBy path halt base r7 patches).has name =
      ((if halt then ["halt-on-empty-ret"] else []).contains name ||
        ("base" == name && !base.toList.isEmpty) ||
        ("teleporter" == name && !r7.toList.isEmpty) || ("patch" == name && !patches.isEmpty)) := by
  simp only [givenBy, Given.has_giveAll]
  rfl

theorem number?_givenBy {text : Option String} {w : Option Word} (name : String)
    (hv : (givenBy path halt base r7 patches).valuesOf name = text.toList)
    (h : text.map Text.parseWord = w.map .ok) : number? (givenBy path halt base r7 patches) name = .ok w := by
  unfold number? Given.value?
  rw [hv]
  cases text with
  | none =>
    cases w with
    | none => rfl
    | some w => simp at h
  | some text =>
    cases w with
    | none => simp at h
    | some w =>
      have hw : Text.parseWord text = .ok w := by simpa using h
      simp only [Option.toList_some, List.head?_cons, hw]
      rfl

theorem exists_launch (files : Files) {bytes : List UInt8} {b v : Option Word} {ps : List Patch}
    {memory : Memory} (hpath : path.toList.head? ≠ some '-') (hbytes : files.read path = some bytes)
    (hbase : base.map Text.parseWord = b.map .ok) (hr7 : r7.map Text.parseWord = v.map .ok)
    (hpatches : patches.mapM Patch.parse = .ok ps) (haddresses : ∀ p ∈ ps, p.address.toNat < 32776)
    (hfits : Memory.empty.load ((b.map UInt16.toNat).getD 0) (.ofBytes bytes) = .ok memory) :
    ∃ l : Launch files (commandLine path halt base r7 patches), l.bytes = bytes ∧ l.memory = memory ∧
      l.r7 = v ∧ l.patches = ps ∧ l.emptyReturn = if halt then .halt else .fault := by
  let l : Launch files (commandLine path halt base r7 patches) :=
    { given := givenBy path halt base r7 patches
      bytes, base := b, memory, r7 := v, patches := ps
      read := arguments_commandLine hpath (Text.head?_of_map_parseWord hbase)
        (Text.head?_of_map_parseWord hr7)
        (Patch.head?_of_mapM_parse hpatches)
      runs := by
        rw [has_givenBy]
        cases halt <;> rfl
      image := hbytes
      based := number?_givenBy "base" (by simp [valuesOf_givenBy]) hbase
      fits := hfits
      teleports := number?_givenBy "teleporter" (by simp [valuesOf_givenBy]) hr7
      patched := by
        rw [valuesOf_givenBy]
        exact hpatches
      addresses := haddresses }
  have hpolicy : l.emptyReturn = if halt then .halt else .fault := by
    unfold Launch.emptyReturn
    rw [show l.given = givenBy path halt base r7 patches from rfl, has_givenBy]
    cases halt <;> rfl
  exact ⟨l, rfl, rfl, rfl, rfl, hpolicy⟩

end Runner

end CommandLine

end WordMachine
