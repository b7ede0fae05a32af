import WordMachine.Fault
import WordMachine.Image

/-!
# Memory

Memory is 32768 words. A word outside it cannot be read or written, and an image that would reach
past its end is not loaded at all.
-/

namespace WordMachine

structure Memory where
  words : Vector Word Word.modulus
  deriving DecidableEq

structure LoadError where
  base : Nat
  size : Nat
  deriving DecidableEq, Repr

def LoadError.message (e : LoadError) : String :=
  "image of " ++ Text.decimal e.size ++ " words does not fit in memory at base address " ++
    Text.decimal e.base

namespace Memory

abbrev Address := Fin Word.modulus

def empty : Memory := ⟨Vector.replicate Word.modulus 0⟩

def get (memory : Memory) (address : Address) : Word := memory.words[address]

def set (memory : Memory) (address : Address) (value : Word) : Memory :=
  ⟨memory.words.set address value⟩

def addressOf (w : Word) : Except Fault Address :=
  if h : w.toNat < Word.modulus then .ok ⟨w.toNat, h⟩ else .error (.addressOutOfRange w)

def read (memory : Memory) (w : Word) : Except Fault Word := do
  return memory.get (← addressOf w)

def write (memory : Memory) (w value : Word) : Except Fault Memory := do
  return memory.set (← addressOf w) value

def overlay (memory : Memory) (base : Nat) (values : List Word)
    (h : base + values.length ≤ Word.modulus) : Memory :=
  let old := memory.words.toList
  ⟨⟨(old.take base ++ (values ++ old.drop (base + values.length))).toArray, by
    simp only [old, List.size_toArray, List.length_append, List.length_take, List.length_drop,
      Vector.length_toList]
    omega⟩⟩

def load (memory : Memory) (base : Nat) (image : Image) : Except LoadError Memory :=
  if h : base + image.size ≤ Word.modulus then .ok (memory.overlay base image.words h)
  else .error ⟨base, image.size⟩

def ofImage (image : Image) : Except LoadError Memory := empty.load 0 image

/-- How many words come before the zeros that fill the end of memory. -/
def used (memory : Memory) : Nat :=
  (memory.words.toList.reverse.dropWhile (· == 0)).length

def summary (memory : Memory) : String :=
  "Memory \x7b size: " ++ Text.decimal Word.modulus ++ ", used: " ++ Text.decimal memory.used ++
    " \x7d"

theorem addressOf_of_lt {w : Word} (h : w.toNat < Word.modulus) : addressOf w = .ok ⟨w.toNat, h⟩ := dif_pos h

theorem addressOf_of_ge {w : Word} (h : Word.modulus ≤ w.toNat) :
    addressOf w = .error (.addressOutOfRange w) :=
  dif_neg (Nat.not_lt_of_le h)

theorem read_of_lt (memory : Memory) {w : Word} (h : w.toNat < Word.modulus) :
    memory.read w = .ok (memory.get ⟨w.toNat, h⟩) := by
  rw [read, addressOf_of_lt h]
  rfl

theorem write_of_lt (memory : Memory) {w : Word} (h : w.toNat < Word.modulus) (value : Word) :
    memory.write w value = .ok (memory.set ⟨w.toNat, h⟩ value) := by
  rw [write, addressOf_of_lt h]
  rfl

theorem write_of_ge (memory : Memory) {w : Word} (h : Word.modulus ≤ w.toNat) (value : Word) :
    memory.write w value = .error (.addressOutOfRange w) := by
  rw [write, addressOf_of_ge h]
  rfl

theorem load_of_le (memory : Memory) {base : Nat} {image : Image} (h : base + image.size ≤ Word.modulus) :
    memory.load base image = .ok (memory.overlay base image.words h) := dif_pos h

theorem load_of_gt (memory : Memory) {base : Nat} {image : Image} (h : Word.modulus < base + image.size) :
    memory.load base image = .error ⟨base, image.size⟩ := dif_neg (Nat.not_le_of_lt h)

theorem load_eq_ok_iff {memory loaded : Memory} {base : Nat} {image : Image} :
    memory.load base image = .ok loaded ↔
    ∃ h : base + image.size ≤ Word.modulus, memory.overlay base image.words h = loaded := by
  by_cases hfit : base + image.size ≤ Word.modulus
  · simp [load_of_le memory hfit, hfit]
  · simp [load_of_gt memory (Nat.lt_of_not_le hfit), hfit]

theorem get_set_self (memory : Memory) (a : Address) (v : Word) : (memory.set a v).get a = v := by
  simp [get, set]

theorem get_set_of_ne (memory : Memory) {a b : Address} (v : Word) (h : a ≠ b) :
    (memory.set a v).get b = memory.get b := by
  have : a.val ≠ b.val := fun e => h (Fin.ext e)
  simp [get, set, this]

theorem get_empty (a : Address) : empty.get a = 0 := by
  simp [get, empty]

theorem toList_overlay (memory : Memory) {base : Nat} {values : List Word}
    (h : base + values.length ≤ Word.modulus) :
    (memory.overlay base values h).words.toList = memory.words.toList.take base ++
      (values ++ memory.words.toList.drop (base + values.length)) := rfl

theorem getElem?_toList (memory : Memory) (a : Address) :
    memory.words.toList[a.val]? = some (memory.get a) := by
  simp [get]

theorem get_overlay (memory : Memory) {base : Nat} {values : List Word}
    (h : base + values.length ≤ Word.modulus) (a : Address) :
    (memory.overlay base values h).get a =
      if base ≤ a.val then values.getD (a.val - base) (memory.get a) else memory.get a := by
  have ha := a.isLt
  have hlen : (memory.words.toList.take base).length = base := by
    rw [List.length_take, Vector.length_toList]
    omega
  apply Option.some.inj
  rw [← getElem?_toList, toList_overlay]
  split
  · next hb =>
    rw [List.getElem?_append_right (by omega), hlen, List.getD_eq_getElem?_getD]
    by_cases hv : a.val - base < values.length
    · rw [List.getElem?_append_left hv, List.getElem?_eq_getElem hv, Option.getD_some]
    · have hd : base + values.length + (a.val - base - values.length) = a.val := by omega
      rw [List.getElem?_append_right (by omega), List.getElem?_drop, hd, getElem?_toList,
        List.getElem?_eq_none (by omega), Option.getD_none]
  · next hb =>
    rw [List.getElem?_append_left (by omega), List.getElem?_take_of_lt (by omega),
      getElem?_toList]

theorem get_load {memory loaded : Memory} {base : Nat} {image : Image}
    (h : memory.load base image = .ok loaded) (a : Address) : loaded.get a =
      if base ≤ a.val then image.words.getD (a.val - base) (memory.get a) else memory.get a := by
  obtain ⟨hfit, rfl⟩ := load_eq_ok_iff.mp h
  exact get_overlay memory hfit a

/-- Reading by number, which fails from 32768 on. -/
theorem getElem?_words (memory : Memory) (i : Nat) :
    memory.words[i]? = if h : i < Word.modulus then some (memory.get ⟨i, h⟩) else none := by
  split
  · next h => exact Vector.getElem?_eq_getElem h
  · next h => exact Vector.getElem?_eq_none (Nat.le_of_not_lt h)

end Memory

end WordMachine
