import WordMachine.Word

/-!
# Program images

An image is a sequence of words. As bytes, each word is its low byte followed by its high byte.
Reading the bytes of an image gives the image back (`Image.ofBytes_toBytes`).
-/

namespace WordMachine

structure Image where
  words : List Word
  deriving DecidableEq, Repr

namespace Image

def size (image : Image) : Nat := image.words.length

def isEmpty (image : Image) : Bool := image.words.isEmpty

/-- The word with this low and this high byte. -/
def wordOfBytes (low high : UInt8) : Word := UInt16.ofNat (low.toNat + 256 * high.toNat)

/-- A single byte left at the end is the low byte of a last word. -/
def wordsOfBytes : List UInt8 → List Word
  | low :: high :: rest => wordOfBytes low high :: wordsOfBytes rest
  | [low] => [wordOfBytes low 0]
  | [] => []

def ofBytes (bytes : List UInt8) : Image := ⟨wordsOfBytes bytes⟩

def bytesOfWord (word : Word) : List UInt8 :=
  [UInt8.ofNat (word.toNat % 256), UInt8.ofNat (word.toNat / 256)]

def toBytes (image : Image) : List UInt8 := image.words.flatMap bytesOfWord

theorem ofBytes_toBytes (image : Image) : ofBytes image.toBytes = image := by
  have h : ∀ words : List Word, wordsOfBytes (words.flatMap bytesOfWord) = words := by
    intro words
    induction words with
    | nil => rfl
    | cons w rest ih =>
      simp only [List.flatMap_cons, bytesOfWord, List.cons_append, List.nil_append, wordsOfBytes,
        ih, List.cons.injEq, and_true]
      apply UInt16.toNat_inj.mp
      have := w.toNat_lt
      simp only [wordOfBytes, UInt16.toNat_ofNat', UInt8.toNat_ofNat']
      omega
  cases image
  simp only [ofBytes, toBytes, h]

end Image

end WordMachine
