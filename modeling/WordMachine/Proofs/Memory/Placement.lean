import WordMachine.Memory

/-!
# Images in memory

Reading an image from bytes and writing it to bytes undo each other, but for a byte that completes the
last word. An image that is read from as many bytes as memory holds, or fewer, can be loaded, and then
each byte is found in the cell where it belongs (`image_placed`).
-/

namespace WordMachine.Image

theorem toNat_wordOfBytes (low high : UInt8) :
    (wordOfBytes low high).toNat = low.toNat + 256 * high.toNat := by
  have hlow := low.toNat_lt
  have hhigh := high.toNat_lt
  rw [wordOfBytes, UInt16.toNat_ofNat', Nat.mod_eq_of_lt (by omega)]

theorem bytesOfWord_wordOfBytes (low high : UInt8) : bytesOfWord (wordOfBytes low high) = [low, high] := by
  have hlow := low.toNat_lt
  have hmod : (low.toNat + 256 * high.toNat) % 256 = low.toNat := by omega
  have hdiv : (low.toNat + 256 * high.toNat) / 256 = high.toNat := by omega
  simp [bytesOfWord, toNat_wordOfBytes, hmod, hdiv]

theorem length_wordsOfBytes (bytes : List UInt8) : (wordsOfBytes bytes).length = (bytes.length + 1) / 2 := by
  induction bytes using wordsOfBytes.induct with
  | case1 low high rest ih =>
    simp only [wordsOfBytes, List.length_cons, ih]
    omega
  | case2 low => simp [wordsOfBytes]
  | case3 => rfl

theorem toBytes_ofBytes (bytes : List UInt8) :
    (ofBytes bytes).toBytes = if bytes.length % 2 = 0 then bytes else bytes ++ [0] := by
  unfold ofBytes toBytes
  induction bytes using wordsOfBytes.induct with
  | case1 low high rest ih =>
    simp only [wordsOfBytes, List.flatMap_cons, bytesOfWord_wordOfBytes, ih, List.length_cons, Nat.add_assoc,
      Nat.add_mod_right]
    split <;> rfl
  | case2 low => simp [wordsOfBytes, bytesOfWord_wordOfBytes]
  | case3 => rfl

/-- Behind the last byte are zeros. -/
theorem getD_wordsOfBytes (bytes : List UInt8) (i : Nat) :
    (wordsOfBytes bytes).getD i 0 = wordOfBytes (bytes.getD (2 * i) 0) (bytes.getD (2 * i + 1) 0) := by
  induction bytes using wordsOfBytes.induct generalizing i with
  | case1 low high rest ih =>
    cases i with
    | zero => rfl
    | succ i => exact ih i
  | case2 low => cases i <;> rfl
  | case3 => rfl

theorem size_ofBytes (bytes : List UInt8) : (ofBytes bytes).size = (bytes.length + 1) / 2 :=
  length_wordsOfBytes bytes

end WordMachine.Image

namespace WordMachine.Memory

/-- The cells that the image reaches hold its words, and the others hold zeros. -/
theorem get_of_ofImage {image : Image} {memory : Memory} (h : ofImage image = .ok memory) (a : Address) :
    memory.get a = image.words.getD a.val 0 := by
  rw [get_load h, if_pos (Nat.zero_le _), get_empty, Nat.sub_zero]

theorem getElem?_of_ofImage {image : Image} {memory : Memory} (h : ofImage image = .ok memory) {a : Nat}
    (ha : a < image.size) : memory.words[a]? = image.words[a]? := by
  obtain ⟨hfit, _⟩ := load_eq_ok_iff.mp h
  have hget : image.words[a]? = some image.words[a] := List.getElem?_eq_getElem ha
  rw [getElem?_words, dif_pos (by omega), get_of_ofImage h, List.getD_eq_getElem?_getD, hget,
    Option.getD_some]

theorem exists_ofImage_iff (image : Image) : (∃ memory, ofImage image = .ok memory) ↔ image.size ≤ 32768 := by
  refine ⟨?_, ?_⟩
  · rintro ⟨memory, h⟩
    obtain ⟨hfit, _⟩ := load_eq_ok_iff.mp h
    rwa [Nat.zero_add] at hfit
  · intro hfit
    rw [← Nat.zero_add image.size] at hfit
    exact ⟨_, load_of_le empty hfit⟩

/-- Images are read from the bytes that they are written to, and bytes are written from the image read from
them, with a zero behind them if their number is odd. Up to 65536 bytes can be loaded as an image. The
cells then hold two bytes each, the low one first, and zeros where there are no more. -/
theorem image_placed :
    (∀ image : Image, .ofBytes image.toBytes = image) ∧
    ∀ bytes : List UInt8,
      (bytes.length % 2 = 0 → (Image.ofBytes bytes).toBytes = bytes) ∧
      (bytes.length % 2 = 1 → (Image.ofBytes bytes).toBytes = bytes ++ [0]) ∧
      ((∃ memory, ofImage (.ofBytes bytes) = .ok memory) ↔ bytes.length ≤ 65536) ∧
      ∀ memory, ofImage (.ofBytes bytes) = .ok memory → ∀ i (h : i < 32768),
        (memory.get ⟨i, h⟩).toNat =
          (bytes.getD (2 * i) 0).toNat + 256 * (bytes.getD (2 * i + 1) 0).toNat := by
  refine ⟨Image.ofBytes_toBytes, fun bytes => ⟨?_, ?_, ?_, ?_⟩⟩
  · intro heven
    rw [Image.toBytes_ofBytes, if_pos heven]
  · intro hodd
    rw [Image.toBytes_ofBytes, if_neg (by omega)]
  · rw [exists_ofImage_iff, Image.size_ofBytes]
    omega
  · intro memory h i hi
    rw [get_of_ofImage h, Image.ofBytes, Image.getD_wordsOfBytes, Image.toNat_wordOfBytes]

theorem image_placed_odd :
    (∃ memory, ofImage (.ofBytes [19, 1, 65]) = .ok memory ∧ (memory.get ⟨0, by decide⟩).toNat = 275 ∧
      (memory.get ⟨1, by decide⟩).toNat = 65 ∧ (memory.get ⟨2, by decide⟩).toNat = 0) ∧
    (Image.ofBytes [19, 1, 65]).toBytes = [19, 1, 65, 0] ∧
    (∃ memory, ofImage (.ofBytes (List.replicate 65535 7)) = .ok memory) ∧
    ¬ ∃ memory, ofImage (.ofBytes (List.replicate 65537 7)) = .ok memory := by
  obtain ⟨_, hodd, hfits, hcells⟩ := image_placed.2 [19, 1, 65]
  obtain ⟨memory, h⟩ := hfits.mpr (by decide)
  have hlarge : ∀ n, (∃ memory, ofImage (.ofBytes (List.replicate n 7)) = .ok memory) ↔ n ≤ 65536 := by
    intro n
    rw [(image_placed.2 _).2.2.1, List.length_replicate]
  refine ⟨⟨memory, h, hcells memory h 0 (by decide), hcells memory h 1 (by decide),
    hcells memory h 2 (by decide)⟩, hodd rfl, (hlarge 65535).mpr (by decide), ?_⟩
  rw [hlarge]
  decide

end WordMachine.Memory
