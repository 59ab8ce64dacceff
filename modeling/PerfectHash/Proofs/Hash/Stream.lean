import PerfectHash.Hash.Stream
import PerfectHash.Proofs.Hash.Mix
import PerfectHash.Proofs.Word.LittleEndian

set_option autoImplicit false

/-! # What a stream hash keeps

A byte string is absorbed as its words and then as the bytes left over (`absorb_eq`). Strings can
therefore be absorbed one behind the other wherever the first one ends with a word
(`absorb_append`), and also byte by byte as long as no word is filled (`absorb_append_of_lt`).

Absorbing a word or a byte is a permutation of the states, and from one state different words and
different bytes lead to different states. So a difference in one word or in one byte behind the
words is not lost in what follows. The main statement is `absorb_keeps_differences`.
-/

namespace PerfectHash.StreamHash

open LittleEndian

/-! ## One word or byte -/

theorem absorbWord_eq_iff (s s' : StreamHash) (word word' : UInt64) :
    s.absorbWord word = s'.absorbWord word' ↔ s.state ^^^ word = s'.state ^^^ word' := by
  rw [absorbWord, absorbWord, StreamHash.mk.injEq, mix_inj]

theorem absorbWord_inj (s s' : StreamHash) (word : UInt64) :
    s.absorbWord word = s'.absorbWord word ↔ s = s' := by
  rw [absorbWord_eq_iff, UInt64.xor_left_inj, StreamHash.mk.injEq]

theorem absorbWord_right_inj (s : StreamHash) (word word' : UInt64) :
    s.absorbWord word = s.absorbWord word' ↔ word = word' := by
  rw [absorbWord_eq_iff, UInt64.xor_right_inj]

theorem absorbByte_inj (s s' : StreamHash) (byte : UInt8) :
    s.absorbByte byte = s'.absorbByte byte ↔ s = s' :=
  absorbWord_inj s s' _

theorem absorbByte_right_inj (s : StreamHash) (byte byte' : UInt8) :
    s.absorbByte byte = s.absorbByte byte' ↔ byte = byte' := by
  have hgamma : goldenGamma * 0xF1DE83E19937733D = 1 := by decide
  rw [absorbByte, absorbByte, absorbWord_right_inj, mul_inj_of_inverse hgamma,
    UInt8.toUInt64_inj]

/-- A loop whose steps are injective in the state is injective in the state. -/
theorem foldl_inj {α : Type} {step : StreamHash → α → StreamHash}
    (hstep : ∀ s s' x, step s x = step s' x ↔ s = s') (xs : List α) (s s' : StreamHash) :
    xs.foldl step s = xs.foldl step s' ↔ s = s' := by
  induction xs generalizing s s' with
  | nil => exact Iff.rfl
  | cons x xs ih => rw [List.foldl_cons, List.foldl_cons, ih, hstep]

/-! ## Byte strings -/

/-- The words are absorbed first and then the bytes left over. -/
theorem absorb_eq (s : StreamHash) (words : List UInt64) (rest : List UInt8)
    (h : rest.length < 8) :
    s.absorb (words.flatMap wordBytes ++ rest) =
      rest.foldl absorbByte (words.foldl absorbWord s) := by
  have hsplit := (splitWords_eq_iff (words.flatMap wordBytes ++ rest) rest words).mpr ⟨rfl, h⟩
  rw [absorb, hsplit]

theorem absorb_flatMap_wordBytes (s : StreamHash) (words : List UInt64) :
    s.absorb (words.flatMap wordBytes) = words.foldl absorbWord s := by
  have habsorb := absorb_eq s words [] (by decide)
  rwa [List.append_nil] at habsorb

theorem absorb_wordBytes (s : StreamHash) (word : UInt64) :
    s.absorb (wordBytes word) = s.absorbWord word := by
  have habsorb := absorb_flatMap_wordBytes s [word]
  rwa [List.flatMap_singleton] at habsorb

theorem absorb_inj (s s' : StreamHash) (bytes : List UInt8) :
    s.absorb bytes = s'.absorb bytes ↔ s = s' := by
  obtain ⟨words, rest, rfl, hrest⟩ := exists_eq_flatMap_wordBytes bytes
  rw [absorb_eq s words rest hrest, absorb_eq s' words rest hrest, foldl_inj absorbByte_inj,
    foldl_inj absorbWord_inj]

/-- What follows whole words is absorbed by itself. -/
theorem absorb_append (s : StreamHash) (bytes more : List UInt8) (h : 8 ∣ bytes.length) :
    s.absorb (bytes ++ more) = (s.absorb bytes).absorb more := by
  obtain ⟨words, rfl⟩ := (eight_dvd_length_iff bytes).mp h
  obtain ⟨words', rest, rfl, hrest⟩ := exists_eq_flatMap_wordBytes more
  calc s.absorb (words.flatMap wordBytes ++ (words'.flatMap wordBytes ++ rest))
    _ = s.absorb ((words ++ words').flatMap wordBytes ++ rest) := by
        rw [List.flatMap_append, List.append_assoc]
    _ = rest.foldl absorbByte (words'.foldl absorbWord (words.foldl absorbWord s)) := by
        rw [absorb_eq s (words ++ words') rest hrest, List.foldl_append]
    _ = (s.absorb (words.flatMap wordBytes)).absorb (words'.flatMap wordBytes ++ rest) := by
        rw [absorb_flatMap_wordBytes, absorb_eq _ words' rest hrest]

/-- Bytes that do not fill the word that was begun are absorbed singly. -/
theorem absorb_append_of_lt (s : StreamHash) (bytes more : List UInt8)
    (h : bytes.length % 8 + more.length < 8) :
    s.absorb (bytes ++ more) = more.foldl absorbByte (s.absorb bytes) := by
  obtain ⟨words, rest, rfl, hrest⟩ := exists_eq_flatMap_wordBytes bytes
  rw [List.length_append, length_flatMap_wordBytes] at h
  have hshort : (rest ++ more).length < 8 := by
    rw [List.length_append]
    omega
  rw [List.append_assoc, absorb_eq s words (rest ++ more) hshort, absorb_eq s words rest hrest,
    List.foldl_append]

theorem absorb_append_word_append (s : StreamHash) (front back : List UInt8) (word : UInt64)
    (h : 8 ∣ front.length) : s.absorb (front ++ wordBytes word ++ back) =
      ((s.absorb front).absorbWord word).absorb back := by
  have hword : 8 ∣ (wordBytes word).length := ⟨1, length_wordBytes word⟩
  rw [List.append_assoc, absorb_append _ _ _ h, absorb_append _ _ _ hword, absorb_wordBytes]

theorem absorb_append_byte_append (s : StreamHash) (front back : List UInt8) (byte : UInt8)
    (h : front.length % 8 + (back.length + 1) < 8) : s.absorb (front ++ [byte] ++ back) =
      back.foldl absorbByte ((s.absorb front).absorbByte byte) := by
  rw [List.append_assoc, List.singleton_append, absorb_append_of_lt _ _ _ h, List.foldl_cons]

/-! ## Differences -/

/-- Two byte strings of one length that differ, but only at positions among the `width` positions
from `start` on, all of which the strings have. -/
structure DifferWithin (start width : Nat) (bytes bytes' : List UInt8) : Prop where
  length_eq : bytes.length = bytes'.length
  range_le : start + width ≤ bytes.length
  ne : bytes ≠ bytes'
  within : ∀ i, bytes[i]? ≠ bytes'[i]? → start ≤ i ∧ i < start + width

variable {start width : Nat} {bytes bytes' : List UInt8}

theorem eq_three_parts (start width : Nat) (bytes : List UInt8) :
    bytes = bytes.take start ++ (bytes.drop start).take width ++ bytes.drop (start + width) := by
  rw [List.append_assoc, ← List.drop_drop, List.take_append_drop, List.take_append_drop]

theorem DifferWithin.take_eq (h : DifferWithin start width bytes bytes') :
    bytes.take start = bytes'.take start := by
  apply List.ext_getElem?
  intro i
  rw [List.getElem?_take, List.getElem?_take]
  by_cases hi : i < start
  · rw [if_pos hi, if_pos hi]
    refine Classical.byContradiction fun hne => ?_
    exact Nat.not_le_of_lt hi (h.within i hne).1
  · rw [if_neg hi, if_neg hi]

theorem DifferWithin.drop_eq (h : DifferWithin start width bytes bytes') :
    bytes.drop (start + width) = bytes'.drop (start + width) := by
  apply List.ext_getElem?
  intro i
  rw [List.getElem?_drop, List.getElem?_drop]
  refine Classical.byContradiction fun hne => ?_
  have hlt := (h.within _ hne).2
  omega

/-- The strings agree before the range and behind it, and differ in between. -/
theorem differWithin_iff : DifferWithin start width bytes bytes' ↔
    ∃ front middle middle' back, bytes = front ++ middle ++ back ∧
      bytes' = front ++ middle' ++ back ∧ front.length = start ∧ middle.length = width ∧
      middle'.length = width ∧ middle ≠ middle' := by
  constructor
  · intro h
    have hrange := h.range_le
    have hlength := h.length_eq
    have hbytes' := eq_three_parts start width bytes'
    rw [← h.take_eq, ← h.drop_eq] at hbytes'
    refine ⟨_, _, _, _, eq_three_parts start width bytes, hbytes', ?_, ?_, ?_, fun heq => h.ne ?_⟩
    · rw [List.length_take]
      omega
    · rw [List.length_take, List.length_drop]
      omega
    · rw [List.length_take, List.length_drop]
      omega
    · rw [hbytes', ← heq]
      exact eq_three_parts start width bytes
  · rintro ⟨front, middle, middle', back, rfl, rfl, rfl, rfl, hmiddle, hne⟩
    refine ⟨by simp [hmiddle], by simp, by simpa using hne, fun i hi => ?_⟩
    constructor
    · refine Nat.le_of_not_lt fun hlt => hi ?_
      rw [List.append_assoc, List.append_assoc, List.getElem?_append_left hlt,
        List.getElem?_append_left hlt]
    · refine Nat.lt_of_not_le fun hle => hi ?_
      rw [List.getElem?_append_right (by simpa using hle),
        List.getElem?_append_right (by simpa [hmiddle] using hle)]
      simp [hmiddle]

/-- Strings that differ in one of their words lead to different states. -/
theorem absorb_ne_of_word (s : StreamHash) (h : DifferWithin start 8 bytes bytes')
    (hstart : 8 ∣ start) : s.absorb bytes ≠ s.absorb bytes' := by
  obtain ⟨front, middle, middle', back, rfl, rfl, rfl, hmiddle, hmiddle', hne⟩ :=
    differWithin_iff.mp h
  obtain ⟨word, rfl⟩ := exists_eq_wordBytes middle hmiddle
  obtain ⟨word', rfl⟩ := exists_eq_wordBytes middle' hmiddle'
  rw [absorb_append_word_append _ _ _ _ hstart, absorb_append_word_append _ _ _ _ hstart, ne_eq,
    absorb_inj, absorbWord_right_inj]
  rintro rfl
  exact hne rfl

/-- Strings that differ in one of the bytes behind their words lead to different states. -/
theorem absorb_ne_of_byte (s : StreamHash) (h : DifferWithin start 1 bytes bytes')
    (hstart : 8 * (bytes.length / 8) ≤ start) : s.absorb bytes ≠ s.absorb bytes' := by
  obtain ⟨front, middle, middle', back, rfl, rfl, rfl, hmiddle, hmiddle', hne⟩ :=
    differWithin_iff.mp h
  obtain ⟨byte, rfl⟩ := List.length_eq_one_iff.mp hmiddle
  obtain ⟨byte', rfl⟩ := List.length_eq_one_iff.mp hmiddle'
  -- The byte is behind the last whole word, so it and the bytes behind it fill no word.
  have hshort : front.length % 8 + (back.length + 1) < 8 := by
    simp only [List.length_append, List.length_singleton] at hstart
    omega
  rw [absorb_append_byte_append _ _ _ _ hshort, absorb_append_byte_append _ _ _ _ hshort, ne_eq,
    foldl_inj absorbByte_inj, absorbByte_right_inj]
  rintro rfl
  exact hne rfl

/-- The bytes of words leave the state that the words leave, and a string may be cut behind any of
its words. From one state, two strings that differ in one word only, or in one of the bytes behind
their words only, lead to different states, and so do two different words. -/
theorem absorb_keeps_differences (s : StreamHash) :
    (∀ words : List UInt64, s.absorb (words.flatMap wordBytes) = words.foldl absorbWord s) ∧
    (∀ bytes more, 8 ∣ bytes.length →
      s.absorb (bytes ++ more) = (s.absorb bytes).absorb more) ∧
    (∀ bytes bytes' i, DifferWithin (8 * i) 8 bytes bytes' →
      s.absorb bytes ≠ s.absorb bytes') ∧
    (∀ bytes bytes' i, 8 * (bytes.length / 8) ≤ i → DifferWithin i 1 bytes bytes' →
      s.absorb bytes ≠ s.absorb bytes') ∧
    (∀ key key' : Key, (s.absorbWord key).state = (s.absorbWord key').state ↔ key = key') := by
  refine ⟨absorb_flatMap_wordBytes s, absorb_append s, fun bytes bytes' i h => ?_,
    fun bytes bytes' i hi h => absorb_ne_of_byte s h hi, fun key key' => ?_⟩
  · exact absorb_ne_of_word s h (Nat.dvd_mul_right 8 i)
  · rw [← StreamHash.mk.injEq, absorbWord_right_inj]

/-- Two whole words and three bytes, one bit of which is changed in the second word and in the
byte in the middle. -/
theorem absorb_keeps_differences_nineteen :
    ∃ front word word' back back' : List UInt8,
      front = [1, 0, 0, 0, 0, 0, 0, 0] ∧ word = [2, 0, 0, 0, 0, 0, 0, 0] ∧
      word' = [2, 0, 0, 0, 0, 0, 0, 128] ∧ back = [3, 4, 5] ∧ back' = [3, 6, 5] ∧
      8 ∣ (front ++ word).length ∧
      absorb {} (front ++ word ++ back) = (absorb {} (front ++ word)).absorb back ∧
      DifferWithin (8 * 1) 8 (front ++ word ++ back) (front ++ word' ++ back) ∧
      absorb {} (front ++ word ++ back) ≠ absorb {} (front ++ word' ++ back) ∧
      8 * ((front ++ word ++ back).length / 8) ≤ 17 ∧
      DifferWithin 17 1 (front ++ word ++ back) (front ++ word ++ back') ∧
      absorb {} (front ++ word ++ back) ≠ absorb {} (front ++ word ++ back') := by
  obtain ⟨-, happend, hwords, hbytes, -⟩ := absorb_keeps_differences {}
  have hword : DifferWithin (8 * 1) 8
      [1, 0, 0, 0, 0, 0, 0, 0, 2, 0, 0, 0, 0, 0, 0, 0, 3, 4, 5]
      [1, 0, 0, 0, 0, 0, 0, 0, 2, 0, 0, 0, 0, 0, 0, 128, 3, 4, 5] :=
    differWithin_iff.mpr ⟨[1, 0, 0, 0, 0, 0, 0, 0], [2, 0, 0, 0, 0, 0, 0, 0],
      [2, 0, 0, 0, 0, 0, 0, 128], [3, 4, 5], rfl, rfl, rfl, rfl, rfl, by decide⟩
  have hbyte : DifferWithin 17 1
      [1, 0, 0, 0, 0, 0, 0, 0, 2, 0, 0, 0, 0, 0, 0, 0, 3, 4, 5]
      [1, 0, 0, 0, 0, 0, 0, 0, 2, 0, 0, 0, 0, 0, 0, 0, 3, 6, 5] :=
    differWithin_iff.mpr ⟨[1, 0, 0, 0, 0, 0, 0, 0, 2, 0, 0, 0, 0, 0, 0, 0, 3], [4], [6], [5],
      rfl, rfl, rfl, rfl, rfl, by decide⟩
  exact ⟨_, _, _, _, _, rfl, rfl, rfl, rfl, rfl, by decide, happend _ _ (by decide),
    hword, hwords _ _ 1 hword, by decide, hbyte, hbytes _ _ 17 (by decide) hbyte⟩

end PerfectHash.StreamHash
