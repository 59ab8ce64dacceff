import Mathlib.Algebra.Group.Nat.Defs
import PerfectHash.Word.LittleEndian

set_option autoImplicit false

/-! # Little-endian strings and their numbers

A byte string of a fixed width and the number that it writes determine each other: `ofBytes` and
`toBytes` undo each other below `256 ^ width`. A reader takes exactly the bytes of its width
(`readNumber_eq_some_iff`), and a byte string is cut into words in the one way that leaves fewer
than eight bytes over (`splitWords_eq_iff`).
-/

namespace PerfectHash.LittleEndian

theorem toBytes_length (width value : Nat) : (toBytes width value).length = width := by
  induction width generalizing value with
  | zero => rfl
  | succ width ih => simp [toBytes, ih]

theorem ofBytes_lt (bytes : List UInt8) : ofBytes bytes < 256 ^ bytes.length := by
  induction bytes with
  | nil => simp [ofBytes]
  | cons b rest ih =>
      have hb := b.toNat_lt
      simp only [ofBytes, List.length_cons, Nat.pow_succ]
      omega

theorem ofBytes_toBytes (width value : Nat) :
    ofBytes (toBytes width value) = value % 256 ^ width := by
  induction width generalizing value with
  | zero => simp [toBytes, ofBytes, Nat.mod_one]
  | succ width ih =>
      have hb : (UInt8.ofNat value).toNat = value % 256 := by simp
      rw [toBytes, ofBytes, ih, hb, Nat.pow_succ, Nat.mul_comm (256 ^ width) 256,
        Nat.mod_mul]

theorem toBytes_ofBytes (bytes : List UInt8) : toBytes bytes.length (ofBytes bytes) = bytes := by
  induction bytes with
  | nil => rfl
  | cons b rest ih =>
      have hb := b.toNat_lt
      have hdiv : (b.toNat + 256 * ofBytes rest) / 256 = ofBytes rest := by omega
      simp only [List.length_cons, toBytes, ofBytes, hdiv, ih]
      congr 1
      apply UInt8.toNat_inj.mp
      simp

/-- The byte at a position is the digit of the number with the weight of the position. -/
theorem toBytes_getElem? (width value i : Nat) (h : i < width) :
    (toBytes width value)[i]? = some (UInt8.ofNat (value / 256 ^ i)) := by
  induction width generalizing value i with
  | zero => exact absurd h (Nat.not_lt_zero i)
  | succ width ih =>
      cases i with
      | zero => simp [toBytes]
      | succ i =>
          rw [toBytes, List.getElem?_cons_succ, ih _ i (Nat.lt_of_succ_lt_succ h),
            Nat.div_div_eq_div_mul, Nat.pow_succ']

/-- Only the low bytes of a number are written. -/
theorem toBytes_mod (width value : Nat) :
    toBytes width (value % 256 ^ width) = toBytes width value := by
  have hbytes := toBytes_ofBytes (toBytes width value)
  rwa [toBytes_length, ofBytes_toBytes] at hbytes

/-- A number is read off exactly the bytes of its width. -/
theorem readNumber_append (bytes rest : List UInt8) :
    readNumber bytes.length (bytes ++ rest) = some (ofBytes bytes, rest) := by
  induction bytes with
  | nil => rfl
  | cons b bytes ih => simp [readNumber, ofBytes, ih]

theorem readNumber_eq_none_iff (width : Nat) (bytes : List UInt8) :
    readNumber width bytes = none ↔ bytes.length < width := by
  induction width generalizing bytes with
  | zero => simp [readNumber]
  | succ width ih =>
      cases bytes with
      | nil => simp [readNumber]
      | cons b bytes => simp [readNumber, ih]

/-- What is read is what has been written, and only numbers below `256 ^ width` are read. -/
theorem readNumber_eq_some_iff (width value : Nat) (bytes rest : List UInt8) :
    readNumber width bytes = some (value, rest) ↔
      value < 256 ^ width ∧ bytes = toBytes width value ++ rest := by
  constructor
  · intro h
    have hwidth : width ≤ bytes.length := by
      refine Nat.le_of_not_lt fun hshort => ?_
      rw [(readNumber_eq_none_iff width bytes).mpr hshort] at h
      cases h
    have hlength : (bytes.take width).length = width := List.length_take_of_le hwidth
    have hread := readNumber_append (bytes.take width) (bytes.drop width)
    rw [hlength, List.take_append_drop, h] at hread
    cases hread
    have hlt := ofBytes_lt (bytes.take width)
    have hbytes := toBytes_ofBytes (bytes.take width)
    rw [hlength] at hlt hbytes
    exact ⟨hlt, by rw [hbytes, List.take_append_drop]⟩
  · rintro ⟨hlt, rfl⟩
    have hread := readNumber_append (toBytes width value) rest
    rwa [toBytes_length, ofBytes_toBytes, Nat.mod_eq_of_lt hlt] at hread

/-! ## Words -/

theorem length_wordBytes (word : UInt64) : (wordBytes word).length = 8 := toBytes_length 8 _

theorem ofBytes_wordBytes (word : UInt64) : UInt64.ofNat (ofBytes (wordBytes word)) = word := by
  have hlt : word.toNat < 256 ^ 8 := word.toNat_lt
  rw [wordBytes, ofBytes_toBytes, Nat.mod_eq_of_lt hlt, UInt64.ofNat_toNat]

theorem exists_eq_wordBytes (bytes : List UInt8) (h : bytes.length = 8) :
    ∃ word, bytes = wordBytes word := by
  have hlt := ofBytes_lt bytes
  have hbytes := toBytes_ofBytes bytes
  rw [h] at hlt hbytes
  exact ⟨.ofNat (ofBytes bytes), by rw [wordBytes, UInt64.toNat_ofNat_of_lt' hlt, hbytes]⟩

theorem length_flatMap_wordBytes (words : List UInt64) :
    (words.flatMap wordBytes).length = 8 * words.length := by
  induction words with
  | nil => rfl
  | cons word words ih =>
      rw [List.flatMap_cons, List.length_append, length_wordBytes, ih, List.length_cons]
      omega

/-- A word is cut off the front of a byte string. -/
theorem splitWordsFrom_wordBytes (words : Array UInt64) (word : UInt64) (bytes : List UInt8) :
    splitWordsFrom words (wordBytes word ++ bytes) = splitWordsFrom (words.push word) bytes := by
  have hword := ofBytes_wordBytes word
  simp only [wordBytes, toBytes] at hword
  simp only [wordBytes, toBytes, List.cons_append, List.nil_append]
  rw [splitWordsFrom, hword]

theorem splitWordsFrom_of_length_lt (words : Array UInt64) (bytes : List UInt8)
    (h : bytes.length < 8) : splitWordsFrom words bytes = (words, bytes) := by
  rw [splitWordsFrom]
  rintro b₀ b₁ b₂ b₃ b₄ b₅ b₆ b₇ rest rfl
  simp at h
  omega

theorem splitWordsFrom_append (before : Array UInt64) (words : List UInt64) (rest : List UInt8)
    (h : rest.length < 8) :
    splitWordsFrom before (words.flatMap wordBytes ++ rest) = (before ++ words, rest) := by
  induction words generalizing before with
  | nil => simpa using splitWordsFrom_of_length_lt before rest h
  | cons word words ih =>
      rw [List.flatMap_cons, List.append_assoc, splitWordsFrom_wordBytes, ih]
      simp

/-- Every byte string is made up of words and fewer than eight bytes. -/
theorem exists_eq_flatMap_wordBytes (bytes : List UInt8) :
    ∃ (words : List UInt64) (rest : List UInt8),
      bytes = words.flatMap wordBytes ++ rest ∧ rest.length < 8 := by
  induction hcount : bytes.length / 8 generalizing bytes with
  | zero => exact ⟨[], bytes, rfl, by omega⟩
  | succ count ih =>
      obtain ⟨word, hword⟩ := exists_eq_wordBytes (bytes.take 8) (by simp; omega)
      obtain ⟨words, rest, hwords, hrest⟩ := ih (bytes.drop 8) (by simp; omega)
      refine ⟨word :: words, rest, ?_, hrest⟩
      calc bytes
        _ = bytes.take 8 ++ bytes.drop 8 := (List.take_append_drop 8 bytes).symm
        _ = wordBytes word ++ (words.flatMap wordBytes ++ rest) := by rw [hword, hwords]
        _ = (word :: words).flatMap wordBytes ++ rest := by
            rw [List.flatMap_cons, List.append_assoc]

/-- There is one way to cut a byte string into words and fewer than eight bytes. -/
theorem splitWords_eq_iff (bytes rest : List UInt8) (words : List UInt64) :
    splitWords bytes = (words, rest) ↔
      bytes = words.flatMap wordBytes ++ rest ∧ rest.length < 8 := by
  have hsplit : ∀ (words : List UInt64) (rest : List UInt8), rest.length < 8 →
      splitWords (words.flatMap wordBytes ++ rest) = (words, rest) := by
    intro words rest h
    rw [splitWords, splitWordsFrom_append #[] words rest h]
    simp
  constructor
  · intro h
    obtain ⟨words', rest', hbytes, hrest⟩ := exists_eq_flatMap_wordBytes bytes
    rw [hbytes, hsplit words' rest' hrest] at h
    cases h
    exact ⟨hbytes, hrest⟩
  · rintro ⟨rfl, hrest⟩
    exact hsplit words rest hrest

theorem eight_dvd_length_iff (bytes : List UInt8) :
    8 ∣ bytes.length ↔ ∃ words : List UInt64, bytes = words.flatMap wordBytes := by
  constructor
  · intro h
    obtain ⟨words, rest, rfl, hrest⟩ := exists_eq_flatMap_wordBytes bytes
    rw [List.length_append, length_flatMap_wordBytes] at h
    have hnil : rest = [] := List.length_eq_zero_iff.mp (by omega)
    exact ⟨words, by rw [hnil, List.append_nil]⟩
  · rintro ⟨words, rfl⟩
    rw [length_flatMap_wordBytes]
    exact Nat.dvd_mul_right 8 words.length

end PerfectHash.LittleEndian
