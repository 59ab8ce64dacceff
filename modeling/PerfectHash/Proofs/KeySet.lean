import Mathlib.Data.List.Induction
import Mathlib.Data.Set.Function
import PerfectHash.KeySet
import PerfectHash.Proofs.Word.LittleEndian

set_option autoImplicit false

/-! # Key lists and key sets

`checkDistinct` decides whether a list is a key set: it accepts exactly the lists that are not
empty and repeat no key (`checkDistinct_eq_ok_iff`). Any other list is refused for being empty or
for its first repetition (`checkDistinct_eq_error_iff`). Which repetition is the first one is
decided by where the second occurrence of a key is, and not by where the first one is
(`FirstRepeatAt`).

The keys of a list without their repetitions are `keys.eraseDups` (`firstOccurrences_eq`). These
are the keys at the positions that repeat nothing (`eraseDups_eq_filter_zipIdx`), so a list is its
own list of first occurrences exactly when it repeats no key. Lists with the same keys have the
same key set up to its order (`eraseDups_perm_of_mem_iff`). The main statement about the two
programs is `checkDistinct_firstOccurrences`.

A dump is the bytes of its keys, one word after the other. The keys are read from these bytes and
from no others (`keysOfBytes_eq_ok_iff`), and any other string is refused for its length. The main
statement about dumps is `keysOfBytes_exact`.
-/

namespace PerfectHash

theorem firstRepeat_eq_none_iff (seen : Std.HashSet Key) (keys : List Key) :
    firstRepeat seen keys = none ↔ keys.Nodup ∧ ∀ key ∈ keys, key ∉ seen := by
  induction keys generalizing seen with
  | nil => simp [firstRepeat]
  | cons key keys ih =>
      unfold firstRepeat
      by_cases hkey : key ∈ seen
      -- A key of the set is reported, whatever follows it.
      · rw [if_pos hkey]
        constructor
        · intro h
          cases h
        · rintro ⟨-, hall⟩
          exact absurd hkey (hall key (by simp))
      · rw [if_neg hkey, ih, List.nodup_cons]
        simp only [Std.HashSet.mem_insert, beq_iff_eq, not_or, List.mem_cons, forall_eq_or_imp]
        constructor
        · rintro ⟨hnodup, hall⟩
          exact ⟨⟨fun hmem => (hall key hmem).1 rfl, hnodup⟩, hkey,
            fun other hother => (hall other hother).2⟩
        · rintro ⟨⟨hnew, hnodup⟩, -, hall⟩
          refine ⟨hnodup, fun other hother => ⟨?_, hall other hother⟩⟩
          rintro rfl
          exact hnew hother

theorem firstRepeat_empty_eq_none_iff (keys : List Key) :
    firstRepeat ∅ keys = none ↔ keys.Nodup := by
  simp [firstRepeat_eq_none_iff]

theorem checkDistinct_eq_ok (keys : List Key) (hne : keys ≠ []) (hnodup : keys.Nodup) :
    checkDistinct keys = .ok () := by
  unfold checkDistinct
  rw [if_neg (by simpa using hne), (firstRepeat_empty_eq_none_iff keys).mpr hnodup]

theorem checkDistinct_eq_error (keys : List Key) (h : ¬ (keys ≠ [] ∧ keys.Nodup)) :
    (keys = [] ∧ checkDistinct keys = .error .emptyKeySet) ∨
      (¬ keys.Nodup ∧ ∃ key, checkDistinct keys = .error (.duplicateKey key)) := by
  unfold checkDistinct
  by_cases hempty : keys = []
  · subst hempty
    exact .inl ⟨rfl, rfl⟩
  · have hrepeat : ¬ keys.Nodup := fun hnodup => h ⟨hempty, hnodup⟩
    rw [if_neg (by simpa using hempty)]
    cases hfirst : firstRepeat ∅ keys with
    | none => exact absurd ((firstRepeat_empty_eq_none_iff keys).mp hfirst) hrepeat
    | some key => exact .inr ⟨hrepeat, key, rfl⟩

theorem checkDistinct_eq_ok_iff (keys : List Key) :
    checkDistinct keys = .ok () ↔ keys ≠ [] ∧ keys.Nodup := by
  constructor
  · intro h
    refine Classical.byContradiction fun hkeys => ?_
    rcases checkDistinct_eq_error keys hkeys with ⟨-, herror⟩ | ⟨-, key, herror⟩
    · cases h.symm.trans herror
    · cases h.symm.trans herror
  · rintro ⟨hne, hnodup⟩
    exact checkDistinct_eq_ok keys hne hnodup

/-! ## The first repetition -/

def RepeatsAt (keys : List Key) (i : Nat) (key : Key) : Prop :=
  keys[i]? = some key ∧ key ∈ keys.take i

/-- Position `i` is the first one whose key occurs at an earlier position. -/
def FirstRepeatAt (keys : List Key) (i : Nat) (key : Key) : Prop :=
  RepeatsAt keys i key ∧ ∀ j < i, ∀ other, ¬ RepeatsAt keys j other

theorem nodup_take_iff (keys : List Key) (i : Nat) :
    (keys.take i).Nodup ↔ ∀ j < i, ∀ key, ¬ RepeatsAt keys j key := by
  induction i with
  | zero => simp
  | succ i ih =>
      rw [Nat.forall_lt_succ_right, ← ih, List.take_add_one]
      cases hkey : keys[i]? with
      | none => simp [RepeatsAt, hkey]
      | some key =>
          rw [Option.toList_some, (List.perm_append_singleton key _).nodup_iff, List.nodup_cons]
          simp [RepeatsAt, hkey, and_comm]

/-- What is reported is in the set or occurs before, and nothing in front of it does. -/
theorem firstRepeat_eq_some_iff (seen : Std.HashSet Key) (keys : List Key) (key : Key) :
    firstRepeat seen keys = some key ↔ ∃ i, keys[i]? = some key ∧
      (key ∈ seen ∨ key ∈ keys.take i) ∧ firstRepeat seen (keys.take i) = none := by
  induction keys generalizing seen with
  | nil => simp [firstRepeat]
  | cons head keys ih =>
      by_cases hhead : head ∈ seen
      · rw [firstRepeat, if_pos hhead]
        constructor
        · intro h
          obtain rfl := Option.some.inj h
          exact ⟨0, rfl, .inl hhead, rfl⟩
        · rintro ⟨i, hkey, -, hnone⟩
          cases i with
          | zero => exact hkey
          | succ i =>
              rw [List.take_succ_cons, firstRepeat, if_pos hhead] at hnone
              cases hnone
      -- The keys behind the first one are compared with it through the set.
      · have hmem : ∀ i, (key ∈ seen ∨ key ∈ head :: keys.take i) ↔
            (key ∈ seen.insert head ∨ key ∈ keys.take i) := by
          intro i
          rw [List.mem_cons, Std.HashSet.mem_insert, beq_iff_eq, eq_comm, or_left_comm, or_assoc]
        rw [firstRepeat, if_neg hhead, ih]
        constructor
        · rintro ⟨i, hkey, hrepeat, hnone⟩
          refine ⟨i + 1, hkey, (hmem i).mpr hrepeat, ?_⟩
          rw [List.take_succ_cons, firstRepeat, if_neg hhead, hnone]
        · rintro ⟨i, hkey, hrepeat, hnone⟩
          cases i with
          | zero =>
              obtain rfl : head = key := Option.some.inj hkey
              exact absurd hrepeat (by simpa using hhead)
          | succ i =>
              rw [List.take_succ_cons, firstRepeat, if_neg hhead] at hnone
              exact ⟨i, hkey, (hmem i).mp hrepeat, hnone⟩

theorem firstRepeat_empty_eq_some_iff (keys : List Key) (key : Key) :
    firstRepeat ∅ keys = some key ↔ ∃ i, FirstRepeatAt keys i key := by
  rw [firstRepeat_eq_some_iff]
  apply exists_congr
  intro i
  rw [FirstRepeatAt, ← nodup_take_iff, RepeatsAt, and_assoc, firstRepeat_empty_eq_none_iff]
  simp

theorem nodup_iff_not_firstRepeatAt (keys : List Key) :
    keys.Nodup ↔ ∀ i key, ¬ FirstRepeatAt keys i key := by
  rw [← firstRepeat_empty_eq_none_iff, Option.eq_none_iff_forall_ne_some]
  simp only [ne_eq, firstRepeat_empty_eq_some_iff, not_exists]
  exact forall_comm

/-- A list is refused if it is empty, and otherwise for its first repetition. -/
theorem checkDistinct_eq_error_iff (keys : List Key) (failure : Failure) :
    checkDistinct keys = .error failure ↔
      (keys = [] ∧ failure = .emptyKeySet) ∨
        ∃ i key, FirstRepeatAt keys i key ∧ failure = .duplicateKey key := by
  have hrepeat : (∃ i key, FirstRepeatAt keys i key ∧ failure = .duplicateKey key) ↔
      ∃ key, firstRepeat ∅ keys = some key ∧ failure = .duplicateKey key := by
    simp only [firstRepeat_empty_eq_some_iff, ← exists_and_right]
    exact exists_comm
  rw [hrepeat]
  by_cases hempty : keys = []
  · subst hempty
    simp [checkDistinct, firstRepeat, eq_comm]
  · rw [checkDistinct, if_neg (by simpa using hempty)]
    cases firstRepeat ∅ keys <;> simp [hempty, eq_comm]

/-! ## First occurrences -/

/-- The keys that are added are the first occurrences of those not seen before. -/
theorem toList_collectFirst (seen : Std.HashSet Key) (kept : Array Key) (keys : List Key) :
    (collectFirst seen kept keys).toList =
      kept.toList ++ (keys.filter fun key => key ∉ seen).eraseDups := by
  induction keys generalizing seen kept with
  | nil => simp [collectFirst]
  | cons key keys ih =>
      unfold collectFirst
      by_cases hkey : key ∈ seen
      · rw [if_pos hkey, ih, List.filter_cons_of_neg (by simpa using hkey)]
      · have hlater : (keys.filter fun other => other ∉ seen.insert key) =
            (keys.filter fun other => other ∉ seen).filter fun other => !other == key := by
          rw [List.filter_filter]
          apply List.filter_congr
          intro other _
          rw [Bool.eq_iff_iff, decide_eq_true_eq, Std.HashSet.mem_insert, beq_iff_eq, not_or,
            Bool.and_eq_true, Bool.not_eq_true', beq_eq_false_iff_ne, decide_eq_true_eq,
            ← ne_eq, ne_comm]
        rw [if_neg hkey, ih, hlater, List.filter_cons_of_pos (by simpa using hkey),
          List.eraseDups_cons, Array.toList_push, List.append_assoc, List.singleton_append]

theorem firstOccurrences_eq (keys : List Key) : firstOccurrences keys = keys.eraseDups := by
  have hall : (keys.filter fun key => key ∉ (∅ : Std.HashSet Key)) = keys :=
    List.filter_eq_self.mpr fun key _ => decide_eq_true Std.HashSet.not_mem_empty
  rw [firstOccurrences, toList_collectFirst, hall, List.nil_append]

theorem nodup_eraseDups (keys : List Key) : keys.eraseDups.Nodup := by
  match keys with
  | [] => exact .nil
  | key :: keys =>
      -- Fewer keys are left when the first one is dropped wherever it occurs.
      have hshorter := List.length_filter_le (fun other => !other == key) keys
      have hnodup := nodup_eraseDups (keys.filter fun other => !other == key)
      rw [List.eraseDups_cons, List.nodup_cons, List.mem_eraseDups]
      exact ⟨by simp, hnodup⟩
termination_by keys.length
decreasing_by
  rw [List.length_cons]
  omega

/-- A further key is left out when it is there already. -/
theorem eraseDups_concat (keys : List Key) (key : Key) :
    (keys ++ [key]).eraseDups = keys.eraseDups ++ if key ∈ keys then [] else [key] := by
  rw [List.eraseDups_append]
  by_cases hkey : key ∈ keys <;> simp [List.removeAll, hkey, List.eraseDups_cons]

/-- The first occurrences are the positions whose key does not occur before. -/
theorem eraseDups_eq_filter_zipIdx (keys : List Key) :
    keys.eraseDups = (keys.zipIdx.filter fun (key, i) => key ∉ keys.take i).map Prod.fst := by
  induction keys using List.reverseRecOn with
  | nil => rfl
  | append_singleton keys key ih =>
      -- The last key is before none of the other positions.
      have hfront : (keys.zipIdx.filter fun (other, i) => other ∉ (keys ++ [key]).take i) =
          keys.zipIdx.filter fun (other, i) => other ∉ keys.take i := by
        apply List.filter_congr
        rintro ⟨other, i⟩ hmem
        have hi : i < keys.length := (List.getElem?_eq_some_iff.mp
          (List.mem_zipIdx_iff_getElem?.mp hmem)).1
        simp only [List.take_append_of_le_length (Nat.le_of_lt hi)]
      rw [eraseDups_concat, ih, List.zipIdx_append, List.filter_append, hfront, List.map_append]
      by_cases hkey : key ∈ keys <;> simp [hkey]

theorem eraseDups_sublist (keys : List Key) : keys.eraseDups.Sublist keys :=
  calc keys.eraseDups
    _ = (keys.zipIdx.filter fun (key, i) => key ∉ keys.take i).map Prod.fst :=
        eraseDups_eq_filter_zipIdx keys
    List.Sublist _ (keys.zipIdx.map Prod.fst) := List.filter_sublist.map _
    _ = keys := by rw [List.zipIdx_map_fst]

theorem eraseDups_filter (p : Key → Bool) (keys : List Key) :
    (keys.filter p).eraseDups = keys.eraseDups.filter p := by
  induction keys using List.reverseRecOn with
  | nil => rfl
  | append_singleton keys key ih =>
      rw [List.filter_append, eraseDups_concat, List.filter_append, ← ih]
      by_cases hp : p key
      · rw [List.filter_cons_of_pos hp, List.filter_nil, eraseDups_concat]
        by_cases hkey : key ∈ keys <;> simp [hkey, hp]
      · by_cases hkey : key ∈ keys <;> simp [hkey, hp]

/-- Behind the first occurrences of a list come those of the second list that are new. -/
theorem eraseDups_append_eq_filter (keys more : List Key) : (keys ++ more).eraseDups =
    keys.eraseDups ++ more.eraseDups.filter fun key => key ∉ keys := by
  rw [List.eraseDups_append, List.removeAll, eraseDups_filter]
  simp

theorem eraseDups_eq_self_iff (keys : List Key) : keys.eraseDups = keys ↔ keys.Nodup := by
  constructor
  · intro h
    exact h ▸ nodup_eraseDups keys
  · intro h
    induction keys using List.reverseRecOn with
    | nil => rfl
    | append_singleton keys key ih =>
        obtain ⟨hnodup, -, hdisjoint⟩ := List.nodup_append.mp h
        have hnew : key ∉ keys := fun hkey => hdisjoint key hkey key (by simp) rfl
        rw [eraseDups_concat, ih hnodup, if_neg hnew]

theorem eraseDups_ne_nil {keys : List Key} (h : keys ≠ []) : keys.eraseDups ≠ [] := by
  obtain ⟨key, hkey⟩ := List.exists_mem_of_ne_nil keys h
  exact List.ne_nil_of_mem (List.mem_eraseDups.mpr hkey)

/-- The key set of a list depends on the keys of the list only, up to its order. -/
theorem eraseDups_perm_of_mem_iff (keys keys' : List Key) (h : ∀ key, key ∈ keys ↔ key ∈ keys') :
    keys.eraseDups.Perm keys'.eraseDups := by
  rw [List.perm_ext_iff_of_nodup (nodup_eraseDups keys) (nodup_eraseDups keys')]
  intro key
  rw [List.mem_eraseDups, List.mem_eraseDups, h]

/-- The test of a list and its first occurrences agree. A list is refused for being empty, and
otherwise for the first position whose key occurs before it. The first occurrences are the
positions whose key does not, in their order. They have all keys of the list and repeat none, and
those of two lists one behind the other are the ones of the first list and then the new ones of the
second. So a list that is not empty is accepted when it is its own list of first occurrences, and
that list is always accepted. -/
theorem checkDistinct_firstOccurrences (keys : List Key) :
    (∀ failure, checkDistinct keys = .error failure ↔
      (keys = [] ∧ failure = .emptyKeySet) ∨
        ∃ i key, FirstRepeatAt keys i key ∧ failure = .duplicateKey key) ∧
    (checkDistinct keys = .ok () ↔ keys ≠ [] ∧ ∀ i key, ¬ FirstRepeatAt keys i key) ∧
    firstOccurrences keys =
      (keys.zipIdx.filter fun (key, i) => key ∉ keys.take i).map Prod.fst ∧
    (firstOccurrences keys).Sublist keys ∧ (firstOccurrences keys).Nodup ∧
    (∀ key, key ∈ firstOccurrences keys ↔ key ∈ keys) ∧
    firstOccurrences (firstOccurrences keys) = firstOccurrences keys ∧
    (∀ more, firstOccurrences (keys ++ more) =
      firstOccurrences keys ++ (firstOccurrences more).filter fun key => key ∉ keys) ∧
    (keys ≠ [] → (checkDistinct keys = .ok () ↔ firstOccurrences keys = keys) ∧
      checkDistinct (firstOccurrences keys) = .ok ()) := by
  have hnodup := nodup_eraseDups keys
  simp only [firstOccurrences_eq]
  refine ⟨checkDistinct_eq_error_iff keys, ?_, eraseDups_eq_filter_zipIdx keys,
    eraseDups_sublist keys, hnodup, fun key => List.mem_eraseDups,
    (eraseDups_eq_self_iff _).mpr hnodup, fun more => ?_, fun hne => ⟨?_, ?_⟩⟩
  · rw [checkDistinct_eq_ok_iff, nodup_iff_not_firstRepeatAt]
  · exact eraseDups_append_eq_filter keys more
  · rw [checkDistinct_eq_ok_iff, eraseDups_eq_self_iff, and_iff_right hne]
  · exact checkDistinct_eq_ok _ (eraseDups_ne_nil hne) hnodup

/-- The key `2` is the first one to come back, although `1` comes before it. -/
theorem checkDistinct_firstOccurrences_five :
    ([1, 2, 3, 2, 1] : List Key) ≠ [] ∧
      checkDistinct [1, 2, 3, 2, 1] = .error (.duplicateKey 2) ∧
      firstOccurrences [1, 2, 3, 2, 1] = [1, 2, 3] ∧
      checkDistinct [1, 2, 3, 2, 1] ≠ .ok () ∧ checkDistinct [1, 2, 3] = .ok () := by
  have hne : ([1, 2, 3, 2, 1] : List Key) ≠ [] := by decide
  obtain ⟨hrefused, -, hfirst, -, -, -, -, -, hagree⟩ :=
    checkDistinct_firstOccurrences [1, 2, 3, 2, 1]
  have hkept : firstOccurrences [1, 2, 3, 2, 1] = [1, 2, 3] := hfirst.trans (by decide)
  obtain ⟨haccepted, hsub⟩ := hagree hne
  have hrepeat : FirstRepeatAt [1, 2, 3, 2, 1] 3 2 :=
    ⟨⟨rfl, by decide⟩, (nodup_take_iff _ _).mp (by decide)⟩
  rw [hkept] at haccepted hsub
  exact ⟨hne, (hrefused _).mpr (.inr ⟨3, 2, hrepeat, rfl⟩), hkept,
    fun hok => absurd (haccepted.mp hok) (by decide), hsub⟩

/-! ## Dumps -/

open LittleEndian

theorem keysOfBytes_flatMap (keys : List Key) :
    keysOfBytes (keys.flatMap wordBytes) = .ok keys := by
  have hsplit : splitWords (keys.flatMap wordBytes) = (keys, []) :=
    (splitWords_eq_iff _ [] keys).mpr ⟨(List.append_nil _).symm, by simp⟩
  rw [keysOfBytes, hsplit]
  rfl

theorem keysOfBytes_of_not_dvd (bytes : List UInt8) (h : ¬ 8 ∣ bytes.length) :
    keysOfBytes bytes = .error (.truncatedDump bytes.length) := by
  obtain ⟨keys, rest, hbytes, hrest⟩ := exists_eq_flatMap_wordBytes bytes
  have hsplit := (splitWords_eq_iff bytes rest keys).mpr ⟨hbytes, hrest⟩
  have hne : rest ≠ [] := by
    rintro rfl
    rw [List.append_nil] at hbytes
    exact h ((eight_dvd_length_iff bytes).mpr ⟨keys, hbytes⟩)
  rw [keysOfBytes, hsplit]
  exact if_neg (by simpa using hne)

/-- The keys that are read are the ones whose bytes the dump consists of. -/
theorem keysOfBytes_eq_ok_iff (bytes : List UInt8) (keys : List Key) :
    keysOfBytes bytes = .ok keys ↔ bytes = keys.flatMap wordBytes := by
  constructor
  · intro h
    by_cases hwhole : 8 ∣ bytes.length
    · obtain ⟨words, rfl⟩ := (eight_dvd_length_iff bytes).mp hwhole
      rw [keysOfBytes_flatMap] at h
      rw [Except.ok.inj h]
    · rw [keysOfBytes_of_not_dvd bytes hwhole] at h
      cases h
  · rintro rfl
    exact keysOfBytes_flatMap keys

theorem keysOfBytes_eq_error_iff (bytes : List UInt8) (failure : Failure) :
    keysOfBytes bytes = .error failure ↔
      ¬ 8 ∣ bytes.length ∧ failure = .truncatedDump bytes.length := by
  by_cases hwhole : 8 ∣ bytes.length
  · obtain ⟨words, rfl⟩ := (eight_dvd_length_iff bytes).mp hwhole
    rw [keysOfBytes_flatMap]
    exact iff_of_false (by simp) fun h => h.1 hwhole
  · simp [keysOfBytes_of_not_dvd bytes hwhole, hwhole, eq_comm]

/-- The dumps of `count` words are in bijection with the lists of `count` keys. -/
theorem keysOfBytes_bijOn (count : Nat) :
    Set.BijOn keysOfBytes {bytes | bytes.length = 8 * count}
      (Except.ok '' {keys : List Key | keys.length = count}) := by
  have hdump : ∀ bytes : List UInt8, bytes.length = 8 * count →
      ∃ keys : List Key, keys.length = count ∧ bytes = keys.flatMap wordBytes := by
    intro bytes hlength
    obtain ⟨keys, rfl⟩ := (eight_dvd_length_iff bytes).mp ⟨count, hlength⟩
    rw [length_flatMap_wordBytes] at hlength
    exact ⟨keys, by omega, rfl⟩
  refine ⟨fun bytes hbytes => ?_, fun bytes hbytes bytes' hbytes' heq => ?_, ?_⟩
  · obtain ⟨keys, hkeys, rfl⟩ := hdump bytes hbytes
    exact ⟨keys, hkeys, (keysOfBytes_flatMap keys).symm⟩
  · obtain ⟨keys, -, rfl⟩ := hdump bytes hbytes
    rw [keysOfBytes_flatMap] at heq
    exact ((keysOfBytes_eq_ok_iff bytes' keys).mp heq.symm).symm
  · rintro _ ⟨keys, hkeys, rfl⟩
    refine ⟨keys.flatMap wordBytes, ?_, keysOfBytes_flatMap keys⟩
    show (keys.flatMap wordBytes).length = 8 * count
    rw [length_flatMap_wordBytes, hkeys]

theorem keysOfBytes_append (bytes more : List UInt8) (h : 8 ∣ bytes.length)
    (hmore : 8 ∣ more.length) :
    ∃ keys keys', keysOfBytes bytes = .ok keys ∧ keysOfBytes more = .ok keys' ∧
      keysOfBytes (bytes ++ more) = .ok (keys ++ keys') := by
  obtain ⟨keys, rfl⟩ := (eight_dvd_length_iff bytes).mp h
  obtain ⟨keys', rfl⟩ := (eight_dvd_length_iff more).mp hmore
  refine ⟨keys, keys', keysOfBytes_flatMap keys, keysOfBytes_flatMap keys', ?_⟩
  rw [← List.flatMap_append, keysOfBytes_flatMap]

/-- Reading a dump is the inverse of writing the eight bytes of each key, the one of weight
`256 ^ i` at position `i`. Keys are read exactly from the bytes that they are written to, and a
dump is refused, with its length, exactly if that is not divisible by eight. So the dumps of
`8 * count` bytes are in bijection with the lists of `count` keys, and of two dumps one behind the
other the keys are those of the first and then those of the second. -/
theorem keysOfBytes_exact :
    (∀ (key : Key) (i : Nat), i < 8 →
      (wordBytes key)[i]? = some (UInt8.ofNat (key.toNat / 256 ^ i))) ∧
    (∀ key : Key, (wordBytes key).length = 8) ∧
    (∀ bytes keys, keysOfBytes bytes = .ok keys ↔ bytes = keys.flatMap wordBytes) ∧
    (∀ bytes failure, keysOfBytes bytes = .error failure ↔
      ¬ 8 ∣ bytes.length ∧ failure = .truncatedDump bytes.length) ∧
    (∀ count, Set.BijOn keysOfBytes {bytes | bytes.length = 8 * count}
      (Except.ok '' {keys : List Key | keys.length = count})) ∧
    (∀ bytes more : List UInt8, 8 ∣ bytes.length → 8 ∣ more.length →
      ∃ keys keys', keysOfBytes bytes = .ok keys ∧ keysOfBytes more = .ok keys' ∧
        keysOfBytes (bytes ++ more) = .ok (keys ++ keys')) :=
  ⟨fun key i hi => toBytes_getElem? 8 key.toNat i hi, length_wordBytes, keysOfBytes_eq_ok_iff,
    keysOfBytes_eq_error_iff, keysOfBytes_bijOn, keysOfBytes_append⟩

/-- A page address and a small key, the same dump cut short by a byte, and the two keys read one
by one. -/
theorem keysOfBytes_exact_two :
    ∃ page small : List UInt8,
      page = [0x00, 0x40, 0x00, 0x00, 0x01, 0x00, 0x00, 0x00] ∧
      small = [42, 0, 0, 0, 0, 0, 0, 0] ∧ 8 ∣ page.length ∧ 8 ∣ small.length ∧ 4 < 8 ∧
      (wordBytes 0x100004000)[4]? = some 1 ∧
      keysOfBytes (page ++ small) = .ok [0x100004000, 42] ∧
      keysOfBytes (page ++ small.take 7) = .error (.truncatedDump 15) ∧
      ∃ keys keys', keysOfBytes page = .ok keys ∧ keysOfBytes small = .ok keys' ∧
        keysOfBytes (page ++ small) = .ok (keys ++ keys') := by
  obtain ⟨hbyte, -, hok, herror, -, happend⟩ := keysOfBytes_exact
  exact ⟨_, _, rfl, rfl, by decide, by decide, by decide, hbyte _ 4 (by decide),
    (hok _ _).mpr rfl, (herror _ _).mpr ⟨by decide, rfl⟩, happend _ _ (by decide) (by decide)⟩

end PerfectHash
