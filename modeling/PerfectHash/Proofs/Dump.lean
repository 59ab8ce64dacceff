import Mathlib.Data.Finset.Card
import PerfectHash.Dump
import PerfectHash.Hash.Families
import PerfectHash.Proofs.Build.Bound
import PerfectHash.Proofs.Build.Reorder

set_option autoImplicit false

/-! # Dumps are decided by their key sets

The keys of a dump may come in any order and any number of times. The build gets their first
occurrences, and these differ between two dumps of one key set by their order only, which a build
does not depend on. So the table and the report are functions of the key set (`load_eq`).

The lookups of the keys give every slot once. The checksum is therefore the exclusive or of all
slots, whichever key has which, and it tells nothing but the number of the keys. The main
statement is `load_exact`.
-/

namespace PerfectHash.Dump

open LittleEndian

variable {H : HashFamily}

/-! ## The checksum -/

def xorOf (slots : List Nat) : UInt64 := (slots.map UInt64.ofNat).foldl (· ^^^ ·) 0

theorem xorOf_perm {slots slots' : List Nat} (h : slots.Perm slots') :
    xorOf slots = xorOf slots' :=
  (h.map UInt64.ofNat).foldl_eq 0

theorem foldlM_addSlot (t : Table H) (keys : List Key) (slots : List Nat) (sum : UInt64)
    (h : keys.map t.lookup = slots.map fun slot => .ok (some slot)) :
    keys.foldlM (addSlot t) sum = .ok ((slots.map UInt64.ofNat).foldl (· ^^^ ·) sum) := by
  induction keys generalizing slots sum with
  | nil =>
      obtain rfl : slots = [] := List.map_eq_nil_iff.mp h.symm
      rfl
  | cons key keys ih =>
      match slots with
      | [] => cases h
      | slot :: slots =>
          obtain ⟨hslot, hslots⟩ := List.cons_eq_cons.mp h
          have hadd : addSlot t sum key = .ok (sum ^^^ .ofNat slot) := by
            rw [addSlot, hslot]
            rfl
          rw [List.foldlM_cons, hadd]
          exact ih slots _ hslots

/-- Over a bijection the checksum is that of all slots. -/
theorem checksumOf_eq (t : Table H) (keys : List Key) (h : t.IsBijectionOn keys) :
    checksumOf t keys = .ok (xorOf (List.range keys.length)) := by
  obtain ⟨slots, hslots⟩ := h.exists_sendsApart
  calc checksumOf t keys
    _ = .ok (xorOf slots) := foldlM_addSlot t keys slots 0 hslots.lookup_eq
    _ = .ok (xorOf (List.range keys.length)) := by
        rw [xorOf_perm (h.perm_range hslots.lookup_eq), h.length_eq]

/-! ## Loading -/

/-- A dump of the words with the result of a build for their key set. -/
def ofBuild (words : List Key) (result : Table H × BuildReport) : Dump H where
  loaded := words.length
  unique := words.eraseDups
  table := result.1
  report := result.2
  checksum := xorOf (List.range words.eraseDups.length)

theorem length_eraseDups (words : List Key) : words.eraseDups.length = words.toFinset.card := by
  have hsame : words.eraseDups.toFinset = words.toFinset := by
    ext key
    rw [List.mem_toFinset, List.mem_toFinset, List.mem_eraseDups]
  rw [← hsame, List.toFinset_card_of_nodup (nodup_eraseDups words)]

theorem buildWithReport_eraseDups_cases (words : List Key) (hne : words ≠ []) :
    (∃ t report, Table.buildWithReport H {} words.eraseDups = .ok (t, report) ∧
        t.IsBijectionOn words.eraseDups) ∨
      ∃ b size, Table.buildWithReport H {} words.eraseDups =
        .error (.noFittingSalt b size 4096) :=
  Table.buildWithReport_cases {} _ (eraseDups_ne_nil hne) (nodup_eraseDups words)

/-- A dump of words is loaded as its key set is built. -/
theorem load_eq (words : List Key) :
    load H (words.flatMap wordBytes) =
      (Table.buildWithReport H {} words.eraseDups).map (ofBuild words) := by
  by_cases hne : words = []
  · subst hne
    rfl
  · rw [load, keysOfBytes_flatMap]
    simp only [bind, Except.bind]
    rw [firstOccurrences_eq]
    rcases buildWithReport_eraseDups_cases (H := H) words hne with
      ⟨t, report, hbuild, hbijection⟩ | ⟨b, size, hbuild⟩
    · rw [hbuild]
      simp only
      rw [checksumOf_eq t _ hbijection]
      rfl
    · rw [hbuild]
      rfl

theorem load_cases (bytes : List UInt8) :
    (¬ 8 ∣ bytes.length ∧ load H bytes = .error (.truncatedDump bytes.length)) ∨
    (bytes = [] ∧ load H bytes = .error .emptyKeySet) ∨
    (bytes ≠ [] ∧ ∃ words : List Key, bytes = words.flatMap wordBytes ∧
      ((∃ t report, load H bytes = .ok (ofBuild words (t, report)) ∧
          t.IsBijectionOn words.eraseDups) ∨
        ∃ b size, load H bytes = .error (.noFittingSalt b size 4096))) := by
  by_cases hwhole : 8 ∣ bytes.length
  · right
    by_cases hbytes : bytes = []
    · subst hbytes
      exact .inl ⟨rfl, rfl⟩
    · obtain ⟨words, rfl⟩ := (eight_dvd_length_iff bytes).mp hwhole
      have hne : words ≠ [] := by
        rintro rfl
        exact hbytes rfl
      refine .inr ⟨hbytes, words, rfl, ?_⟩
      rw [load_eq]
      rcases buildWithReport_eraseDups_cases (H := H) words hne with
        ⟨t, report, hbuild, hbijection⟩ | ⟨b, size, hbuild⟩
      · exact .inl ⟨t, report, by rw [hbuild]; rfl, hbijection⟩
      · exact .inr ⟨b, size, by rw [hbuild]; rfl⟩
  · left
    refine ⟨hwhole, ?_⟩
    rw [load, keysOfBytes_of_not_dvd bytes hwhole]
    rfl

theorem load_eq_truncatedDump_iff (bytes : List UInt8) (length : Nat) :
    load H bytes = .error (.truncatedDump length) ↔
      ¬ 8 ∣ bytes.length ∧ length = bytes.length := by
  rcases load_cases (H := H) bytes with ⟨hpart, hload⟩ | ⟨rfl, hload⟩ | ⟨-, words, hbytes, hload⟩
  · simp [hload, hpart, eq_comm]
  · simp [hload]
  · refine iff_of_false ?_ fun h => h.1 ((eight_dvd_length_iff bytes).mpr ⟨words, hbytes⟩)
    rcases hload with ⟨t, report, hload, -⟩ | ⟨b, size, hload⟩ <;> simp [hload]

theorem load_eq_emptyKeySet_iff (bytes : List UInt8) :
    load H bytes = .error .emptyKeySet ↔ bytes = [] := by
  rcases load_cases (H := H) bytes with ⟨hpart, hload⟩ | ⟨rfl, hload⟩ | ⟨hne, words, -, hload⟩
  · refine iff_of_false (by simp [hload]) ?_
    rintro rfl
    exact hpart (Nat.dvd_zero 8)
  · simp [hload]
  · refine iff_of_false ?_ hne
    rcases hload with ⟨t, report, hload, -⟩ | ⟨b, size, hload⟩ <;> simp [hload]

/-- A dump that is loaded consists of words, with a table for its key set. -/
theorem exists_ofBuild_of_load (bytes : List UInt8) (dump : Dump H) (h : load H bytes = .ok dump) :
    ∃ (words : List Key) (t : Table H) (report : BuildReport), bytes = words.flatMap wordBytes ∧
      t.IsBijectionOn words.eraseDups ∧ dump = ofBuild words (t, report) := by
  rcases load_cases (H := H) bytes with ⟨-, hload⟩ | ⟨-, hload⟩ |
    ⟨-, words, hbytes, ⟨t, report, hload, hbijection⟩ | ⟨b, size, hload⟩⟩
  · cases hload.symm.trans h
  · cases hload.symm.trans h
  · exact ⟨words, t, report, hbytes, hbijection, Except.ok.inj (h.symm.trans hload)⟩
  · cases hload.symm.trans h

/-- Dumps of one key set give the same table, report and checksum, or the same failure. -/
theorem load_eq_of_mem_iff (words words' : List Key)
    (h : ∀ key, key ∈ words ↔ key ∈ words') :
    (load H (words.flatMap wordBytes)).map (fun dump => (dump.table, dump.report, dump.checksum)) =
      (load H (words'.flatMap wordBytes)).map
        fun dump => (dump.table, dump.report, dump.checksum) := by
  have hperm := eraseDups_perm_of_mem_iff words words' h
  have hbuild : Table.buildWithReport H {} words.eraseDups =
      Table.buildWithReport H {} words'.eraseDups := by
    by_cases hnil : words.eraseDups = []
    · rw [hnil] at hperm ⊢
      rw [hperm.nil_eq]
    · exact Table.buildWithReport_eq_of_perm hperm {} hnil (nodup_eraseDups words)
  rw [load_eq, load_eq, hbuild]
  cases Table.buildWithReport H {} words'.eraseDups with
  | error failure => rfl
  | ok result => simp only [Except.map, ofBuild, hperm.length_eq]

/-- Loading a dump fails with the number of its bytes when they are not whole words, for want of
keys when there are no bytes, and for want of a salt otherwise, but never for a repeated key. When
it succeeds every key has a slot, and the checksum is the exclusive or of these slots, which is
that of the numbers below the number of distinct words. Dumps of whole words with the same set of
words give the same table, report and checksum, or the same failure. -/
theorem load_exact (H : HashFamily) :
    (∀ bytes length, load H bytes = .error (.truncatedDump length) ↔
      ¬ 8 ∣ bytes.length ∧ length = bytes.length) ∧
    (∀ bytes, load H bytes = .error .emptyKeySet ↔ bytes = []) ∧
    (∀ bytes, 8 ∣ bytes.length → bytes ≠ [] →
      (∃ dump, load H bytes = .ok dump) ∨
        ∃ b size, load H bytes = .error (.noFittingSalt b size 4096)) ∧
    (∀ bytes dump, load H bytes = .ok dump →
      ∃ (words : List Key) (slots : List Nat), bytes = words.flatMap wordBytes ∧
        dump.loaded = words.length ∧ dump.unique.Nodup ∧
        (∀ key, key ∈ dump.unique ↔ key ∈ words) ∧
        dump.unique.map dump.table.lookup = (slots.map fun slot => .ok (some slot)) ∧
        dump.checksum = xorOf slots ∧
        dump.checksum = xorOf (List.range words.toFinset.card)) ∧
    (∀ words words' : List Key, (∀ key, key ∈ words ↔ key ∈ words') →
      (load H (words.flatMap wordBytes)).map
          (fun dump => (dump.table, dump.report, dump.checksum)) =
        (load H (words'.flatMap wordBytes)).map
          fun dump => (dump.table, dump.report, dump.checksum)) := by
  refine ⟨load_eq_truncatedDump_iff, load_eq_emptyKeySet_iff, fun bytes hwhole hne => ?_,
    fun bytes dump h => ?_, load_eq_of_mem_iff⟩
  · rcases load_cases (H := H) bytes with ⟨hpart, -⟩ | ⟨hempty, -⟩ |
      ⟨-, words, -, ⟨t, report, hload, -⟩ | ⟨b, size, hload⟩⟩
    · exact absurd hwhole hpart
    · exact absurd hempty hne
    · exact .inl ⟨_, hload⟩
    · exact .inr ⟨b, size, hload⟩
  · obtain ⟨words, t, report, hbytes, hbijection, rfl⟩ := exists_ofBuild_of_load bytes dump h
    obtain ⟨slots, hslots⟩ := hbijection.exists_sendsApart
    have hchecksum : xorOf (List.range words.eraseDups.length) = xorOf slots := by
      rw [hbijection.length_eq, xorOf_perm (hbijection.perm_range hslots.lookup_eq)]
    exact ⟨words, slots, hbytes, rfl, nodup_eraseDups words, fun key => List.mem_eraseDups,
      hslots.lookup_eq, hchecksum, by rw [ofBuild, length_eraseDups]⟩

/-- Two dumps of five keys, of six and of seven words. The checksum combines `0` to `4`. -/
theorem load_exact_halving :
    ∃ (words words' : List Key) (dump dump' : Dump HashFamily.Arithmetic.halving),
      words = [10, 3, 7, 21, 8, 3] ∧ words' = [8, 8, 21, 7, 7, 3, 10] ∧
      (∀ key, key ∈ words ↔ key ∈ words') ∧
      load HashFamily.Arithmetic.halving (words.flatMap wordBytes) = .ok dump ∧
      load HashFamily.Arithmetic.halving (words'.flatMap wordBytes) = .ok dump' ∧
      dump.table.entries = #[.direct 0, .direct 1, .direct 3, .displacement 1, .unset] ∧
      dump'.table = dump.table ∧ dump.checksum = 4 ∧ dump'.checksum = 4 ∧
      (∃ slots : List Nat,
        dump.unique.map dump.table.lookup = slots.map fun slot => .ok (some slot)) ∧
      load HashFamily.Arithmetic.halving [1, 2, 3] = .error (.truncatedDump 3) := by
  obtain ⟨htruncated, -, -, hloaded, hsame⟩ := load_exact HashFamily.Arithmetic.halving
  have hbuild := ((Table.buildWithReport_eq_ok_iff_maxSalt_le { maxSalt := 4 } {} (by decide)
    _ _ _).mp Table.buildWithReport_halving).1
  have hload := load_eq (H := HashFamily.Arithmetic.halving) [10, 3, 7, 21, 8, 3]
  rw [show ([10, 3, 7, 21, 8, 3] : List Key).eraseDups = [10, 3, 7, 21, 8] from rfl, hbuild]
    at hload
  obtain ⟨words, slots, -, -, -, -, hfound, -⟩ := hloaded _ _ hload
  have hsubset : ([10, 3, 7, 21, 8, 3] : List Key) ⊆ [8, 8, 21, 7, 7, 3, 10] := by decide
  have hsubset' : ([8, 8, 21, 7, 7, 3, 10] : List Key) ⊆ [10, 3, 7, 21, 8, 3] := by decide
  have hother := hsame _ _ fun key => ⟨@hsubset key, @hsubset' key⟩
  rw [hload] at hother
  cases hload' : load HashFamily.Arithmetic.halving
      (([8, 8, 21, 7, 7, 3, 10] : List Key).flatMap wordBytes) with
  | error failure =>
      rw [hload'] at hother
      cases hother
  | ok dump' =>
      rw [hload'] at hother
      obtain ⟨htable, hrest⟩ := Prod.mk.inj (Except.ok.inj hother)
      obtain ⟨-, hchecksum⟩ := Prod.mk.inj hrest
      exact ⟨_, _, _, dump', rfl, rfl, fun key => ⟨@hsubset key, @hsubset' key⟩, hload, hload', rfl,
        htable.symm, rfl, hchecksum.symm, ⟨slots, hfound⟩, (htruncated _ _).mpr ⟨by decide, rfl⟩⟩

end PerfectHash.Dump
