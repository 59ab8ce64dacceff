import PerfectHash.Proofs.Table.Bytes
import PerfectHash.Proofs.Table.Raw

set_option autoImplicit false

/-! # Lookups stay in range

A lookup gives the slot that the home entry of the key says. A salt always leads to a slot in
range, so the only slots out of range are those that stand in an entry (`slotIn_eq_some_iff_of_le`),
and a valid table has none of these. This is what the validation is for, and after it a lookup
checks nothing.

A lookup in the words of a table checks the slot instead: it gives what a lookup in the table
without validation would give, except for slots out of range (`RawTable.lookup_eq_filter`). So
there is nothing that it has to assume of the words, and on the words of a valid table it agrees
with the lookup in the table. The main statement is `lookup_in_range`.
-/

namespace PerfectHash

namespace Table

variable {H : HashFamily}

theorem slotIn_eq_none_iff (n : Nat) (key : Key) (entry : Entry) :
    slotIn H n key entry = none ↔ entry = .unset := by
  cases entry <;> simp [slotIn]

theorem slotIn_eq_some_iff (n : Nat) (key : Key) (entry : Entry) (slot : Nat) :
    slotIn H n key entry = some slot ↔
      entry = .direct slot ∨ ∃ salt, entry = .displacement salt ∧ H.slot n salt key = slot := by
  cases entry <;> simp [slotIn]

/-- A slot out of range stands in the entry. -/
theorem slotIn_eq_some_iff_of_le (n : Nat) (key : Key) (entry : Entry) (slot : Nat)
    (hpos : 0 < n) (hslot : n ≤ slot) :
    slotIn H n key entry = some slot ↔ entry = .direct slot := by
  cases entry with
  | unset => simp [slotIn]
  | direct other => simp [slotIn]
  | displacement salt =>
      constructor
      · intro h
        have hsalt : H.slot n salt key = slot := Option.some.inj h
        exact absurd (hsalt ▸ H.slot_lt n salt key hpos) (Nat.not_lt.mpr hslot)
      · intro h
        cases h

theorem slotIn_lt_of_valid (n : Nat) (key : Key) (entry : Entry) (hpos : 0 < n)
    (h : entry.Valid n) : ∀ slot ∈ slotIn H n key entry, slot < n := by
  intro slot hslot
  by_contra hlarge
  have hentry := (slotIn_eq_some_iff_of_le n key entry slot hpos (Nat.not_lt.mp hlarge)).mp hslot
  rw [hentry] at h
  exact hlarge h

theorem Valid.size_pos {t : Table H} (h : t.Valid) : 0 < t.size := Array.size_pos_iff.mpr h.1

theorem lookup_eq_none_iff (t : Table H) (key : Key) (hpos : 0 < t.size) :
    t.lookup key = .ok none ↔ t.entries[H.home t.size key]? = some .unset := by
  obtain ⟨entry, hentry⟩ := t.exists_entry_home key hpos
  rw [t.lookup_eq_slotIn key entry hentry, hentry, Except.ok.injEq, slotIn_eq_none_iff,
    Option.some_inj]

/-- A slot that is found stands in the home entry, or a salt stands there that leads to it. -/
theorem lookup_eq_some_iff (t : Table H) (key : Key) (slot : Nat) (hpos : 0 < t.size) :
    t.lookup key = .ok (some slot) ↔
      t.entries[H.home t.size key]? = some (.direct slot) ∨
        ∃ salt, t.entries[H.home t.size key]? = some (.displacement salt) ∧
          H.slot t.size salt key = slot := by
  obtain ⟨entry, hentry⟩ := t.exists_entry_home key hpos
  rw [t.lookup_eq_slotIn key entry hentry, hentry, Except.ok.injEq, slotIn_eq_some_iff]
  simp only [Option.some_inj]

theorem Valid.exists_lookup_lt {t : Table H} (h : t.Valid) (key : Key) :
    ∃ found, t.lookup key = .ok found ∧ ∀ slot ∈ found, slot < t.size := by
  obtain ⟨entry, hentry⟩ := t.exists_entry_home key h.size_pos
  have hvalid : entry.Valid t.size := h.2 entry (Array.mem_of_getElem? hentry)
  exact ⟨_, t.lookup_eq_slotIn key entry hentry,
    slotIn_lt_of_valid t.size key entry h.size_pos hvalid⟩

end Table

/-! ## Lookups in words -/

namespace RawTable

variable {H : HashFamily}

theorem filter_lt_eq_self_iff (found : Option Nat) (n : Nat) :
    found.filter (· < n) = found ↔ ∀ slot, n ≤ slot → found ≠ some slot := by
  cases found with
  | none => simp
  | some slot =>
      rw [Option.filter_some_eq_some, decide_eq_true_eq]
      constructor
      · intro hlt other hle heq
        obtain rfl : slot = other := Option.some.inj heq
        exact absurd hlt (Nat.not_lt.mpr hle)
      · exact fun h => Nat.not_le.mp fun hle => h slot hle rfl

/-- A lookup in words passes over the slots out of range. -/
theorem lookup_eq_filter (raw : RawTable) (key : Key) (value : Int64)
    (h : raw[H.home raw.size key]? = some value) :
    RawTable.lookup H raw key =
      .ok ((Table.slotIn H raw.size key (.ofRaw value)).filter (· < raw.size)) := by
  obtain ⟨hlt, -⟩ := Array.getElem?_eq_some_iff.mp h
  have hpos : 0 < raw.size := Nat.zero_lt_of_lt hlt
  have hne : ¬ raw.isEmpty := by
    rw [Array.isEmpty_iff]
    exact Array.size_pos_iff.mp hpos
  rw [RawTable.lookup, if_neg hne, H.homeOf_of_pos raw.size key hpos]
  simp only [bind, Except.bind, (fetch_eq_ok_iff _ _ _).mpr h]
  cases Entry.ofRaw value with
  | unset => rfl
  | direct slot =>
      show Except.ok (if slot < raw.size then some slot else none) = _
      simp only [Table.slotIn, Option.filter_some, decide_eq_true_eq]
  | displacement salt =>
      have hslot := H.slot_lt raw.size salt key hpos
      simp only [H.slotOf_of_pos raw.size salt key hpos, Table.slotIn]
      rw [Option.filter_some, if_pos (decide_eq_true hslot)]
      rfl

theorem exists_lookup_lt (raw : RawTable) (key : Key) :
    ∃ found, RawTable.lookup H raw key = .ok found ∧ ∀ slot ∈ found, slot < raw.size := by
  by_cases hempty : raw = #[]
  · subst hempty
    exact ⟨none, rfl, fun slot hslot => nomatch hslot⟩
  · have hhome := H.home_lt raw.size key (Array.size_pos_iff.mpr hempty)
    refine ⟨_, lookup_eq_filter raw key _ (Array.getElem?_eq_getElem hhome), fun slot hslot => ?_⟩
    exact decide_eq_true_eq.mp (Option.mem_filter_iff.mp hslot).2

/-- The lookup in the words of the table without validation. -/
theorem lookup_ofRawUnchecked (raw : RawTable) (key : Key) (value : Int64)
    (h : raw[H.home raw.size key]? = some value) :
    (Table.ofRawUnchecked H raw).lookup key =
      .ok (Table.slotIn H raw.size key (.ofRaw value)) := by
  have hentry : (Table.ofRawUnchecked H raw).entries[H.home raw.size key]? =
      some (.ofRaw value) := by
    rw [Table.getElem?_ofRawUnchecked, h]
    rfl
  rw [← Table.size_ofRawUnchecked (H := H) raw] at hentry ⊢
  exact Table.lookup_eq_slotIn _ key _ hentry

/-- Where the two lookups differ there is a slot out of range, and only there. -/
theorem lookup_ne_iff (raw : RawTable) (key : Key) (hne : raw ≠ #[]) :
    RawTable.lookup H raw key ≠ (Table.ofRawUnchecked H raw).lookup key ↔
      ∃ slot, raw.size ≤ slot ∧
        raw[H.home raw.size key]?.map Entry.ofRaw = some (.direct slot) := by
  have hpos : 0 < raw.size := Array.size_pos_iff.mpr hne
  have hvalue := Array.getElem?_eq_getElem (H.home_lt raw.size key hpos)
  rw [lookup_eq_filter raw key _ hvalue, lookup_ofRawUnchecked raw key _ hvalue, hvalue]
  simp only [ne_eq, Except.ok.injEq, filter_lt_eq_self_iff, Option.map_some, Option.some_inj,
    not_forall, not_not, exists_prop]
  exact exists_congr fun slot => and_congr_right (Table.slotIn_eq_some_iff_of_le _ key _ slot hpos)

theorem lookup_of_size_le (raw : RawTable) (key : Key) (slot : Nat) (hslot : raw.size ≤ slot)
    (h : raw[H.home raw.size key]?.map Entry.ofRaw = some (.direct slot)) :
    RawTable.lookup H raw key = .ok none := by
  obtain ⟨value, hvalue, hentry⟩ := Option.map_eq_some_iff.mp h
  rw [lookup_eq_filter raw key value hvalue, hentry, Table.slotIn, Option.filter_some,
    if_neg (by simpa using hslot)]

/-- After the validation there is nothing left to check in a lookup. -/
theorem lookup_eq_of_valid (raw : RawTable) (key : Key)
    (h : (Table.ofRawUnchecked H raw).Valid) :
    RawTable.lookup H raw key = (Table.ofRawUnchecked H raw).lookup key := by
  have hne : raw ≠ #[] := ((Table.valid_ofRawUnchecked_iff raw).mp h).1
  by_contra hdiffer
  obtain ⟨slot, hslot, hentry⟩ := (lookup_ne_iff raw key hne).mp hdiffer
  rw [← Table.getElem?_ofRawUnchecked (H := H)] at hentry
  have hlt : slot < (Table.ofRawUnchecked H raw).size := h.2 _ (Array.mem_of_getElem? hentry)
  rw [Table.size_ofRawUnchecked] at hlt
  exact absurd hlt (Nat.not_lt.mpr hslot)

end RawTable

/-! ## The two lookups -/

/-- No lookup leaves the slots of its table or fails. In a table that was read from words or from
bytes, whatever these were, only an unset home entry is a miss. The lookup in words gives an answer
in range for any words. It is the lookup in the table when the words are accepted. In words that
are not accepted, and in any others, it differs from the lookup in the table without validation
just where the home entry is a slot out of range, and is a miss there. -/
theorem lookup_in_range (H : HashFamily) (key : Key) :
    (∀ t : Table H,
      (∃ raw, Table.ofRaw H raw = .ok t) ∨ (∃ bytes, Table.ofBytes H bytes = .ok t) →
      (∃ found, t.lookup key = .ok found ∧ ∀ slot ∈ found, slot < t.size) ∧
      (t.lookup key = .ok none ↔ t.entries[H.home t.size key]? = some .unset)) ∧
    (∀ raw : RawTable,
      ∃ found, RawTable.lookup H raw key = .ok found ∧ ∀ slot ∈ found, slot < raw.size) ∧
    (∀ (raw : RawTable) (t : Table H), Table.ofRaw H raw = .ok t →
      RawTable.lookup H raw key = t.lookup key) ∧
    (∀ raw : RawTable, raw ≠ #[] →
      (RawTable.lookup H raw key ≠ (Table.ofRawUnchecked H raw).lookup key ↔
        ∃ slot, raw.size ≤ slot ∧
          raw[H.home raw.size key]?.map Entry.ofRaw = some (.direct slot)) ∧
      ∀ slot, raw.size ≤ slot →
        raw[H.home raw.size key]?.map Entry.ofRaw = some (.direct slot) →
        RawTable.lookup H raw key = .ok none) := by
  refine ⟨fun t haccepted => ?_, fun raw => raw.exists_lookup_lt key, fun raw t h => ?_,
    fun raw hne => ⟨raw.lookup_ne_iff key hne, raw.lookup_of_size_le key⟩⟩
  · have hvalid : t.Valid := by
      rcases haccepted with ⟨raw, h⟩ | ⟨bytes, h⟩
      · exact ((Table.ofRaw_eq_ok_iff raw t).mp h).2
      · exact ((Table.ofBytes_eq_ok_iff_isPrefix bytes t).mp h).1.1
    exact ⟨hvalid.exists_lookup_lt key, t.lookup_eq_none_iff key hvalid.size_pos⟩
  · obtain ⟨rfl, hvalid⟩ := (Table.ofRaw_eq_ok_iff raw t).mp h
    exact raw.lookup_eq_of_valid key hvalid

/-- Three words that are accepted, and three that are not, as the slot `8` of the first one is out
of range. The home entry of the key `3` is the first one, and the one of `5` is the last one. -/
theorem lookup_in_range_halving :
    ∃ t : Table HashFamily.Arithmetic.halving,
      Table.ofRaw HashFamily.Arithmetic.halving #[-3, 1, 0] = .ok t ∧
      t.lookup 3 = .ok (some 2) ∧ t.lookup 5 = .ok none ∧
      RawTable.lookup HashFamily.Arithmetic.halving #[-3, 1, 0] 3 = .ok (some 2) ∧
      (Table.ofRawUnchecked HashFamily.Arithmetic.halving #[-9, 3, 0]).lookup 3 = .ok (some 8) ∧
      RawTable.lookup HashFamily.Arithmetic.halving #[-9, 3, 0] 3 = .ok none ∧
      RawTable.lookup HashFamily.Arithmetic.halving #[-9, 3, 0] 3 ≠
        (Table.ofRawUnchecked HashFamily.Arithmetic.halving #[-9, 3, 0]).lookup 3 := by
  obtain ⟨-, -, hsame, hrejected⟩ := lookup_in_range HashFamily.Arithmetic.halving 3
  obtain ⟨haccepted, -⟩ := lookup_in_range HashFamily.Arithmetic.halving 5
  have hread : Table.ofRaw HashFamily.Arithmetic.halving #[-3, 1, 0] =
      .ok (Table.ofRawUnchecked HashFamily.Arithmetic.halving #[-3, 1, 0]) := by
    cbv
  obtain ⟨hdiffer, hmiss⟩ := hrejected #[-9, 3, 0] (by decide)
  have hfound := hsame _ _ hread
  exact ⟨_, hread, hfound.symm.trans rfl, (haccepted _ (.inl ⟨_, hread⟩)).2.mpr (by cbv), rfl,
    by cbv, hmiss 8 (by decide) rfl, hdiffer.mpr ⟨8, by decide, rfl⟩⟩

end PerfectHash
