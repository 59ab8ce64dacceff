import PerfectHash.Hash.Families
import PerfectHash.Proofs.Table.Bijection

set_option autoImplicit false

/-! # Damaged tables do not pass the check

A table that is a bijection on its keys has no slot to spare, so there is little that can be changed
in it. When the entry of a bucket with keys is cleared, the first of these keys is missing. When a
bucket has a slot of its own, only one key can have this home, and any other slot is noticed: a slot
out of range at that key, and a slot in range at the key to which it belongs already, or at the
damaged key if this one comes later (`checkBijective_withEntry`).

Only the keys of the damaged bucket are looked up differently (`lookup_withEntry_of_ne`). So the
keys in front of the one that is reported are still sent apart, which makes it the first defect. If
the damaged key is among them it has a new slot, but one that none of the others has
(`IsBijectionOn.exists_sendsApart_direct`).
-/

namespace PerfectHash.Table

variable {H : HashFamily}

def withEntry (t : Table H) (b : Nat) (entry : Entry) : Table H :=
  ⟨t.entries.setIfInBounds b entry⟩

@[simp] theorem size_withEntry (t : Table H) (b : Nat) (entry : Entry) :
    (t.withEntry b entry).size = t.size := by
  simp [withEntry, size]

theorem lookup_withEntry (t : Table H) (b : Nat) (entry : Entry) (key : Key) (hpos : 0 < t.size)
    (h : H.home t.size key = b) :
    (t.withEntry b entry).lookup key = .ok (slotIn H t.size key entry) := by
  have hlt : b < t.entries.size := h ▸ H.home_lt t.size key hpos
  have hentry : (t.withEntry b entry).entries[H.home (t.withEntry b entry).size key]? =
      some entry := by
    rw [size_withEntry, h, withEntry, Array.getElem?_setIfInBounds, if_pos rfl, if_pos hlt]
  rw [lookup_eq_slotIn _ key entry hentry, size_withEntry]

theorem lookup_withEntry_of_ne (t : Table H) (b : Nat) (entry : Entry) (key : Key)
    (hpos : 0 < t.size) (h : H.home t.size key ≠ b) :
    (t.withEntry b entry).lookup key = t.lookup key := by
  obtain ⟨old, hold⟩ := t.exists_entry_home key hpos
  have hentry : (t.withEntry b entry).entries[H.home (t.withEntry b entry).size key]? =
      some old := by
    rw [size_withEntry, withEntry, Array.getElem?_setIfInBounds, if_neg h.symm, hold]
  rw [lookup_eq_slotIn _ key old hentry, size_withEntry, t.lookup_eq_slotIn key old hold]

/-- A key collides with any key in front of it that has its slot. -/
theorem defectAt_of_mem_front (t : Table H) (front back : List Key) (key other : Key) (slot : Nat)
    (hother : other ∈ front) (hlookup : t.lookup key = .ok (some slot))
    (hsame : t.lookup other = .ok (some slot)) :
    t.DefectAt (front ++ key :: back) front.length key slot (.collision other) := by
  obtain ⟨j, hj⟩ := List.getElem?_of_mem hother
  have hlt : j < front.length := (List.getElem?_eq_some_iff.mp hj).1
  have hfront : (front ++ key :: back)[j]? = some other := by
    rw [List.getElem?_append_left hlt, hj]
  exact .collision (by simp) hlookup hlt hfront hsame

theorem pair_sublist_of_mem (front back : List Key) (key other : Key) (h : other ∈ front) :
    [other, key].Sublist (front ++ key :: back) :=
  (List.singleton_sublist.mpr h).append (List.singleton_sublist.mpr (List.mem_cons_self ..))

section IsBijectionOn

variable {t : Table H} {keys : List Key} (h : t.IsBijectionOn keys)
include h

/-- A bucket with a slot of its own has one key. -/
theorem IsBijectionOn.eq_of_direct (b slot : Nat) (hentry : t.entries[b]? = some (.direct slot))
    (key other : Key) (hkey : key ∈ keys) (hother : other ∈ keys) (hhome : H.home t.size key = b)
    (hhome' : H.home t.size other = b) : other = key := by
  apply h.lookup_inj other key hother hkey
  rw [t.lookup_eq_slotIn other _ (hhome' ▸ hentry), t.lookup_eq_slotIn key _ (hhome ▸ hentry)]
  rfl

/-- Keys of other buckets are still sent apart. -/
theorem IsBijectionOn.exists_sendsApart_withEntry (b : Nat) (entry : Entry) (front : List Key)
    (hfront : front.Sublist keys) (hothers : ∀ key ∈ front, H.home t.size key ≠ b) :
    ∃ slots, (t.withEntry b entry).SendsApart front slots := by
  have hlookup : ∀ key ∈ front, (t.withEntry b entry).lookup key = t.lookup key :=
    fun key hkey => t.lookup_withEntry_of_ne b entry key
      (h.size_pos key (hfront.subset hkey)) (hothers key hkey)
  apply exists_sendsApart_of_nodup
  · intro key hkey
    rw [hlookup key hkey, size_withEntry]
    exact h.exists_slot key (hfront.subset hkey)
  · rw [List.map_congr_left hlookup]
    exact h.nodup_map.sublist (hfront.map _)

/-- The key of a damaged bucket and other keys are still sent apart, if none of these has its new
slot. -/
theorem IsBijectionOn.exists_sendsApart_direct (b slot : Nat) (key : Key) (front : List Key)
    (hfront : front.Sublist keys) (hunique : ∀ other ∈ keys, H.home t.size other = b → other = key)
    (hslot : slot < t.size) (hnew : ∀ other ∈ front, t.lookup other ≠ .ok (some slot)) :
    ∃ slots, (t.withEntry b (.direct slot)).SendsApart front slots := by
  have hlookup : ∀ other ∈ front, (t.withEntry b (.direct slot)).lookup other =
      if H.home t.size other = b then .ok (some slot) else t.lookup other := by
    intro other hother
    have hpos := h.size_pos other (hfront.subset hother)
    split
    case isTrue hhome => exact t.lookup_withEntry b _ other hpos hhome
    case isFalse hhome => exact t.lookup_withEntry_of_ne b _ other hpos hhome
  apply exists_sendsApart_of_nodup
  · intro other hother
    rw [hlookup other hother, size_withEntry]
    split
    case isTrue => exact ⟨slot, hslot, rfl⟩
    case isFalse => exact h.exists_slot other (hfront.subset hother)
  · apply List.Nodup.map_on _ (h.nodup.sublist hfront)
    intro first hfirst second hsecond hsame
    rw [hlookup first hfirst, hlookup second hsecond] at hsame
    have hfirst' := hfront.subset hfirst
    have hsecond' := hfront.subset hsecond
    -- The new slot differs from the slots of the other keys, and these differ as before.
    split at hsame <;> split at hsame
    case isTrue.isTrue hhome hhome' =>
      exact (hunique first hfirst' hhome).trans (hunique second hsecond' hhome').symm
    case isTrue.isFalse => exact absurd hsame.symm (hnew second hsecond)
    case isFalse.isTrue => exact absurd hsame (hnew first hfirst)
    case isFalse.isFalse => exact h.lookup_inj first second hfirst' hsecond' hsame

end IsBijectionOn

/-- In front of the only key of a bucket there are keys of other buckets. -/
theorem home_ne_of_mem_front (n b : Nat) (front back : List Key) (key : Key)
    (hnodup : (front ++ key :: back).Nodup)
    (hunique : ∀ other ∈ front ++ key :: back, H.home n other = b → other = key) :
    ∀ other ∈ front, H.home n other ≠ b := by
  intro other hother hhome
  obtain rfl := hunique other (List.mem_append_left _ hother) hhome
  exact List.disjoint_of_nodup_append hnodup hother (List.mem_cons_self ..)

/-! ## What the check reports -/

section Report

variable {t : Table H} {keys : List Key} (h : t.IsBijectionOn keys) (b : Nat)
include h

/-- When a bucket is cleared, its first key is missing. -/
theorem IsBijectionOn.checkBijective_clear (first : Key)
    (hfirst : (keys.find? fun key => H.home t.size key = b) = some first) :
    (t.withEntry b .unset).checkBijective keys = .error (.notBijective first 0 .missing) := by
  obtain ⟨hhome, front, back, rfl, hothers⟩ := List.find?_eq_some_iff_append.mp hfirst
  have hlookup : (t.withEntry b .unset).lookup first = .ok none :=
    t.lookup_withEntry b .unset first (h.size_pos first (by simp)) (of_decide_eq_true hhome)
  obtain ⟨slots, happart⟩ := h.exists_sendsApart_withEntry b .unset front
    (List.sublist_append_left ..) fun key hkey => by simpa using hothers key hkey
  exact happart.checkBijective_eq (.missing (by simp) hlookup) (by rw [size_withEntry, h.length_eq])

variable (slot : Nat) (key : Key) (hkey : key ∈ keys) (hhome : H.home t.size key = b)
  (hunique : ∀ other ∈ keys, H.home t.size other = b → other = key)
include hkey hhome hunique

/-- A slot out of range is reported with the only key of its bucket. -/
theorem IsBijectionOn.checkBijective_outOfRange (hslot : t.size ≤ slot) :
    (t.withEntry b (.direct slot)).checkBijective keys =
      .error (.notBijective key slot .outOfRange) := by
  have hlookup : (t.withEntry b (.direct slot)).lookup key = .ok (some slot) :=
    t.lookup_withEntry b _ key (h.size_pos key hkey) hhome
  obtain ⟨front, back, rfl⟩ := List.append_of_mem hkey
  obtain ⟨slots, happart⟩ := h.exists_sendsApart_withEntry b (.direct slot) front
    (List.sublist_append_left ..) (home_ne_of_mem_front _ b front back key h.nodup hunique)
  have hrange : (t.withEntry b (.direct slot)).size ≤ slot := by rwa [size_withEntry]
  exact happart.checkBijective_eq (.outOfRange (by simp) hlookup hrange)
    (by rw [size_withEntry, h.length_eq])

/-- A slot in range is reported with the later one of the only key of its bucket and the key to
which the slot belongs. -/
theorem IsBijectionOn.checkBijective_collision (other : Key) (hother : other ∈ keys)
    (hne : other ≠ key) (hslot : slot < t.size) (howner : t.lookup other = .ok (some slot)) :
    ∃ earlier later, [earlier, later].Perm [key, other] ∧ [earlier, later].Sublist keys ∧
      (t.withEntry b (.direct slot)).checkBijective keys =
        .error (.notBijective later slot (.collision earlier)) := by
  have hpos := h.size_pos key hkey
  have hlength : keys.length = (t.withEntry b (.direct slot)).size := by
    rw [size_withEntry, h.length_eq]
  have hlookup : (t.withEntry b (.direct slot)).lookup key = .ok (some slot) :=
    t.lookup_withEntry b _ key hpos hhome
  have hlookup' : (t.withEntry b (.direct slot)).lookup other = .ok (some slot) := by
    rw [t.lookup_withEntry_of_ne b _ other hpos fun h' => hne (hunique other hother h'), howner]
  obtain ⟨front, back, rfl⟩ := List.append_of_mem hkey
  rcases List.mem_append.mp hother with hfront | hback
  -- The owner of the slot comes first, and the damaged key collides with it.
  · obtain ⟨slots, happart⟩ := h.exists_sendsApart_withEntry b (.direct slot) front
      (List.sublist_append_left ..) (home_ne_of_mem_front _ b front back key h.nodup hunique)
    have hdefect := defectAt_of_mem_front _ front back key other slot hfront hlookup hlookup'
    exact ⟨other, key, .swap .., pair_sublist_of_mem front back key other hfront,
      happart.checkBijective_eq hdefect hlength⟩
  -- The damaged key comes first, and the owner collides with it.
  · obtain ⟨middle, rest, rfl⟩ := List.append_of_mem ((List.mem_cons.mp hback).resolve_left hne)
    rw [← List.cons_append, ← List.append_assoc] at h hlength hunique ⊢
    have hnew : ∀ third ∈ front ++ key :: middle, t.lookup third ≠ .ok (some slot) := by
      intro third hthird hsame
      obtain rfl := h.lookup_inj third other (List.mem_append_left _ hthird) (by simp)
        (hsame.trans howner.symm)
      exact List.disjoint_of_nodup_append h.nodup hthird (List.mem_cons_self ..)
    obtain ⟨slots, happart⟩ := h.exists_sendsApart_direct b slot key (front ++ key :: middle)
      (List.sublist_append_left ..) hunique hslot hnew
    have hdefect := defectAt_of_mem_front _ (front ++ key :: middle) rest other key slot (by simp)
      hlookup' hlookup
    exact ⟨key, other, .refl _, pair_sublist_of_mem _ rest other key (by simp),
      happart.checkBijective_eq hdefect hlength⟩

end Report

/-- Damage to a bucket with keys does not pass the check. When the entry of the bucket is cleared,
its first key is missing. When the bucket has a slot of its own, it is the home of one key only, and
every other slot is reported: a slot out of range with this key, and a slot in range with the later
one of this key and the other one to which the slot belongs. -/
theorem checkBijective_withEntry (H : HashFamily) (t : Table H) (keys : List Key)
    (h : t.checkBijective keys = .ok ()) (b : Nat) (key : Key) (hkey : key ∈ keys)
    (hhome : H.home t.size key = b) :
    (∃ first, (keys.find? fun other => H.home t.size other = b) = some first ∧
      (t.withEntry b .unset).checkBijective keys = .error (.notBijective first 0 .missing)) ∧
    ∀ slot, t.entries[b]? = some (.direct slot) →
      (keys.filter fun other => H.home t.size other = b) = [key] ∧
      ∀ slot', slot' ≠ slot →
        (t.size ≤ slot' → (t.withEntry b (.direct slot')).checkBijective keys =
          .error (.notBijective key slot' .outOfRange)) ∧
        (slot' < t.size → ∃ other ∈ keys, other ≠ key ∧ t.lookup other = .ok (some slot') ∧
          ∃ earlier later, [earlier, later].Perm [key, other] ∧ [earlier, later].Sublist keys ∧
            (t.withEntry b (.direct slot')).checkBijective keys =
              .error (.notBijective later slot' (.collision earlier))) := by
  have hbijection := isBijectionOn_of_checkBijective h
  constructor
  · have hfound : (keys.find? fun other => H.home t.size other = b).isSome :=
      List.find?_isSome.mpr ⟨key, hkey, decide_eq_true hhome⟩
    obtain ⟨first, hfirst⟩ := Option.isSome_iff_exists.mp hfound
    exact ⟨first, hfirst, hbijection.checkBijective_clear b first hfirst⟩
  · intro slot hentry
    have hunique : ∀ other ∈ keys, H.home t.size other = b → other = key := fun other hother =>
      hbijection.eq_of_direct b slot hentry key other hkey hother hhome
    have hlookup : t.lookup key = .ok (some slot) :=
      t.lookup_eq_slotIn key (.direct slot) (hhome ▸ hentry)
    refine ⟨?_, fun slot' hslot' => ⟨?_, fun hlt => ?_⟩⟩
    · apply List.perm_singleton.mp
      rw [List.perm_ext_iff_of_nodup (hbijection.nodup.filter _) (List.nodup_singleton key)]
      intro other
      rw [List.mem_filter, decide_eq_true_eq, List.mem_singleton]
      constructor
      · rintro ⟨hother, hhome'⟩
        exact hunique other hother hhome'
      · rintro rfl
        exact ⟨hkey, hhome⟩
    · exact hbijection.checkBijective_outOfRange b slot' key hkey hhome hunique
    · obtain ⟨other, hother, howner⟩ := hbijection.exists_key slot' hlt
      have hne : other ≠ key := by
        rintro rfl
        exact hslot' (injective_found (howner.symm.trans hlookup))
      exact ⟨other, hother, hne, howner, hbijection.checkBijective_collision b slot' key hkey hhome
        hunique other hother hne hlt howner⟩

open HashFamily.Arithmetic in
/-- The bucket `3` is the home of `3` and `8`, and the bucket `1` that of `21` alone. -/
theorem checkBijective_withEntry_halving :
    ∃ t : Table halving,
      t.entries = #[.direct 0, .direct 1, .direct 3, .displacement 1, .unset] ∧
      t.checkBijective [10, 3, 7, 21, 8] = .ok () ∧ t.entries[1]? = some (.direct 1) ∧
      (t.withEntry 3 .unset).checkBijective [10, 3, 7, 21, 8] =
        .error (.notBijective 3 0 .missing) ∧
      (t.withEntry 1 (.direct 5)).checkBijective [10, 3, 7, 21, 8] =
        .error (.notBijective 21 5 .outOfRange) ∧
      ∃ other, t.lookup other = .ok (some 2) ∧
        ∃ earlier later, [earlier, later].Perm [21, other] ∧
          (t.withEntry 1 (.direct 2)).checkBijective [10, 3, 7, 21, 8] =
            .error (.notBijective later 2 (.collision earlier)) := by
  let t : Table halving := ⟨#[.direct 0, .direct 1, .direct 3, .displacement 1, .unset]⟩
  have hok : t.checkBijective [10, 3, 7, 21, 8] = .ok () := by decide +kernel
  obtain ⟨⟨first, hfirst, hclear⟩, -⟩ :=
    checkBijective_withEntry halving t _ hok 3 8 (by decide) (by decide)
  obtain ⟨-, hdirect⟩ := checkBijective_withEntry halving t _ hok 1 21 (by decide) (by decide)
  obtain ⟨-, hchange⟩ := hdirect 1 rfl
  obtain ⟨other, -, -, howner, earlier, later, hperm, -, hcollision⟩ :=
    (hchange 2 (by decide)).2 (by decide)
  obtain rfl : first = 3 := Option.some.inj (hfirst.symm.trans (by decide))
  exact ⟨t, rfl, hok, rfl, hclear, (hchange 5 (by decide)).1 (by decide), other, howner,
    earlier, later, hperm, hcollision⟩

/-- The slot `2` belongs to the key `8`, which comes after `21`. -/
example : (withEntry (H := HashFamily.Arithmetic.halving)
    ⟨#[.direct 0, .direct 1, .direct 3, .displacement 1, .unset]⟩ 1 (.direct 2)).checkBijective
      [10, 3, 7, 21, 8] = .error (.notBijective 8 2 (.collision 21)) := by
  decide +kernel

end PerfectHash.Table
