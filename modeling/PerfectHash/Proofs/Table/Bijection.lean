import Mathlib.Data.List.Nodup
import Mathlib.Data.List.Perm.Subperm
import Mathlib.Data.Set.List
import PerfectHash.Hash.Families
import PerfectHash.Proofs.SlotSet.Represents
import PerfectHash.Table.Bijection

set_option autoImplicit false

/-! # Tables that are bijections

`t.IsBijectionOn keys` says that the lookups of the keys are the slots of the table, each once.
When there are as many keys as slots it is enough that the slots of the keys are in range and
distinct (`t.SendsApart keys slots`), as this leaves no slot over.

The check of a table goes through the keys in their order. Before every key the keys behind it
are sent apart, the set holds their slots, and every slot that is taken has its key in `owner`.
So the check stops at the first key with a defect (`FirstDefect`) and names it, and a list
without a defect is sent apart as a whole. The main statement `checkBijective_eq_iff` says that
the check decides `IsBijectionOn` and that there is just one failure for it to report.
-/

namespace PerfectHash.Table

variable {H : HashFamily}

/-- The table sends the keys one-to-one onto its slots. -/
def IsBijectionOn (t : Table H) (keys : List Key) : Prop :=
  (keys.map t.lookup).Perm ((List.range t.size).map fun slot => .ok (some slot))

/-- The keys have the slots of the list, in their order, and these are in range and distinct. -/
structure SendsApart (t : Table H) (keys : List Key) (slots : List Nat) : Prop where
  lookup_eq : keys.map t.lookup = slots.map fun slot => .ok (some slot)
  lt_size : ∀ slot ∈ slots, slot < t.size
  nodup : slots.Nodup

theorem injective_found :
    Function.Injective fun slot : Nat => (.ok (some slot) : Outcome (Option Nat)) := by
  intro slot other heq
  simpa using heq

/-! ## Bijections -/

theorem IsBijectionOn.length_eq {t : Table H} {keys : List Key} (h : t.IsBijectionOn keys) :
    keys.length = t.size := by
  simpa using List.Perm.length_eq h

theorem IsBijectionOn.perm {t : Table H} {keys keys' : List Key} (h : t.IsBijectionOn keys)
    (hperm : keys.Perm keys') : t.IsBijectionOn keys' :=
  (hperm.map t.lookup).symm.trans h

theorem IsBijectionOn.nodup_map {t : Table H} {keys : List Key} (h : t.IsBijectionOn keys) :
    (keys.map t.lookup).Nodup :=
  h.nodup_iff.mpr (List.nodup_range.map injective_found)

/-- The slots of the keys are all slots, in some order. -/
theorem IsBijectionOn.perm_range {t : Table H} {keys : List Key} {slots : List Nat}
    (h : t.IsBijectionOn keys)
    (hslots : keys.map t.lookup = slots.map fun slot => .ok (some slot)) :
    slots.Perm (List.range t.size) := by
  unfold IsBijectionOn at h
  rw [hslots] at h
  exact (List.map_perm_map_iff injective_found).mp h

/-- Keys with distinct slots in range are sent apart. -/
theorem exists_sendsApart_of_nodup (t : Table H) (keys : List Key)
    (hfound : ∀ key ∈ keys, ∃ slot < t.size, t.lookup key = .ok (some slot))
    (hnodup : (keys.map t.lookup).Nodup) : ∃ slots, t.SendsApart keys slots := by
  have hrange : keys.map t.lookup ∈
      Set.range (List.map fun slot : Nat => (.ok (some slot) : Outcome (Option Nat))) := by
    rw [Set.range_list_map]
    intro result hresult
    obtain ⟨key, hkey, rfl⟩ := List.mem_map.mp hresult
    obtain ⟨slot, -, hlookup⟩ := hfound key hkey
    exact ⟨slot, hlookup.symm⟩
  obtain ⟨slots, hslots⟩ := hrange
  rw [← hslots] at hnodup
  refine ⟨slots, hslots.symm, fun slot hslot => ?_, hnodup.of_map⟩
  have hmem : .ok (some slot) ∈ keys.map t.lookup := hslots ▸ List.mem_map_of_mem hslot
  obtain ⟨key, hkey, hlookup⟩ := List.mem_map.mp hmem
  obtain ⟨slot', hlt, hlookup'⟩ := hfound key hkey
  rwa [injective_found (hlookup.symm.trans hlookup')]

section IsBijectionOn

variable {t : Table H} {keys : List Key} (h : t.IsBijectionOn keys)
include h

theorem IsBijectionOn.size_pos (key : Key) (hkey : key ∈ keys) : 0 < t.size :=
  h.length_eq ▸ List.length_pos_of_mem hkey

theorem IsBijectionOn.nodup : keys.Nodup := h.nodup_map.of_map

theorem IsBijectionOn.lookup_inj (key other : Key) (hkey : key ∈ keys) (hother : other ∈ keys)
    (hsame : t.lookup key = t.lookup other) : key = other :=
  List.inj_on_of_nodup_map h.nodup_map hkey hother hsame

theorem IsBijectionOn.exists_slot (key : Key) (hkey : key ∈ keys) :
    ∃ slot < t.size, t.lookup key = .ok (some slot) := by
  obtain ⟨slot, hslot, hlookup⟩ := List.mem_map.mp (h.mem_iff.mp (List.mem_map_of_mem hkey))
  exact ⟨slot, List.mem_range.mp hslot, hlookup.symm⟩

theorem IsBijectionOn.exists_key (slot : Nat) (hslot : slot < t.size) :
    ∃ key ∈ keys, t.lookup key = .ok (some slot) :=
  List.mem_map.mp (h.mem_iff.mpr (List.mem_map_of_mem (List.mem_range.mpr hslot)))

/-- The slots of the keys, in the order of the keys. -/
theorem IsBijectionOn.exists_sendsApart : ∃ slots, t.SendsApart keys slots :=
  t.exists_sendsApart_of_nodup keys h.exists_slot h.nodup_map

end IsBijectionOn

section SendsApart

variable {t : Table H} {keys : List Key} {slots : List Nat} (h : t.SendsApart keys slots)
include h

theorem SendsApart.length_eq : keys.length = slots.length := by
  simpa using congrArg List.length h.lookup_eq

/-- As many distinct slots as there are leave none over. -/
theorem SendsApart.isBijectionOn (hlength : keys.length = t.size) : t.IsBijectionOn keys := by
  have hsubset : slots ⊆ List.range t.size :=
    fun slot hslot => List.mem_range.mpr (h.lt_size slot hslot)
  have hle : (List.range t.size).length ≤ slots.length := by
    rw [List.length_range, ← hlength, h.length_eq]
  unfold IsBijectionOn
  rw [h.lookup_eq]
  exact ((h.nodup.subperm hsubset).perm_of_length_le hle).map _

theorem SendsApart.lookup_getElem? (i : Nat) :
    keys[i]?.map t.lookup = slots[i]?.map fun slot => .ok (some slot) := by
  rw [← List.getElem?_map, ← List.getElem?_map, h.lookup_eq]

theorem SendsApart.exists_slot (i : Nat) (key : Key) (hkey : keys[i]? = some key) :
    ∃ slot, slots[i]? = some slot ∧ t.lookup key = .ok (some slot) := by
  have hlookup := h.lookup_getElem? i
  rw [hkey, Option.map_some] at hlookup
  obtain ⟨slot, hslot, hfound⟩ := Option.map_eq_some_iff.mp hlookup.symm
  exact ⟨slot, hslot, hfound.symm⟩

theorem SendsApart.exists_key (i slot : Nat) (hslot : slots[i]? = some slot) :
    ∃ key, keys[i]? = some key ∧ t.lookup key = .ok (some slot) := by
  have hlookup := h.lookup_getElem? i
  rw [hslot, Option.map_some] at hlookup
  obtain ⟨key, hkey, hfound⟩ := Option.map_eq_some_iff.mp hlookup
  exact ⟨key, hkey, hfound⟩

theorem SendsApart.position_inj (i j : Nat) (key other : Key) (hkey : keys[i]? = some key)
    (hother : keys[j]? = some other) (hsame : t.lookup key = t.lookup other) : i = j := by
  obtain ⟨slot, hi, hfound⟩ := h.exists_slot i key hkey
  obtain ⟨slot', hj, hfound'⟩ := h.exists_slot j other hother
  rw [hfound, hfound'] at hsame
  have heq : slot = slot' := injective_found hsame
  subst heq
  obtain ⟨hlt, hget⟩ := List.getElem?_eq_some_iff.mp hi
  obtain ⟨hlt', hget'⟩ := List.getElem?_eq_some_iff.mp hj
  exact h.nodup.getElem_inj_iff.mp (hget.trans hget'.symm)

/-- A further key with a new slot in range. -/
theorem SendsApart.concat (key : Key) (slot : Nat) (hlookup : t.lookup key = .ok (some slot))
    (hlt : slot < t.size) (hnew : slot ∉ slots) :
    t.SendsApart (keys ++ [key]) (slots ++ [slot]) where
  lookup_eq := by
    rw [List.map_append, List.map_append, h.lookup_eq, List.map_singleton, List.map_singleton,
      hlookup]
  lt_size other hother := by
    rcases List.mem_append.mp hother with hother | hother
    · exact h.lt_size other hother
    · rwa [List.mem_singleton.mp hother]
  nodup := by
    rw [List.nodup_append]
    refine ⟨h.nodup, by simp, ?_⟩
    rintro a ha b hb rfl
    exact hnew (List.mem_singleton.mp hb ▸ ha)

end SendsApart

/-! ## Defects -/

/-- What is wrong with the slot of the key at position `i`. -/
inductive DefectAt (t : Table H) (keys : List Key) (i : Nat) : Key → Nat → Defect → Prop where
  | missing {key : Key} (hkey : keys[i]? = some key) (hlookup : t.lookup key = .ok none) :
      DefectAt t keys i key 0 .missing
  | outOfRange {key : Key} {slot : Nat} (hkey : keys[i]? = some key)
      (hlookup : t.lookup key = .ok (some slot)) (hrange : t.size ≤ slot) :
      DefectAt t keys i key slot .outOfRange
  | collision {key other : Key} {slot j : Nat} (hkey : keys[i]? = some key)
      (hlookup : t.lookup key = .ok (some slot)) (hj : j < i) (hother : keys[j]? = some other)
      (hsame : t.lookup other = .ok (some slot)) : DefectAt t keys i key slot (.collision other)

theorem DefectAt.getElem?_eq {t : Table H} {keys : List Key} {i : Nat} {key : Key} {slot : Nat}
    {defect : Defect} (h : t.DefectAt keys i key slot defect) : keys[i]? = some key := by
  cases h with
  | missing hkey => exact hkey
  | outOfRange hkey => exact hkey
  | collision hkey => exact hkey

def SoundBefore (t : Table H) (keys : List Key) (i : Nat) : Prop :=
  ∀ j < i, ∀ key slot defect, ¬ t.DefectAt keys j key slot defect

def FirstDefect (t : Table H) (keys : List Key) (i : Nat) (key : Key) (slot : Nat)
    (defect : Defect) : Prop :=
  t.DefectAt keys i key slot defect ∧ t.SoundBefore keys i

/-- Keys that are sent apart have no defect, whatever keys follow them. -/
theorem SendsApart.soundBefore {t : Table H} {keys : List Key} {slots : List Nat}
    (h : t.SendsApart keys slots) (more : List Key) : t.SoundBefore (keys ++ more) keys.length := by
  intro i hi key slot defect hdefect
  have hfront : ∀ j ≤ i, (keys ++ more)[j]? = keys[j]? :=
    fun j hj => List.getElem?_append_left (by omega)
  cases hdefect with
  | missing hkey hlookup =>
      rw [hfront i (Nat.le_refl i)] at hkey
      obtain ⟨slot, -, hfound⟩ := h.exists_slot i key hkey
      cases hlookup.symm.trans hfound
  | outOfRange hkey hlookup hrange =>
      rw [hfront i (Nat.le_refl i)] at hkey
      obtain ⟨slot', hslot, hfound⟩ := h.exists_slot i key hkey
      obtain rfl : slot = slot' := injective_found (hlookup.symm.trans hfound)
      have := h.lt_size slot (List.mem_of_getElem? hslot)
      omega
  | collision hkey hlookup hj hother hsame =>
      rw [hfront i (Nat.le_refl i)] at hkey
      rw [hfront _ (Nat.le_of_lt hj)] at hother
      have := h.position_inj _ _ _ _ hkey hother (hlookup.trans hsame.symm)
      omega

/-- Among positions without a defect, a slot in range belongs to one position. -/
theorem SoundBefore.position_inj {t : Table H} {keys : List Key} {i : Nat}
    (h : t.SoundBefore keys i) (j k : Nat) (hj : j < i) (hk : k < i) (key other : Key) (slot : Nat)
    (hkey : keys[j]? = some key) (hother : keys[k]? = some other)
    (hlookup : t.lookup key = .ok (some slot)) (hsame : t.lookup other = .ok (some slot)) :
    j = k := by
  rcases Nat.lt_trichotomy j k with hlt | heq | hgt
  · exact absurd (.collision hother hsame hlt hkey hlookup) (h k hk _ _ _)
  · exact heq
  · exact absurd (.collision hkey hlookup hgt hother hsame) (h j hj _ _ _)

theorem FirstDefect.unique {t : Table H} {keys : List Key} {i i' : Nat} {key key' : Key}
    {slot slot' : Nat} {defect defect' : Defect} (h : t.FirstDefect keys i key slot defect)
    (h' : t.FirstDefect keys i' key' slot' defect') :
    key = key' ∧ slot = slot' ∧ defect = defect' := by
  obtain ⟨hdefect, hsound⟩ := h
  obtain ⟨hdefect', hsound'⟩ := h'
  obtain rfl : i = i' := by
    rcases Nat.lt_trichotomy i i' with hlt | heq | hgt
    · exact absurd hdefect (hsound' i hlt _ _ _)
    · exact heq
    · exact absurd hdefect' (hsound i' hgt _ _ _)
  obtain rfl : key = key' :=
    Option.some.inj (hdefect.getElem?_eq.symm.trans hdefect'.getElem?_eq)
  -- The lookup of the key tells a missing slot from one that is out of range or taken.
  cases hdefect with
  | missing _ hlookup =>
      cases hdefect' with
      | missing => exact ⟨rfl, rfl, rfl⟩
      | outOfRange _ hlookup' => cases hlookup.symm.trans hlookup'
      | collision _ hlookup' => cases hlookup.symm.trans hlookup'
  | outOfRange _ hlookup hrange =>
      cases hdefect' with
      | missing _ hlookup' => cases hlookup.symm.trans hlookup'
      | outOfRange _ hlookup' =>
          cases hlookup.symm.trans hlookup'
          exact ⟨rfl, rfl, rfl⟩
      | collision _ hlookup' hj' hother' hsame' =>
          cases hlookup.symm.trans hlookup'
          exact absurd (.outOfRange hother' hsame' hrange) (hsound _ hj' _ _ _)
  | collision _ hlookup hj hother hsame =>
      cases hdefect' with
      | missing _ hlookup' => cases hlookup.symm.trans hlookup'
      | outOfRange _ hlookup' hrange' =>
          cases hlookup.symm.trans hlookup'
          exact absurd (.outOfRange hother hsame hrange') (hsound _ hj _ _ _)
      | collision _ hlookup' hj' hother' hsame' =>
          cases hlookup.symm.trans hlookup'
          obtain rfl := hsound.position_inj _ _ hj hj' _ _ _ hother hother' hsame hsame'
          cases hother.symm.trans hother'
          exact ⟨rfl, rfl, rfl⟩

/-! ## The check -/

/-- Every slot that one of the keys has is filled with that key. -/
structure Owners (t : Table H) (owner : Array Key) (keys : List Key) : Prop where
  size_eq : owner.size = t.size
  owner_eq : ∀ key ∈ keys, ∀ slot, t.lookup key = .ok (some slot) → owner[slot]? = some key

theorem Owners.concat {t : Table H} {owner : Array Key} {keys : List Key} (h : t.Owners owner keys)
    (key : Key) (slot : Nat) (hlookup : t.lookup key = .ok (some slot)) (hlt : slot < owner.size)
    (hnew : ∀ other ∈ keys, t.lookup other ≠ .ok (some slot)) :
    t.Owners (owner.set slot key hlt) (keys ++ [key]) where
  size_eq := by simpa using h.size_eq
  owner_eq other hother slot' hlookup' := by
    rw [Array.getElem?_set]
    rcases List.mem_append.mp hother with hother | hother
    · have hne : slot ≠ slot' := by
        rintro rfl
        exact hnew other hother hlookup'
      rw [if_neg hne]
      exact h.owner_eq other hother slot' hlookup'
    · rw [List.mem_singleton.mp hother] at hlookup' ⊢
      rw [if_pos (injective_found (hlookup.symm.trans hlookup'))]

/-- From keys that are sent apart on, the check either goes through, and all keys are sent apart,
or it stops at the first defect. -/
theorem checkFrom_cases (t : Table H) (before keys : List Key) (slots : List Nat) (seen : SlotSet)
    (owner : Array Key) (hpos : ∀ key ∈ keys, 0 < t.size) (hbefore : t.SendsApart before slots)
    (hseen : seen.Represents slots) (hlen : seen.len = t.size) (howner : t.Owners owner before) :
    (t.checkFrom keys seen owner = .ok () ∧ ∃ slots', t.SendsApart (before ++ keys) slots') ∨
      ∃ i key slot defect, t.checkFrom keys seen owner = .error (.notBijective key slot defect) ∧
        t.FirstDefect (before ++ keys) i key slot defect := by
  induction keys generalizing before slots seen owner with
  | nil => exact .inl ⟨rfl, slots, by rwa [List.append_nil]⟩
  | cons key keys ih =>
      have hhere : (before ++ key :: keys)[before.length]? = some key := by simp
      have hsound := hbefore.soundBefore (key :: keys)
      obtain ⟨found, hlookup⟩ := t.exists_lookup_eq key (hpos key (by simp))
      simp only [checkFrom, bind, Except.bind]
      rw [hlookup]
      cases found with
      | none => exact .inr ⟨before.length, key, 0, .missing, rfl, .missing hhere hlookup, hsound⟩
      | some slot =>
          simp only
          by_cases hrange : t.size ≤ slot
          · rw [if_pos hrange]
            exact .inr ⟨before.length, key, slot, .outOfRange, rfl,
              .outOfRange hhere hlookup hrange, hsound⟩
          · have hlt : slot < t.size := Nat.lt_of_not_le hrange
            have hacc : seen.Accessible slot := hseen.accessible slot (hlen ▸ hlt)
            rw [if_neg hrange, hseen.isUsed slot hacc]
            by_cases hused : slot ∈ slots
            -- The slot is taken by an earlier key, and `owner` knows by which.
            · obtain ⟨j, hj⟩ := List.getElem?_of_mem hused
              obtain ⟨other, hother, hsame⟩ := hbefore.exists_key j slot hj
              have hjlt : j < before.length := (List.getElem?_eq_some_iff.mp hother).1
              have hcell := howner.owner_eq other (List.mem_of_getElem? hother) slot hsame
              rw [decide_eq_true hused]
              simp only [if_true]
              rw [(fetch_eq_ok_iff _ _ _).mpr hcell]
              refine .inr ⟨before.length, key, slot, .collision other, rfl, ?_, hsound⟩
              refine .collision hhere hlookup hjlt ?_ hsame
              rw [List.getElem?_append_left hjlt, hother]
            · have hcell : slot < owner.size := howner.size_eq ▸ hlt
              have hnew : ∀ other ∈ before, t.lookup other ≠ .ok (some slot) := by
                intro other hother hsame
                obtain ⟨j, hj⟩ := List.getElem?_of_mem hother
                obtain ⟨slot', hslot', hfound⟩ := hbefore.exists_slot j other hj
                obtain rfl : slot = slot' := injective_found (hsame.symm.trans hfound)
                exact hused (List.mem_of_getElem? hslot')
              rw [decide_eq_false hused]
              simp only [Bool.false_eq_true, if_false]
              rw [SlotSet.mark_of_accessible seen slot hacc]
              simp only
              rw [store_of_lt owner slot key hcell]
              have hnext := ih (before ++ [key]) (slots ++ [slot]) (seen.add slot)
                (owner.set slot key hcell) (fun other hother => hpos other (by simp [hother]))
                (hbefore.concat key slot hlookup hlt hused)
                ((hseen.add slot hacc hused).perm (List.perm_append_singleton slot slots).symm)
                hlen (howner.concat key slot hlookup hcell hnew)
              rwa [List.append_assoc, List.singleton_append] at hnext

/-- With as many keys as slots, the check accepts keys that are sent apart and stops at the first
defect of others. -/
theorem checkBijective_cases (t : Table H) (keys : List Key) (hlength : keys.length = t.size) :
    (t.checkBijective keys = .ok () ∧ t.IsBijectionOn keys) ∨
      ∃ i key slot defect, t.checkBijective keys = .error (.notBijective key slot defect) ∧
        t.FirstDefect keys i key slot defect := by
  have hpos : ∀ key ∈ keys, 0 < t.size := fun key hkey => hlength ▸ List.length_pos_of_mem hkey
  have hcases := t.checkFrom_cases [] keys [] (.free t.size) (Array.replicate t.size 0) hpos
    ⟨rfl, by simp, .nil⟩ (SlotSet.represents_free t.size) rfl ⟨by simp, by simp⟩
  unfold checkBijective
  rw [if_pos hlength.symm]
  rcases hcases with ⟨hrun, slots, happart⟩ | hfailed
  · exact .inl ⟨hrun, SendsApart.isBijectionOn happart hlength⟩
  · exact .inr hfailed

theorem checkBijective_of_ne (t : Table H) (keys : List Key) (hlength : keys.length ≠ t.size) :
    t.checkBijective keys = .error (.sizeMismatch t.size keys.length) := by
  unfold checkBijective
  rw [if_neg (Ne.symm hlength)]

theorem IsBijectionOn.not_firstDefect {t : Table H} {keys : List Key} (h : t.IsBijectionOn keys)
    (i : Nat) (key : Key) (slot : Nat) (defect : Defect) :
    ¬ t.FirstDefect keys i key slot defect := by
  rintro ⟨hdefect, -⟩
  obtain ⟨slots, happart⟩ := h.exists_sendsApart
  have hi : i < keys.length := (List.getElem?_eq_some_iff.mp hdefect.getElem?_eq).1
  have hsound := happart.soundBefore []
  rw [List.append_nil] at hsound
  exact hsound i hi key slot defect hdefect

theorem IsBijectionOn.checkBijective_eq_ok {t : Table H} {keys : List Key}
    (h : t.IsBijectionOn keys) : t.checkBijective keys = .ok () := by
  rcases t.checkBijective_cases keys h.length_eq with ⟨hok, -⟩ | ⟨i, key, slot, defect, -, hfirst⟩
  · exact hok
  · exact absurd hfirst (h.not_firstDefect i key slot defect)

theorem FirstDefect.checkBijective_eq {t : Table H} {keys : List Key} {i : Nat} {key : Key}
    {slot : Nat} {defect : Defect} (h : t.FirstDefect keys i key slot defect)
    (hlength : keys.length = t.size) :
    t.checkBijective keys = .error (.notBijective key slot defect) := by
  rcases t.checkBijective_cases keys hlength with ⟨-, hbijection⟩ | ⟨_, _, _, _, hrun, hfirst⟩
  · exact absurd h (hbijection.not_firstDefect i key slot defect)
  · obtain ⟨rfl, rfl, rfl⟩ := h.unique hfirst
    exact hrun

/-- Behind keys that are sent apart, the first key with a defect is reported. -/
theorem SendsApart.checkBijective_eq {t : Table H} {front back : List Key} {slots : List Nat}
    {key : Key} {slot : Nat} {defect : Defect} (h : t.SendsApart front slots)
    (hdefect : t.DefectAt (front ++ key :: back) front.length key slot defect)
    (hlength : (front ++ key :: back).length = t.size) :
    t.checkBijective (front ++ key :: back) = .error (.notBijective key slot defect) :=
  FirstDefect.checkBijective_eq ⟨hdefect, h.soundBefore (key :: back)⟩ hlength

theorem isBijectionOn_of_checkBijective {t : Table H} {keys : List Key}
    (h : t.checkBijective keys = .ok ()) : t.IsBijectionOn keys := by
  by_cases hlength : keys.length = t.size
  · rcases t.checkBijective_cases keys hlength with ⟨-, hbijection⟩ | ⟨_, _, _, _, hfailed, -⟩
    · exact hbijection
    · cases h.symm.trans hfailed
  · cases h.symm.trans (t.checkBijective_of_ne keys hlength)

/-- The check accepts exactly the tables that send the keys one-to-one onto their slots. Otherwise
it reports the numbers of slots and keys if these differ, and the first defect if they do not. A
key with which the first key with a defect collides is the only one. -/
theorem checkBijective_eq_iff (t : Table H) (keys : List Key) :
    (t.checkBijective keys = .ok () ↔ keys.length = t.size ∧
      (keys.map t.lookup).Perm ((List.range t.size).map fun slot => .ok (some slot))) ∧
    (∀ failure, t.checkBijective keys = .error failure ↔
      (keys.length ≠ t.size ∧ failure = .sizeMismatch t.size keys.length) ∨
      (keys.length = t.size ∧ ∃ i key slot defect, t.FirstDefect keys i key slot defect ∧
        failure = .notBijective key slot defect)) ∧
    ∀ i key slot other, t.FirstDefect keys i key slot (.collision other) →
      ∃ j, (j < i ∧ keys[j]? = some other ∧ t.lookup other = .ok (some slot)) ∧
        ∀ k < i, ∀ rival, keys[k]? = some rival → t.lookup rival = .ok (some slot) → k = j := by
  refine ⟨⟨?_, ?_⟩, fun failure => ⟨?_, ?_⟩, ?_⟩
  · intro hok
    by_cases hlength : keys.length = t.size
    · rcases t.checkBijective_cases keys hlength with ⟨-, hbijection⟩ | ⟨_, _, _, _, hfailed, -⟩
      · exact ⟨hlength, hbijection⟩
      · cases hok.symm.trans hfailed
    · cases hok.symm.trans (t.checkBijective_of_ne keys hlength)
  · rintro ⟨-, hbijection⟩
    exact IsBijectionOn.checkBijective_eq_ok hbijection
  · intro hfailed
    by_cases hlength : keys.length = t.size
    · rcases t.checkBijective_cases keys hlength with
        ⟨hok, -⟩ | ⟨i, key, slot, defect, hrun, hfirst⟩
      · cases hok.symm.trans hfailed
      · cases hfailed.symm.trans hrun
        exact .inr ⟨hlength, i, key, slot, defect, hfirst, rfl⟩
    · cases hfailed.symm.trans (t.checkBijective_of_ne keys hlength)
      exact .inl ⟨hlength, rfl⟩
  · rintro (⟨hlength, rfl⟩ | ⟨hlength, i, key, slot, defect, hfirst, rfl⟩)
    · exact t.checkBijective_of_ne keys hlength
    · rcases t.checkBijective_cases keys hlength with ⟨-, hbijection⟩ | ⟨_, _, _, _, hrun, hfirst'⟩
      · exact absurd hfirst (hbijection.not_firstDefect i key slot defect)
      · obtain ⟨rfl, rfl, rfl⟩ := hfirst.unique hfirst'
        exact hrun
  · rintro i key slot other ⟨hdefect, hsound⟩
    cases hdefect with
    | collision _ _ hj hother hsame =>
        refine ⟨_, ⟨hj, hother, hsame⟩, fun k hk rival hrival hlookup => ?_⟩
        exact hsound.position_inj k _ hk hj rival other slot hrival hother hlookup hsame

/-- The second key is reported, although the third one has no slot at all. -/
example : checkBijective (H := HashFamily.Arithmetic.shifted)
    ⟨#[.direct 0, .unset, .displacement 1]⟩ [0, 3, 1] =
      .error (.notBijective 3 0 (.collision 0)) := by
  decide +kernel

end PerfectHash.Table
