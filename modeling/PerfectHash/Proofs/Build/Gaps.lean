import Mathlib.Data.List.Sort
import PerfectHash.Proofs.Build.Homes
import PerfectHash.Proofs.Build.Reorder
import PerfectHash.Proofs.Build.Report

set_option autoImplicit false

/-! # Single keys fill the gaps

All buckets of several keys are placed before those of one key, and these are placed by ascending
index, each at the least free slot. Slots are never given back, so a slot that is the least free
one leaves only taken slots below it (`Chosen.mem_claimed_of_le`), and a bucket of one key that is
placed later gets a larger slot. So in a built table the slots of the buckets of one key ascend
with the index of the bucket, and they are the slots that the other keys leave over
(`Table.direct_slots_fill_gaps`).

This leaves no choice once the salts are known: the salts take their slots, and the single keys
fill the gaps from left to right. A table is determined by its keys and its salts, whatever the
bounds and windows were under which they were found.
-/

namespace PerfectHash

variable {H : HashFamily}

/-! ## Lists of entries by their parts -/

/-- The slot of an entry, if it has one of its own. -/
def Entry.slot? : Entry → Option Nat
  | .direct slot => some slot
  | _ => none

theorem Entry.slot?_eq_some_iff (entry : Entry) (slot : Nat) :
    entry.slot? = some slot ↔ entry = .direct slot := by
  cases entry <;> simp [slot?]

theorem Entry.salt?_eq_some_iff (entry : Entry) (salt : Salt) :
    entry.salt? = some salt ↔ entry = .displacement salt := by
  cases entry <;> simp [salt?]

/-- Only the entries of arity `1` have a slot, and only those of arity `2` have a salt. -/
theorem Entry.isSome_parts (entry : Entry) :
    entry.slot?.isSome = decide (entry.arity = 1) ∧
      entry.salt?.isSome = decide (entry.arity = 2) := by
  cases entry <;> exact ⟨rfl, rfl⟩

theorem Entry.eq_of_parts (entry other : Entry) (harity : entry.arity = other.arity)
    (hsalt : entry.salt? = other.salt?) (hslot : entry.slot? = other.slot?) : entry = other := by
  cases entry with
  | unset =>
      cases other with
      | unset => rfl
      | direct slot => cases harity
      | displacement salt => cases harity
  | direct slot => exact ((slot?_eq_some_iff other slot).mp hslot.symm).symm
  | displacement salt => exact ((salt?_eq_some_iff other salt).mp hsalt.symm).symm

/-- The values that are there, with the places where there are some, tell all values. -/
theorem map_eq_of_filterMap_eq {α β : Type} (f : α → Option β) (l l' : List α)
    (hplaces : l.map (fun a => (f a).isSome) = l'.map fun a => (f a).isSome)
    (hvalues : l.filterMap f = l'.filterMap f) : l.map f = l'.map f := by
  induction l generalizing l' with
  | nil =>
      obtain rfl := List.map_eq_nil_iff.mp hplaces.symm
      rfl
  | cons a l ih =>
      cases l' with
      | nil => cases hplaces
      | cons a' l' =>
          rw [List.map_cons, List.map_cons, List.cons.injEq] at hplaces
          obtain ⟨hplace, hplaces⟩ := hplaces
          rw [List.map_cons, List.map_cons]
          cases hvalue : f a with
          | none =>
              rw [hvalue, Option.isSome_none, eq_comm, Option.isSome_eq_false_iff,
                Option.isNone_iff_eq_none] at hplace
              rw [List.filterMap_cons_none hvalue, List.filterMap_cons_none hplace] at hvalues
              rw [hplace, ih l' hplaces hvalues]
          | some value =>
              rw [hvalue, Option.isSome_some, eq_comm, Option.isSome_iff_exists] at hplace
              obtain ⟨value', hvalue'⟩ := hplace
              rw [List.filterMap_cons_some hvalue, List.filterMap_cons_some hvalue',
                List.cons.injEq] at hvalues
              rw [hvalue', hvalues.1, ih l' hplaces hvalues.2]

/-- The arities tell at which places the salts and the slots are. -/
theorem map_parts_eq (entries entries' : List Entry)
    (harity : entries.map Entry.arity = entries'.map Entry.arity) :
    (entries.filterMap Entry.salt? = entries'.filterMap Entry.salt? →
      entries.map Entry.salt? = entries'.map Entry.salt?) ∧
    (entries.filterMap Entry.slot? = entries'.filterMap Entry.slot? →
      entries.map Entry.slot? = entries'.map Entry.slot?) := by
  have hplaces : ∀ arity, entries.map (fun entry => decide (entry.arity = arity)) =
      entries'.map fun entry => decide (entry.arity = arity) := by
    intro arity
    simpa only [List.map_map, Function.comp_def] using
      congrArg (List.map fun a => decide (a = arity)) harity
  constructor
  · apply map_eq_of_filterMap_eq
    simp only [(Entry.isSome_parts _).2, hplaces]
  · apply map_eq_of_filterMap_eq
    simp only [(Entry.isSome_parts _).1, hplaces]

theorem entries_eq_of_parts (entries entries' : List Entry)
    (harity : entries.map Entry.arity = entries'.map Entry.arity)
    (hsalts : entries.map Entry.salt? = entries'.map Entry.salt?)
    (hslots : entries.map Entry.slot? = entries'.map Entry.slot?) : entries = entries' := by
  have hlength : entries.length = entries'.length := by
    simpa only [List.length_map] using congrArg List.length harity
  apply List.ext_getElem hlength
  intro b hb hb'
  apply Entry.eq_of_parts
  · simpa [hb, hb'] using congrArg (·[b]?) harity
  · simpa [hb, hb'] using congrArg (·[b]?) hsalts
  · simpa [hb, hb'] using congrArg (·[b]?) hslots

/-! ## The slots of single keys ascend -/

namespace Greedy

theorem leastFree_eq_some_of_choose (n : Nat) (claimed : List Nat) (bound : Salt)
    (keys : List Key) (slot : Nat) (h : choose H n claimed bound keys = some (.direct slot)) :
    leastFree n claimed = some slot := by
  match keys with
  | [] => cases h
  | [_] =>
      rw [choose_single, Option.map_eq_some_iff] at h
      obtain ⟨least, hleast, heq⟩ := h
      cases heq
      exact hleast
  | first :: second :: rest =>
      rw [choose_multi, Option.map_eq_some_iff] at h
      obtain ⟨salt, -, heq⟩ := h
      cases heq

namespace History

variable {bound : Salt} {keys : List Key} {history : History}

/-- Below the slot of a single key all slots are claimed, and they stay so. -/
theorem Chosen.mem_claimed_of_le (h : history.Chosen H bound keys) (b slot : Nat)
    (hmem : (b, .direct slot) ∈ history) (lower : Nat) (hlower : lower ≤ slot) :
    lower ∈ claimed H keys history := by
  induction history with
  | nil => cases hmem
  | cons visit history ih =>
      rcases visit with ⟨c, entry⟩
      rw [claimed, List.mem_append]
      rcases List.mem_cons.mp hmem with heq | hmem
      · cases heq
        obtain ⟨-, -, hbelow⟩ :=
          (leastFree_eq_some_iff _ _ slot).mp (leastFree_eq_some_of_choose _ _ _ _ slot h.1)
        rcases Nat.lt_or_eq_of_le hlower with hlt | rfl
        · exact .inr (hbelow lower hlt)
        · exact .inl (List.mem_singleton.mpr rfl)
      · exact .inr (ih h.2 hmem)

/-- Of two single keys the one that is placed later gets the larger slot. -/
theorem Chosen.pairwise_slots (h : history.Chosen H bound keys) :
    history.Pairwise fun later earlier => ∀ slot slot', later.2 = .direct slot →
      earlier.2 = .direct slot' → slot' < slot := by
  induction history with
  | nil => exact .nil
  | cons visit history ih =>
      refine List.pairwise_cons.mpr ⟨?_, ih h.2⟩
      rcases visit with ⟨c, entry⟩
      rintro ⟨b, other⟩ hmem slot slot' rfl rfl
      obtain ⟨-, hfree, -⟩ :=
        (leastFree_eq_some_iff _ _ slot).mp (leastFree_eq_some_of_choose _ _ _ _ slot h.1)
      by_contra hle
      exact hfree (h.2.mem_claimed_of_le b slot' hmem slot (Nat.not_lt.mp hle))

section Visits

variable (h : ofOrder H bound keys (visits H keys) = .ok history)
include h

/-- In a run over the visits single keys are placed by ascending bucket and at ascending slots. -/
theorem pairwise_single_of_visits : history.Pairwise fun later earlier => ∀ slot slot',
    later.2 = .direct slot → earlier.2 = .direct slot' → earlier.1 < later.1 ∧ slot' < slot := by
  obtain ⟨hmap, hchosen⟩ := (ofOrder_eq_ok_iff bound keys _ history).mp h
  -- The last visit is in front, so the history has the order of the visits backwards.
  have horder : (history.map Prod.fst).Pairwise fun c b =>
      (group H keys c).length < (group H keys b).length ∨
        (group H keys b).length = (group H keys c).length ∧ b < c := by
    rw [hmap, List.pairwise_reverse]
    exact pairwise_visits keys
  refine ((List.pairwise_map.mp horder).and hchosen.pairwise_slots).imp_of_mem ?_
  rintro ⟨c, entry⟩ ⟨b, other⟩ hlater hearlier ⟨hbefore, hslots⟩ slot slot' rfl rfl
  have hone : (group H keys c).length = 1 := (hchosen.suits c _ hlater).1
  have hone' : (group H keys b).length = 1 := (hchosen.suits b _ hearlier).1
  refine ⟨?_, hslots slot slot' rfl rfl⟩
  show b < c
  simp only [hone, hone'] at hbefore
  omega

theorem slot_lt_slot_of_visits (b c slot slot' : Nat) (hb : (b, .direct slot) ∈ history)
    (hc : (c, .direct slot') ∈ history) (hlt : b < c) : slot < slot' := by
  have hsingle := pairwise_single_of_visits h
  -- Either of two visits may be the later one, but the buckets tell which one it is.
  have hall : ∀ ⦃visit⦄, visit ∈ history → ∀ ⦃other⦄, other ∈ history → ∀ slot slot',
      visit.2 = .direct slot → other.2 = .direct slot' → visit.1 < other.1 → slot < slot' := by
    refine List.Pairwise.forall_of_forall_of_flip ?_ ?_ ?_
    · intro visit _ slot slot' _ _ hself
      omega
    · refine hsingle.imp fun {later earlier} hless slot slot' hslot hslot' hlt => ?_
      have hbefore := (hless slot slot' hslot hslot').1
      omega
    · refine hsingle.imp fun {later earlier} hless slot slot' hslot hslot' _ => ?_
      exact (hless slot' slot hslot' hslot).2
  exact hall hb hc slot slot' rfl rfl hlt

end Visits

end History

end Greedy

/-! ## The slots of a table -/

namespace Table

open Greedy (History)

/-- The slots of the single keys, by ascending bucket. -/
def directSlots (t : Table H) : List Nat := t.entries.toList.filterMap Entry.slot?

def salts (t : Table H) : List Salt := t.entries.toList.filterMap Entry.salt?

/-- The slot of a key under the salt of its home bucket, if that has one. -/
def displacedSlot (t : Table H) (key : Key) : Option Nat :=
  (t.entries[H.home t.size key]?.bind Entry.salt?).map fun salt => H.slot t.size salt key

def displacedSlots (t : Table H) (keys : List Key) : List Nat := keys.filterMap t.displacedSlot

theorem mem_directSlots (t : Table H) (slot : Nat) :
    slot ∈ t.directSlots ↔ ∃ b : Nat, t.entries[b]? = some (.direct slot) := by
  rw [directSlots, List.mem_filterMap]
  simp only [Entry.slot?_eq_some_iff, exists_eq_right]
  rw [List.mem_iff_getElem?]
  simp only [Array.getElem?_toList]

theorem mem_displacedSlots (t : Table H) (keys : List Key) (slot : Nat) :
    slot ∈ t.displacedSlots keys ↔ ∃ key ∈ keys, ∃ salt,
      t.entries[H.home t.size key]? = some (.displacement salt) ∧
        H.slot t.size salt key = slot := by
  simp only [displacedSlots, displacedSlot, List.mem_filterMap, Option.map_eq_some_iff,
    Option.bind_eq_some_iff, Entry.salt?_eq_some_iff, exists_eq_right]

theorem displacedSlots_congr (t t' : Table H) (keys : List Key)
    (h : t.entries.toList.map Entry.salt? = t'.entries.toList.map Entry.salt?) :
    t.displacedSlots keys = t'.displacedSlots keys := by
  have hsize : t.size = t'.size := by simpa [size] using congrArg List.length h
  have hsalt : ∀ b : Nat, t.entries[b]?.bind Entry.salt? = t'.entries[b]?.bind Entry.salt? := by
    intro b
    simpa [Option.bind_map, Function.comp_def] using congrArg (fun salts => salts[b]?.bind id) h
  have hslot : t.displacedSlot = t'.displacedSlot := by
    funext key
    rw [displacedSlot, displacedSlot, hsize, hsalt]
  rw [displacedSlots, displacedSlots, hslot]

section Serves

variable {t : Table H} {bound : Salt} {keys : List Key} (h : t.Serves bound keys)
include h

/-- A slot of its own stands for a key. -/
theorem Serves.exists_single (b slot : Nat) (hentry : t.entries[b]? = some (.direct slot)) :
    slot < keys.length ∧ ∃ key ∈ keys, H.home keys.length key = b := by
  have hb : b < keys.length := by
    rw [← h.size_eq]
    exact (Array.getElem?_eq_some_iff.mp hentry).1
  obtain ⟨entry, hentry', hsuits⟩ := h.suits b hb
  cases hentry.symm.trans hentry'
  obtain ⟨hone, hslot⟩ := hsuits
  have hpos : 0 < (Greedy.group H keys b).length := by omega
  obtain ⟨key, hmem⟩ := List.exists_mem_of_length_pos hpos
  exact ⟨hslot, key, (Greedy.mem_group H keys b key).mp hmem⟩

/-- The single keys have the slots that the others leave over. -/
theorem Serves.mem_directSlots_iff (slot : Nat) :
    slot ∈ t.directSlots ↔ slot < keys.length ∧ slot ∉ t.displacedSlots keys := by
  have hpos := h.bijective.size_pos
  rw [mem_directSlots, mem_displacedSlots]
  constructor
  · rintro ⟨b, hdirect⟩
    obtain ⟨hslot, single, hsingle, hhome⟩ := h.exists_single b slot hdirect
    rw [← hhome, ← h.size_eq] at hdirect
    refine ⟨hslot, ?_⟩
    rintro ⟨key, hkey, salt, hsalt, hsame⟩
    -- A displaced key with the slot of a single key would be that key.
    have hfound := (t.lookup_eq_some_iff single slot (hpos single hsingle)).mpr (.inl hdirect)
    have hfound' := (t.lookup_eq_some_iff key slot (hpos key hkey)).mpr (.inr ⟨salt, hsalt, hsame⟩)
    obtain rfl := h.bijective.lookup_inj single key hsingle hkey (hfound.trans hfound'.symm)
    cases hdirect.symm.trans hsalt
  · rintro ⟨hslot, hfree⟩
    obtain ⟨key, hkey, hfound⟩ := h.exists_key slot hslot
    rcases (t.lookup_eq_some_iff key slot (hpos key hkey)).mp hfound with hdirect | hdisplaced
    · exact ⟨_, hdirect⟩
    · exact absurd ⟨key, hkey, hdisplaced⟩ hfree

end Serves

theorem pairwise_directSlots_of_visits (bound : Salt) (keys : List Key) (history : History)
    (h : History.ofOrder H bound keys (Greedy.visits H keys) = .ok history) :
    (History.table H keys history).directSlots.Pairwise (· < ·) := by
  have hvisit : ∀ b slot, (History.entries keys.length history)[b]? = some (.direct slot) →
      (b, Entry.direct slot) ∈ history :=
    fun b slot => Greedy.History.mem_of_getElem?_entries _ history b _ nofun
  unfold directSlots
  rw [List.pairwise_filterMap, List.pairwise_iff_getElem]
  intro b c hb hc hlt slot hslot slot' hslot'
  rw [Entry.slot?_eq_some_iff] at hslot hslot'
  exact Greedy.History.slot_lt_slot_of_visits h b c slot slot'
    (hvisit b slot (List.getElem?_eq_some_iff.mpr ⟨hb, hslot⟩))
    (hvisit c slot' (List.getElem?_eq_some_iff.mpr ⟨hc, hslot'⟩)) hlt

/-! ## Built tables -/

section Build

variable {options : BuildOptions} {keys : List Key} {t : Table H}
  (h : build H options keys = .ok t)
include h

theorem pairwise_directSlots_of_build : t.directSlots.Pairwise (· < ·) := by
  obtain ⟨-, history, hrun, rfl⟩ := (build_eq_ok_iff options keys t).mp h
  exact pairwise_directSlots_of_visits options.maxSalt keys history hrun

theorem map_arity_of_build :
    t.entries.toList.map Entry.arity = (Greedy.sizes H keys).map (min · 2) := by
  obtain ⟨-, history, hrun, rfl⟩ := (build_eq_ok_iff options keys t).mp h
  exact Greedy.History.map_arity_of_visits hrun

/-- The single keys fill the gaps from left to right. -/
theorem directSlots_eq_of_build :
    t.directSlots = (List.range keys.length).filter (· ∉ t.displacedSlots keys) := by
  apply (pairwise_directSlots_of_build h).eq_of_mem_iff (List.pairwise_lt_range.filter _)
  intro slot
  rw [(serves_of_build options keys t h).mem_directSlots_iff, List.mem_filter, List.mem_range,
    decide_eq_true_eq]

theorem eq_of_build_of_salts {options' : BuildOptions} {t' : Table H}
    (h' : build H options' keys = .ok t') (hsalts : t'.salts = t.salts) : t' = t := by
  have harity := (map_arity_of_build h').trans (map_arity_of_build h).symm
  obtain ⟨hsalt, hslot⟩ := map_parts_eq t'.entries.toList t.entries.toList harity
  have hdirect : t'.directSlots = t.directSlots := by
    rw [directSlots_eq_of_build h', directSlots_eq_of_build h,
      displacedSlots_congr t' t keys (hsalt hsalts)]
  have hentries := entries_eq_of_parts _ _ harity (hsalt hsalts) (hslot hdirect)
  exact congrArg Table.mk (Array.toList_inj.mp hentries)

end Build

/-- In a built table the slots of the single keys ascend with their buckets, and they are the slots
to which no salt sends a key: the first single key has the least one, the second the next, and so
on. The table is determined by its keys, in any order, and its salts. -/
theorem direct_slots_fill_gaps (H : HashFamily) (options : BuildOptions) (keys : List Key)
    (t : Table H) (h : build H options keys = .ok t) :
    t.directSlots.Pairwise (· < ·) ∧
    (∀ slot, slot ∈ t.directSlots ↔ slot < keys.length ∧
      ∀ key ∈ keys, ∀ salt, t.entries[H.home keys.length key]? = some (.displacement salt) →
        H.slot keys.length salt key ≠ slot) ∧
    t.directSlots = (List.range keys.length).filter (· ∉ t.displacedSlots keys) ∧
    ∀ (options' : BuildOptions) (keys' : List Key) (t' : Table H), keys'.Perm keys →
      build H options' keys' = .ok t' → t'.salts = t.salts → t' = t := by
  have hserves := serves_of_build options keys t h
  refine ⟨pairwise_directSlots_of_build h, fun slot => ?_, directSlots_eq_of_build h, ?_⟩
  · rw [hserves.mem_directSlots_iff, mem_displacedSlots, hserves.size_eq]
    simp only [not_exists, not_and, ne_eq]
  · intro options' keys' t' hperm h' hsalts
    obtain ⟨⟨hne, hnodup⟩, -⟩ := (build_eq_ok_iff options' keys' t').mp h'
    rw [build_eq_map, buildWithReport_eq_of_perm hperm options' hne hnodup, ← build_eq_map] at h'
    exact eq_of_build_of_salts h h' hsalts

open HashFamily.Arithmetic in
/-- The keys `3` and `8` are sent to the slots `4` and `2`, and the other three keys fill the gaps.
Any table for these keys in which the salt is `1` is this one. -/
theorem direct_slots_fill_gaps_halving :
    ∃ t, build halving { maxSalt := 4 } [10, 3, 7, 21, 8] = .ok t ∧
      t.displacedSlots [10, 3, 7, 21, 8] = [4, 2] ∧ t.directSlots = [0, 1, 3] ∧
      ∀ t', build halving { maxSalt := 9 } [8, 21, 7, 3, 10] = .ok t' → t'.salts = [1] →
        t' = t := by
  obtain ⟨-, -, hgaps, hunique⟩ := direct_slots_fill_gaps halving _ _ _ build_halving
  exact ⟨_, build_halving, by decide +kernel, hgaps.trans (by decide +kernel),
    fun t' h' hsalts => hunique _ _ t' (by decide) h' hsalts⟩

end Table

end PerfectHash
