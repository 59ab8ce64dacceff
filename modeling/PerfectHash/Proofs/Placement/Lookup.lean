import Mathlib.Data.List.Flatten
import PerfectHash.Proofs.Placement.Claims
import PerfectHash.Proofs.Table.Bijection

set_option autoImplicit false

/-! # Lookup finds the claims

A lookup does not know the run that made its table: it reads the entry of the home bucket and
computes the slot again. A bucket that was visited more than once keeps the entry of its last
visit, while the slots of the visits before stay claimed. So the table is decided by the last
visits (`History.latest`), and what they claim is a part of what the run has claimed: the keys
of the visited buckets are sent apart (`Chosen.sendsApart`), in whatever order, and however often,
the buckets were visited.

If every home was visited, then all keys are among these, and as there are as many keys as slots
the table is a bijection (`Chosen.isBijectionOn`).
-/

namespace PerfectHash

variable {H : HashFamily}

namespace Greedy.History

/-! ## The last visits -/

/-- The visits that no later visit of the same bucket follows. -/
def latest : History → History
  | [] => []
  | visit :: history => visit :: (latest history).filter fun other => other.1 ≠ visit.1

theorem latest_sublist (history : History) : (latest history).Sublist history := by
  induction history with
  | nil => exact .slnil
  | cons visit history ih => exact (List.filter_sublist.trans ih).cons_cons visit

theorem mem_map_latest (history : History) (b : Nat) :
    b ∈ (latest history).map Prod.fst ↔ b ∈ history.map Prod.fst := by
  induction history with
  | nil => rfl
  | cons visit history ih =>
      rw [List.mem_map] at ih
      by_cases hb : b = visit.1
      · simp [latest, hb]
      · simp only [latest, List.map_cons, List.mem_cons, hb, false_or, ← ih, List.mem_map,
          List.mem_filter, decide_eq_true_eq]
        constructor
        · rintro ⟨other, ⟨hother, -⟩, rfl⟩
          exact ⟨other, hother, rfl⟩
        · rintro ⟨other, hother, rfl⟩
          exact ⟨other, ⟨hother, hb⟩, rfl⟩

theorem nodup_latest (history : History) : ((latest history).map Prod.fst).Nodup := by
  induction history with
  | nil => exact .nil
  | cons visit history ih =>
      rw [latest, List.map_cons, List.nodup_cons]
      refine ⟨?_, ih.sublist (List.filter_sublist.map Prod.fst)⟩
      intro hmem
      obtain ⟨other, hother, heq⟩ := List.mem_map.mp hmem
      have hne : other.1 ≠ visit.1 := by simpa using (List.mem_filter.mp hother).2
      exact hne heq

/-! ## Entries -/

theorem getElem?_entries_cons_ne (n : Nat) (history : History) (c b : Nat) (entry : Entry)
    (h : c ≠ b) : (entries n ((c, entry) :: history))[b]? = (entries n history)[b]? := by
  cases entry with
  | unset => rfl
  | direct slot => exact List.getElem?_set_ne h
  | displacement salt => exact List.getElem?_set_ne h

theorem getElem?_entries_of_not_mem (n : Nat) (history : History) (b : Nat) (hb : b < n)
    (h : b ∉ history.map Prod.fst) : (entries n history)[b]? = some .unset := by
  induction history with
  | nil => simp [entries, hb]
  | cons visit history ih =>
      rcases visit with ⟨c, entry⟩
      rw [List.map_cons, List.mem_cons, not_or] at h
      rw [getElem?_entries_cons_ne n history c b entry (Ne.symm h.1), ih h.2]

theorem mem_of_getElem?_entries (n : Nat) (history : History) (b : Nat) (entry : Entry)
    (hne : entry ≠ .unset) (h : (entries n history)[b]? = some entry) : (b, entry) ∈ history := by
  induction history with
  | nil => exact absurd (List.eq_of_mem_replicate (List.mem_of_getElem? h)) hne
  | cons visit history ih =>
      rcases visit with ⟨c, other⟩
      by_cases hc : c = b
      · subst hc
        cases other with
        | unset => exact List.mem_cons_of_mem _ (ih h)
        | direct slot =>
            have hentry : entry = .direct slot := by grind [entries]
            exact hentry ▸ List.mem_cons_self
        | displacement salt =>
            have hentry : entry = .displacement salt := by grind [entries]
            exact hentry ▸ List.mem_cons_self
      · rw [getElem?_entries_cons_ne n history c b other hc] at h
        exact List.mem_cons_of_mem _ (ih h)

/-- Every entry that was set is the one of some visit. -/
theorem exists_visit_of_mem_entries (n : Nat) (history : History) (entry : Entry)
    (h : entry ∈ entries n history) : entry = .unset ∨ ∃ b, (b, entry) ∈ history := by
  by_cases hunset : entry = .unset
  · exact .inl hunset
  · obtain ⟨b, hb⟩ := List.getElem?_of_mem h
    exact .inr ⟨b, mem_of_getElem?_entries n history b entry hunset hb⟩

variable {bound : Salt} {keys : List Key} {history : History}

/-- Visits of an empty bucket do not write its entry. -/
theorem Chosen.getElem?_entries_of_group_eq_nil (h : history.Chosen H bound keys) (b : Nat)
    (hb : b < keys.length) (hgroup : group H keys b = []) :
    (entries keys.length history)[b]? = some .unset := by
  induction history with
  | nil => simp [entries, hb]
  | cons visit history ih =>
      rcases visit with ⟨c, entry⟩
      by_cases hc : c = b
      · subst hc
        have hentry := h.1
        rw [hgroup, choose_nil] at hentry
        obtain rfl := Option.some.inj hentry
        exact ih h.2
      · rw [getElem?_entries_cons_ne _ history c b entry hc]
        exact ih h.2

/-- A visited bucket has the entry of its last visit. -/
theorem Chosen.getElem?_entries_of_mem_latest (h : history.Chosen H bound keys) (b : Nat)
    (entry : Entry) (hb : b < keys.length) (hmem : (b, entry) ∈ latest history) :
    (entries keys.length history)[b]? = some entry := by
  induction history with
  | nil => cases hmem
  | cons visit history ih =>
      rcases visit with ⟨c, other⟩
      rcases List.mem_cons.mp hmem with heq | hmem
      · cases heq
        have hlt : b < (entries keys.length history).length := by rwa [length_entries]
        cases entry with
        | unset =>
            have hgroup : group H keys b = [] := choose_suits _ _ _ _ _ h.1
            exact Chosen.getElem?_entries_of_group_eq_nil h.2 b hb hgroup
        | direct slot => exact List.getElem?_set_self hlt
        | displacement salt => exact List.getElem?_set_self hlt
      · obtain ⟨hmem, hne⟩ := List.mem_filter.mp hmem
        have hc : c ≠ b := Ne.symm (by simpa using hne)
        rw [getElem?_entries_cons_ne _ history c b other hc, ih h.2 hmem]

theorem claimed_eq_flatMap (keys : List Key) (history : History) : claimed H keys history =
    history.flatMap fun visit => slotsOf H keys.length (group H keys visit.1) visit.2 := by
  induction history with
  | nil => rfl
  | cons visit history ih =>
      rcases visit with ⟨b, entry⟩
      rw [claimed, ih, List.flatMap_cons]

/-- The last visits claim a part of what all visits claim. -/
theorem claimed_latest_sublist (keys : List Key) (history : History) :
    (claimed H keys (latest history)).Sublist (claimed H keys history) := by
  rw [claimed_eq_flatMap, claimed_eq_flatMap]
  exact (latest_sublist history).flatMap _

theorem Chosen.exists_choose (h : history.Chosen H bound keys) (b : Nat) (entry : Entry)
    (hmem : (b, entry) ∈ history) :
    ∃ claimed, choose H keys.length claimed bound (group H keys b) = some entry := by
  induction history with
  | nil => cases hmem
  | cons visit history ih =>
      rcases List.mem_cons.mp hmem with rfl | hmem
      · exact ⟨_, h.1⟩
      · exact ih h.2 hmem

theorem Chosen.suits (h : history.Chosen H bound keys) (b : Nat) (entry : Entry)
    (hmem : (b, entry) ∈ history) : Suits keys.length bound (group H keys b) entry := by
  obtain ⟨claimed, hchoose⟩ := h.exists_choose b entry hmem
  exact choose_suits _ _ _ _ _ hchoose

end Greedy.History

/-! ## Lookups -/

/-- A chosen entry sends the keys of its bucket to the slots that were chosen. -/
theorem Greedy.map_resolve (n : Nat) (claimed : List Nat) (bound : Salt) (keys : List Key)
    (entry : Entry) (hn : ∀ key ∈ keys, 0 < n)
    (h : choose H n claimed bound keys = some entry) :
    (keys.map fun key => Table.resolve H n key entry) =
      (slotsOf H n keys entry).map fun slot => .ok (some slot) := by
  match keys with
  | [] =>
      cases h
      rfl
  | [_] =>
      rcases Option.map_eq_some_iff.mp h with ⟨slot, -, rfl⟩
      rfl
  | first :: second :: rest =>
      rcases Option.map_eq_some_iff.mp h with ⟨salt, -, rfl⟩
      unfold slotsOf HashFamily.slots
      rw [List.map_map]
      apply List.map_congr_left
      intro key hkey
      rw [Table.resolve, H.slotOf_of_pos n salt key (hn key hkey)]
      rfl

namespace Greedy.History

variable {bound : Salt} {keys : List Key} {history : History}

def table (H : HashFamily) (keys : List Key) (history : History) : Table H :=
  ⟨(entries keys.length history).toArray⟩

theorem size_table : (table H keys history).size = keys.length := by
  unfold Table.size table
  rw [List.size_toArray, length_entries]

theorem Chosen.lookup_table (h : history.Chosen H bound keys) (b : Nat) (entry : Entry)
    (hmem : (b, entry) ∈ latest history) :
    (group H keys b).map (table H keys history).lookup =
      (slotsOf H keys.length (group H keys b) entry).map fun slot => .ok (some slot) := by
  obtain ⟨claimed, hchoose⟩ := h.exists_choose b entry ((latest_sublist history).subset hmem)
  rw [← map_resolve _ _ _ _ _ (length_pos_of_mem_group keys b) hchoose]
  apply List.map_congr_left
  intro key hkey
  rcases (mem_group H keys b key).mp hkey with ⟨hkeys, hhome⟩
  have hb : b < keys.length := by
    rw [← hhome]
    exact H.home_lt keys.length key (List.length_pos_of_mem hkeys)
  have hentry : (table H keys history).entries[H.home (table H keys history).size key]? =
      some entry := by
    rw [size_table, hhome, table, List.getElem?_toArray]
    exact h.getElem?_entries_of_mem_latest b entry hb hmem
  rw [Table.lookup_eq_resolve _ _ _ hentry, size_table]

/-- The keys of the visited buckets have the slots that the last visits have claimed. -/
theorem Chosen.sendsApart (h : history.Chosen H bound keys) :
    (table H keys history).SendsApart (((latest history).map Prod.fst).flatMap (group H keys))
      (claimed H keys (latest history)) where
  lookup_eq := by
    rw [claimed_eq_flatMap, List.flatMap_map, List.map_flatMap, List.map_flatMap]
    apply List.flatMap_congr
    rintro ⟨b, entry⟩ hmem
    exact h.lookup_table b entry hmem
  lt_size slot hslot := by
    rw [size_table]
    exact h.claimed_lt slot ((claimed_latest_sublist keys history).subset hslot)
  nodup := h.nodup_claimed.sublist (claimed_latest_sublist keys history)

/-- The visited buckets hold the keys whose homes were visited. -/
theorem flatMap_latest_perm (history : History)
    (hall : ∀ key ∈ keys, H.home keys.length key ∈ history.map Prod.fst) :
    (((latest history).map Prod.fst).flatMap (group H keys)).Perm keys :=
  flatMap_group_perm_of_home_mem keys _ (nodup_latest history) fun key hkey =>
    (mem_map_latest history _).mpr (hall key hkey)

/-- A history that visits every home gives a bijection. -/
theorem Chosen.isBijectionOn (h : history.Chosen H bound keys)
    (hall : ∀ key ∈ keys, H.home keys.length key ∈ history.map Prod.fst) :
    (table H keys history).IsBijectionOn keys := by
  have hperm := flatMap_latest_perm history hall
  exact (h.sendsApart.isBijectionOn (by rw [hperm.length_eq, size_table])).perm hperm

end Greedy.History

/-! ## The visits -/

namespace Greedy

theorem home_mem_visits (keys : List Key) (key : Key) (hkey : key ∈ keys) :
    H.home keys.length key ∈ visits H keys := by
  have hlt := H.home_lt keys.length key (List.length_pos_of_mem hkey)
  exact (mem_visits keys _).mpr
    ⟨hlt, List.ne_nil_of_mem ((mem_group H keys _ key).mpr ⟨hkey, rfl⟩)⟩

/-- The groups that are visited make up all keys. -/
theorem flatMap_visits_perm (keys : List Key) :
    ((visits H keys).flatMap (group H keys)).Perm keys :=
  flatMap_group_perm_of_home_mem keys _ (nodup_visits keys) (home_mem_visits keys)

theorem length_visits_le (keys : List Key) : (visits H keys).length ≤ keys.length :=
  length_le_of_nodup_of_lt _ _ (nodup_visits keys) fun b hb => ((mem_visits keys b).mp hb).1

/-- A run over the visits that succeeds claims every slot and gives a bijection. -/
theorem History.isBijectionOn_of_visits (bound : Salt) (keys : List Key) (history : History)
    (h : History.ofOrder H bound keys (visits H keys) = .ok history) :
    (History.claimed H keys history).length = keys.length ∧
      (History.table H keys history).IsBijectionOn keys := by
  rcases (History.ofOrder_eq_ok_iff bound keys _ history).mp h with ⟨hmap, hchosen⟩
  constructor
  · rw [hchosen.length_claimed, hmap]
    exact (((List.reverse_perm _).flatMap_right _).trans (flatMap_visits_perm keys)).length_eq
  · refine hchosen.isBijectionOn fun key hkey => ?_
    rw [hmap, List.mem_reverse]
    exact home_mem_visits keys key hkey

end Greedy

end PerfectHash
