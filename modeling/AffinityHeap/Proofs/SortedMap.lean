import AffinityHeap.SortedMap
import Mathlib.Data.List.Sort

namespace AffinityHeap.SortedMap

variable {α : Type} {m : SortedMap α} {k j : Nat} {v w : α}

theorem mem_entries : (k, v) ∈ m.entries ↔ m.find? k = some v := by
  obtain ⟨l, hl⟩ := m
  simp only [find?]
  induction l with
  | nil => simp
  | cons x l ih =>
      obtain ⟨hx, hl⟩ := List.pairwise_cons.1 hl
      have hmem := ih hl
      by_cases hk : x.1 = k
      · subst hk
        have hnot : (x.1, v) ∉ l := fun h => Nat.lt_irrefl _ (hx (x.1, v) h)
        simp only [List.mem_cons, hnot, or_false, List.find?_cons_of_pos, BEq.rfl, Option.map_some,
          Option.some.injEq, Prod.ext_iff, true_and]
        exact eq_comm
      · have hne : (k, v) ≠ x := fun h => hk (h ▸ rfl)
        simp only [List.mem_cons, hne, false_or, hmem]
        rw [List.find?_cons_of_neg (by simpa using hk)]

theorem nodup_entries (m : SortedMap α) : m.entries.Nodup := by
  refine List.Pairwise.imp ?_ m.sorted
  rintro x y h rfl
  exact Nat.lt_irrefl _ h

theorem ext_find? {m' : SortedMap α} (h : ∀ k, m.find? k = m'.find? k) : m = m' := by
  have : Std.Asymm fun x y : Nat × α => x.1 < y.1 := ⟨fun _ _ => Nat.lt_asymm⟩
  have heq : m.entries = m'.entries := m.sorted.eq_of_mem_iff m'.sorted fun ⟨k, v⟩ => by
    rw [mem_entries, mem_entries, h]
  obtain ⟨l, hl⟩ := m
  obtain ⟨l', hl'⟩ := m'
  obtain rfl : l = l' := heq
  rfl

theorem mem_values : v ∈ m.values ↔ ∃ k, m.find? k = some v := by
  simp only [values, List.mem_map, Prod.exists, exists_eq_right, mem_entries]

theorem mem_keys : k ∈ m.keys ↔ ∃ v, m.find? k = some v := by
  simp only [keys, List.mem_map, Prod.exists, exists_and_right, exists_eq_right, mem_entries]

theorem find?_insert_self (m : SortedMap α) (k : Nat) (v : α) : (m.insert k v).find? k = some v := by
  rw [find?_insert, if_pos rfl]

theorem insert_of_find? (hk : m.find? k = some v) : m.insert k v = m := by
  refine ext_find? fun j => ?_
  rw [find?_insert]
  split
  · rename_i hkj
    rw [← hkj, hk]
  · rfl

theorem perm_of_find? {m' : SortedMap α} (hk : m.find? k = some v)
    (hm : ∀ j, m'.find? j = if k = j then none else m.find? j) :
    m.entries.Perm ((k, v) :: m'.entries) := by
  have hnot : (k, v) ∉ m'.entries := by simp [mem_entries, hm]
  refine (List.perm_ext_iff_of_nodup m.nodup_entries
    (List.nodup_cons.2 ⟨hnot, m'.nodup_entries⟩)).2 ?_
  rintro ⟨j, w⟩
  rw [List.mem_cons, mem_entries, mem_entries, hm]
  by_cases hkj : k = j
  · subst hkj
    simp [hk, eq_comm]
  · simp [hkj, Ne.symm hkj]

theorem entries_perm (hk : m.find? k = some v) : m.entries.Perm ((k, v) :: (m.erase k).entries) :=
  perm_of_find? hk (m.find?_erase k)

theorem entries_insert_perm (m : SortedMap α) (k : Nat) (v : α) :
    (m.insert k v).entries.Perm ((k, v) :: (m.erase k).entries) :=
  perm_of_find? (m.find?_insert_self k v) fun j => by
    rw [find?_erase, find?_insert]
    split <;> rfl

theorem sorted_keys (m : SortedMap α) : m.keys.Pairwise (· < ·) := List.pairwise_map.2 m.sorted

theorem keys_insert (hk : m.find? k = some v) (w : α) : (m.insert k w).keys = m.keys := by
  have hperm : (m.insert k w).keys.Perm m.keys :=
    ((m.entries_insert_perm k w).map Prod.fst).trans ((entries_perm hk).map Prod.fst).symm
  exact hperm.eq_of_pairwise (fun x y _ _ hxy hyx => absurd hyx (Nat.lt_asymm hxy))
    (sorted_keys _) (sorted_keys _)

theorem erase_of_find?_none (hk : m.find? k = none) : m.erase k = m := by
  have hall : ∀ x ∈ m.entries, (x.1 != k) = true := fun x hx => by
    have hne : x.1 ≠ k := fun h => by
      rw [mem_entries.1 (show (k, x.2) ∈ m.entries from h ▸ hx)] at hk
      cases hk
    simpa using hne
  simp only [erase, filter, List.filter_eq_self.2 hall]

theorem values_perm (hk : m.find? k = some v) : m.values.Perm (v :: (m.erase k).values) :=
  (entries_perm hk).map Prod.snd

theorem values_insert_perm (m : SortedMap α) (k : Nat) (v : α) :
    (m.insert k v).values.Perm (v :: (m.erase k).values) :=
  (m.entries_insert_perm k v).map Prod.snd

theorem find?_filter {keep : Nat → α → Bool} :
    (m.filter keep).find? k = some v ↔ m.find? k = some v ∧ keep k v = true := by
  rw [← mem_entries, ← mem_entries]
  exact List.mem_filter

theorem values_filter (m : SortedMap α) (keep : α → Bool) :
    (m.filter fun _ v => keep v).values = m.values.filter keep := by
  simp only [values, filter, List.filter_map]
  rfl

def map {β : Type} (f : α → β) (m : SortedMap α) : SortedMap β :=
  ⟨m.entries.map fun x => (x.1, f x.2), List.pairwise_map.2 m.sorted⟩

section Map

variable {β : Type} (f : α → β) (m : SortedMap α)

theorem keys_map : (m.map f).keys = m.keys := List.map_map ..

theorem values_map : (m.map f).values = m.values.map f := by
  simp only [values, map, List.map_map, Function.comp_def]

theorem find?_map (k : Nat) : (m.map f).find? k = (m.find? k).map f := by
  simp only [find?, map, List.find?_map, Option.map_map, Function.comp_def]

end Map

theorem mem_takeWhile {l : List (Nat × α)} (hl : l.Pairwise fun x y => x.1 < y.1)
    {x : Nat × α} : x ∈ l.takeWhile (fun y => y.1 < k) ↔ x ∈ l ∧ x.1 < k := by
  induction l with
  | nil => simp
  | cons y l ih =>
      obtain ⟨hy, hl⟩ := List.pairwise_cons.1 hl
      by_cases hk : y.1 < k
      · rw [List.takeWhile_cons_of_pos (by simpa using hk), List.mem_cons, List.mem_cons, ih hl]
        constructor
        · rintro (rfl | h)
          · exact ⟨.inl rfl, hk⟩
          · exact ⟨.inr h.1, h.2⟩
        · rintro ⟨rfl | h, hx⟩
          · exact .inl rfl
          · exact .inr ⟨h, hx⟩
      · rw [List.takeWhile_cons_of_neg (by simpa using hk)]
        refine ⟨fun h => absurd h List.not_mem_nil, ?_⟩
        rintro ⟨h, hx⟩
        rcases List.mem_cons.1 h with rfl | h
        · exact absurd hx hk
        · exact absurd (Nat.lt_trans (hy x h) hx) hk

theorem below?_eq_some (h : m.below? k = some (j, v)) :
    m.find? j = some v ∧ j < k ∧ ∀ i w, m.find? i = some w → i < k → i ≤ j := by
  obtain ⟨l, hl⟩ := List.getLast?_eq_some_iff.1 h
  have hmem : (j, v) ∈ m.entries ∧ j < k := by
    rw [← mem_takeWhile m.sorted, hl]
    exact List.mem_append_right _ (List.mem_singleton_self _)
  refine ⟨mem_entries.1 hmem.1, hmem.2, fun i w hi hik => ?_⟩
  have hin : (i, w) ∈ l ++ [(j, v)] := by
    rw [← hl]
    exact (mem_takeWhile m.sorted).2 ⟨mem_entries.2 hi, hik⟩
  have hsorted : (l ++ [(j, v)]).Pairwise fun x y => x.1 < y.1 :=
    hl ▸ m.sorted.sublist (List.takeWhile_sublist _)
  rcases List.mem_append.1 hin with hin | hin
  · exact Nat.le_of_lt ((List.pairwise_append.1 hsorted).2.2 _ hin _ (List.mem_singleton_self _))
  · obtain ⟨rfl, rfl⟩ := Prod.mk.inj (List.mem_singleton.1 hin)
    exact Nat.le_refl _

theorem below?_eq_none (h : m.below? k = none) (hj : m.find? j = some v) : k ≤ j := by
  rw [below?, List.getLast?_eq_none_iff] at h
  refine Nat.not_lt.1 fun hlt => ?_
  have hmem := (mem_takeWhile (k := k) m.sorted).2 ⟨mem_entries.2 hj, hlt⟩
  rw [h] at hmem
  exact List.not_mem_nil hmem

theorem mem_of_find?_foldl {l : List (Nat × α)}
    (h : (l.foldl (fun m x => m.insert x.1 x.2) m).find? k = some v) :
    (k, v) ∈ l ∨ m.find? k = some v := by
  induction l generalizing m with
  | nil => exact .inr h
  | cons x l ih =>
      rcases ih h with h | h
      · exact .inl (List.mem_cons_of_mem x h)
      · rw [find?_insert] at h
        by_cases hk : x.1 = k
        · rw [if_pos hk] at h
          rw [← hk, ← Option.some.inj h]
          exact .inl (List.mem_cons_self ..)
        · rw [if_neg hk] at h
          exact .inr h

theorem mem_of_find?_ofList {l : List (Nat × α)} (h : (ofList l).find? k = some v) :
    (k, v) ∈ l := by
  rcases mem_of_find?_foldl h with h | h
  · exact h
  · cases h

/-- Every value is found under the key that it gives itself. -/
def Keyed (m : SortedMap α) (f : α → Nat) : Prop := ∀ k v, m.find? k = some v → f v = k

namespace Keyed

variable {f : α → Nat}

theorem insert (hm : m.Keyed f) (hv : f v = k) : (m.insert k v).Keyed f := by
  intro j w hw
  rw [find?_insert] at hw
  split at hw
  · rename_i hk
    rw [← Option.some.inj hw, hv, hk]
  · exact hm j w hw

theorem erase (hm : m.Keyed f) (k : Nat) : (m.erase k).Keyed f := by
  intro j w hw
  rw [find?_erase] at hw
  split at hw
  · cases hw
  · exact hm j w hw

theorem filter (hm : m.Keyed f) (keep : Nat → α → Bool) : (m.filter keep).Keyed f :=
  fun j w hw => hm j w (find?_filter.1 hw).1

theorem find?_of_mem (hm : m.Keyed f) (hv : v ∈ m.values) : m.find? (f v) = some v := by
  obtain ⟨k, hk⟩ := mem_values.1 hv
  rw [hm k v hk]
  exact hk

end Keyed

end AffinityHeap.SortedMap
