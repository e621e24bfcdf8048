namespace AffinityHeap

structure SortedMap (α : Type) where
  entries : List (Nat × α)
  sorted : entries.Pairwise (fun x y => x.1 < y.1)
  deriving DecidableEq

namespace SortedMap

variable {α β : Type}

def empty : SortedMap α := ⟨[], .nil⟩

def singleton (k : Nat) (v : α) : SortedMap α := ⟨[(k, v)], List.pairwise_singleton ..⟩

def insertEntry (k : Nat) (v : α) : List (Nat × α) → List (Nat × α)
  | [] => [(k, v)]
  | (j, w) :: rest =>
      if k < j then (k, v) :: (j, w) :: rest
      else if k = j then (k, v) :: rest
      else (j, w) :: insertEntry k v rest

theorem mem_insertEntry {k : Nat} {v : α} {x : Nat × α} :
    ∀ {l : List (Nat × α)}, x ∈ insertEntry k v l → x = (k, v) ∨ x ∈ l := by
  intro l
  induction l with
  | nil => intro h; simpa [insertEntry] using h
  | cons y rest ih =>
      obtain ⟨j, w⟩ := y
      intro h
      simp only [insertEntry] at h
      split at h
      · simpa using h
      · split at h
        · rcases List.mem_cons.1 h with h | h
          · exact .inl h
          · exact .inr (List.mem_cons_of_mem _ h)
        · rcases List.mem_cons.1 h with h | h
          · exact .inr (h ▸ List.mem_cons_self ..)
          · rcases ih h with h | h
            · exact .inl h
            · exact .inr (List.mem_cons_of_mem _ h)

theorem sorted_insertEntry {k : Nat} {v : α} :
    ∀ {l : List (Nat × α)}, l.Pairwise (fun x y => x.1 < y.1) →
      (insertEntry k v l).Pairwise (fun x y => x.1 < y.1) := by
  intro l
  induction l with
  | nil => intro _; exact List.pairwise_singleton ..
  | cons y rest ih =>
      obtain ⟨j, w⟩ := y
      intro h
      obtain ⟨hj, hrest⟩ := List.pairwise_cons.1 h
      simp only [insertEntry]
      split
      · rename_i hk
        refine List.pairwise_cons.2 ⟨?_, h⟩
        intro z hz
        rcases List.mem_cons.1 hz with rfl | hz
        · exact hk
        · exact Nat.lt_trans hk (hj z hz)
      · split
        · rename_i hk
          subst hk
          exact List.pairwise_cons.2 ⟨hj, hrest⟩
        · refine List.pairwise_cons.2 ⟨?_, ih hrest⟩
          intro z hz
          rcases mem_insertEntry hz with rfl | hz
          · show j < k
            omega
          · exact hj z hz

def insert (m : SortedMap α) (k : Nat) (v : α) : SortedMap α :=
  ⟨insertEntry k v m.entries, sorted_insertEntry m.sorted⟩

def filter (m : SortedMap α) (keep : Nat → α → Bool) : SortedMap α :=
  ⟨m.entries.filter (fun x => keep x.1 x.2), m.sorted.filter _⟩

def erase (m : SortedMap α) (k : Nat) : SortedMap α :=
  m.filter (fun j _ => j != k)

def find? (m : SortedMap α) (k : Nat) : Option α :=
  (m.entries.find? (fun x => x.1 == k)).map (·.2)

def contains (m : SortedMap α) (k : Nat) : Bool := (m.find? k).isSome

/-- The entry with the greatest key under `k`. -/
def below? (m : SortedMap α) (k : Nat) : Option (Nat × α) :=
  (m.entries.takeWhile (fun x => x.1 < k)).getLast?

/-- The entry with the greatest key that is not above `k`. -/
def floor? (m : SortedMap α) (k : Nat) : Option (Nat × α) := m.below? (k + 1)

theorem find?_insertEntry {k : Nat} {v : α} (j : Nat) :
    ∀ {l : List (Nat × α)}, l.Pairwise (fun x y => x.1 < y.1) →
      (insertEntry k v l).find? (fun x => x.1 == j) =
        if k = j then some (k, v) else l.find? (fun x => x.1 == j) := by
  intro l
  induction l with
  | nil => intro _; by_cases h : k = j <;> simp [insertEntry, h]
  | cons y rest ih =>
      obtain ⟨i, w⟩ := y
      intro hl
      have hrest := ih (List.pairwise_cons.1 hl).2
      simp only [insertEntry]
      by_cases h1 : k < i
      · by_cases h : k = j
        · subst h
          simp [h1]
        · simp [h1, h]
      · by_cases h2 : k = i
        · subst h2
          by_cases h : k = j <;> simp [h]
        · by_cases h3 : i = j
          · subst h3
            simp [h1, h2]
          · simp [h1, h2, h3, hrest]

theorem find?_insert (m : SortedMap α) (k j : Nat) (v : α) :
    (m.insert k v).find? j = if k = j then some v else m.find? j := by
  simp only [find?, insert, find?_insertEntry j m.sorted]
  split <;> rfl

theorem find?_erase (m : SortedMap α) (k j : Nat) :
    (m.erase k).find? j = if k = j then none else m.find? j := by
  obtain ⟨l, hl⟩ := m
  simp only [find?, erase, filter, List.find?_filter]
  by_cases h : k = j
  · subst h
    simp
  · simp only [h, if_false]
    congr 2
    funext x
    by_cases hx : x.1 = j
    · simp [hx, Ne.symm h]
    · simp [hx]

def keys (m : SortedMap α) : List Nat := m.entries.map (·.1)

def values (m : SortedMap α) : List α := m.entries.map (·.2)

def size (m : SortedMap α) : Nat := m.entries.length

def ofList (l : List (Nat × α)) : SortedMap α :=
  l.foldl (fun m x => m.insert x.1 x.2) empty

end SortedMap

end AffinityHeap
