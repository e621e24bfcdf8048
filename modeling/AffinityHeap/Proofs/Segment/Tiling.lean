import AffinityHeap.Proofs.Segment.Segments

namespace AffinityHeap

namespace Segments

variable {s : Segments} {total alignment offset length segment start stop size : Nat}
  {l : List (Nat × Nat)}

/-- Every place under the total lies in a segment. -/
def Covers (s : Segments) : Prop :=
  ∀ x < s.total, ∃ kind o n, s.Has o n kind ∧ o ≤ x ∧ x < o + n

theorem new_covers (total alignment : Nat) : (Segments.new total alignment).Covers := by
  intro x hx
  have hx : x < total := hx
  exact ⟨.available, 0, total, has_new.2 ⟨rfl, rfl, rfl, by omega⟩, Nat.zero_le x, by omega⟩

theorem Covers.reserve (hc : s.Covers) (hs : s.Sound) (hhas : s.Has offset segment .available)
    (hpos : 0 < length) (hle : length ≤ segment) : (s.cutOff offset segment length).Covers := by
  have hiff := has_cutOff hs hhas hpos hle
  intro x hx
  obtain ⟨kind, o, n, hold, hlow, hhigh⟩ := hc x hx
  by_cases hcut : (kind, o) = (.available, offset)
  · obtain ⟨rfl, rfl⟩ := Prod.mk.inj hcut
    obtain rfl := Option.some.inj (hold.symm.trans hhas)
    by_cases hin : x < o + length
    · exact ⟨.reserved, o, length, (hiff ..).2 (.inr (.inl ⟨rfl, rfl, rfl⟩)), hlow, hin⟩
    · exact ⟨.available, o + length, n - length,
        (hiff ..).2 (.inl ⟨rfl, rfl, rfl, by omega⟩), by omega, by omega⟩
  · exact ⟨kind, o, n, (hiff ..).2 (.inr (.inr ⟨hold, hcut⟩)), hlow, hhigh⟩

theorem Covers.release (hc : s.Covers) (hs : s.Sound) (hhas : s.Has offset length .reserved) :
    (s.joined offset length).Covers := by
  obtain ⟨start, stop, hj, hiff⟩ := exists_joins hs hhas
  have hle := hj.bounds hs hhas
  intro x hx
  by_cases hin : start ≤ x ∧ x < stop
  · exact ⟨.available, start, stop - start, (hiff ..).2 (.inl ⟨rfl, rfl, rfl⟩), by omega, by omega⟩
  · obtain ⟨kind, o, n, hold, hlow, hhigh⟩ := hc x hx
    have hout : o + n ≤ start ∨ stop ≤ o := by
      rcases hj.cases hs hhas hold with ⟨-, rfl, rfl⟩ | ⟨-, rfl, h⟩ | ⟨-, rfl, h⟩ | h <;> omega
    exact ⟨kind, o, n, (hiff ..).2 (.inr ⟨hold, hout⟩), hlow, hhigh⟩

theorem tile_eq (hord : l.Pairwise fun x y => x.1 + x.2 ≤ y.1) (hpos : ∀ x ∈ l, 0 < x.2)
    (hin : ∀ x ∈ l, start ≤ x.1 ∧ x.1 + x.2 ≤ stop)
    (hcover : ∀ p, start ≤ p → p < stop → ∃ x ∈ l, x.1 ≤ p ∧ p < x.1 + x.2)
    (hle : start ≤ stop) : tile start l = .ok stop := by
  induction l generalizing start with
  | nil =>
      have hend : ¬ start < stop := fun hlt => by
        obtain ⟨x, hx, -⟩ := hcover start (Nat.le_refl _) hlt
        cases hx
      rw [tile, Nat.le_antisymm hle (Nat.not_lt.1 hend)]
  | cons x rest ih =>
      obtain ⟨o, n⟩ := x
      obtain ⟨hfirst, hrest⟩ := List.pairwise_cons.1 hord
      have hn : 0 < n := hpos _ (List.mem_cons_self ..)
      obtain ⟨hlow, hhigh⟩ := hin _ (List.mem_cons_self ..)
      have hlow : start ≤ o := hlow
      have hhigh : o + n ≤ stop := hhigh
      have hstart : o = start := by
        obtain ⟨y, hy, hylow, -⟩ := hcover start (Nat.le_refl _) (by omega)
        rcases List.mem_cons.1 hy with rfl | hy
        · exact Nat.le_antisymm hylow hlow
        · have : o + n ≤ y.1 := hfirst y hy
          omega
      subst hstart
      rw [tile, if_pos rfl]
      refine ih hrest (fun x hx => hpos x (List.mem_cons_of_mem _ hx))
        (fun x hx => ⟨hfirst x hx, (hin x (List.mem_cons_of_mem _ hx)).2⟩) ?_ hhigh
      intro p hp hlt
      obtain ⟨y, hy, hyp, hpy⟩ := hcover p (by omega) hlt
      rcases List.mem_cons.1 hy with rfl | hy
      · have hpy : p < o + n := hpy
        omega
      · exact ⟨y, hy, hyp, hpy⟩

theorem tile_length (h : tile start l = .ok stop) :
    start + sumOf (l.map fun x => x.2) = stop := by
  induction l generalizing start with
  | nil => exact Except.ok.inj h
  | cons x rest ih =>
      obtain ⟨o, n⟩ := x
      rw [tile] at h
      split at h
      · rename_i ho
        have hrest := ih h
        simp only [List.map_cons, sumOf_cons]
        omega
      · cases h

theorem inOrder_perm (s : Segments) :
    s.inOrder.Perm (s.available.entries ++ s.reserved.entries) := List.merge_perm_append _

theorem inOrder_has {x : Nat × Nat} (h : x ∈ s.inOrder) : ∃ kind, s.Has x.1 x.2 kind := by
  rcases List.mem_append.1 (s.inOrder_perm.mem_iff.1 h) with h | h
  · exact ⟨.available, SortedMap.mem_entries.1 h⟩
  · exact ⟨.reserved, SortedMap.mem_entries.1 h⟩

theorem mem_inOrder {kind : Kind} {o n : Nat} (h : s.Has o n kind) : (o, n) ∈ s.inOrder := by
  refine s.inOrder_perm.mem_iff.2 (List.mem_append.2 ?_)
  cases kind with
  | available => exact .inl (SortedMap.mem_entries.2 h)
  | reserved => exact .inr (SortedMap.mem_entries.2 h)

theorem inOrder_sorted (s : Segments) : s.inOrder.Pairwise fun x y => x.1 ≤ y.1 := by
  have hsorted : ∀ m : SortedMap Nat, m.entries.Pairwise fun x y =>
      (x.1 < y.1 || (x.1 == y.1 && decide (x.2 ≤ y.2))) = true :=
    fun m => m.sorted.imp fun h => by simp [h]
  refine (List.pairwise_merge ?_ ?_ _ _ (hsorted s.available) (hsorted s.reserved)).imp ?_
  · intro x y z hxy hyz
    simp only [Bool.or_eq_true, Bool.and_eq_true, decide_eq_true_eq, beq_iff_eq] at *
    omega
  · intro x y
    simp only [Bool.or_eq_true, Bool.and_eq_true, decide_eq_true_eq, beq_iff_eq]
    omega
  · intro x y h
    simp only [Bool.or_eq_true, Bool.and_eq_true, decide_eq_true_eq, beq_iff_eq] at h
    omega

theorem Sound.inOrder_apart (hs : s.Sound) :
    s.inOrder.Pairwise fun x y => x.1 + x.2 ≤ y.1 ∨ y.1 + y.2 ≤ x.1 := by
  have hsame : ∀ kind, ∀ m : SortedMap Nat, (∀ o n, m.find? o = some n → s.Has o n kind) →
      m.entries.Pairwise fun x y => x.1 + x.2 ≤ y.1 ∨ y.1 + y.2 ≤ x.1 := by
    intro kind m hm
    refine m.sorted.imp_of_mem fun {x y} hx hy hlt => ?_
    exact hs.apart _ _ _ _ _ _ (hm _ _ (SortedMap.mem_entries.1 hx))
      (hm _ _ (SortedMap.mem_entries.1 hy)) fun heq => Nat.ne_of_lt hlt (Prod.mk.inj heq).2
  refine (s.inOrder_perm.pairwise_iff Or.symm).2 (List.pairwise_append.2 ⟨?_, ?_, ?_⟩)
  · exact hsame .available _ fun o n h => h
  · exact hsame .reserved _ fun o n h => h
  · intro x hx y hy
    exact hs.apart .available .reserved _ _ _ _ (SortedMap.mem_entries.1 hx)
      (SortedMap.mem_entries.1 hy) fun heq => nomatch (Prod.mk.inj heq).1

theorem Sound.tile_inOrder (hs : s.Sound) (hc : s.Covers) : tile 0 s.inOrder = .ok s.total := by
  have hpos : ∀ x ∈ s.inOrder, 0 < x.2 := fun x hx => by
    obtain ⟨kind, h⟩ := inOrder_has hx
    exact hs.pos _ _ _ h
  refine tile_eq ?_ hpos ?_ ?_ (Nat.zero_le _)
  · refine (hs.inOrder_apart.and s.inOrder_sorted).imp_of_mem fun {x y} _ hy h => ?_
    have hspan := hpos y hy
    omega
  · intro x hx
    obtain ⟨kind, h⟩ := inOrder_has hx
    exact ⟨Nat.zero_le _, hs.inside _ _ _ h⟩
  · intro p _ hp
    obtain ⟨kind, o, n, h, hlow, hhigh⟩ := hc p hp
    exact ⟨(o, n), mem_inOrder h, hlow, hhigh⟩

theorem Sound.validate (hs : s.Sound) (hc : s.Covers) : s.validate = .ok () := by
  simp only [Segments.validate, hs.tile_inOrder hc]
  exact if_neg fun hne => hne rfl

theorem Sound.sizes (hs : s.Sound) (hc : s.Covers) :
    s.availableSize + s.reservedSize = s.total := by
  have hsum := tile_length (hs.tile_inOrder hc)
  rw [sumOf_perm (s.inOrder_perm.map _), List.map_append, sumOf_append, Nat.zero_add] at hsum
  exact hsum

end Segments

end AffinityHeap
