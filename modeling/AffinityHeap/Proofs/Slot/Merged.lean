import AffinityHeap.Proofs.Gap
import AffinityHeap.Proofs.Slot.Allocate
import AffinityHeap.Proofs.Slot.Release
import Mathlib.Data.List.Chain
import Mathlib.Data.List.Sort

namespace AffinityHeap

open Slot (Tiled lastSpan rebase)

/-- No two slots side by side are free. -/
def Merged (l : List Slot) : Prop := l.IsChain fun s t => s.status = .free → t.status = .allocated

/-- Where the free slots are and how many words each spans. -/
def vacancies (l : List Slot) : List (Nat × Nat) :=
  (l.filter (·.isFree)).map fun s => (s.position, s.span)

theorem mem_vacancies {l : List Slot} {p n : Nat} :
    (p, n) ∈ vacancies l ↔ ∃ s ∈ l, s.status = .free ∧ s.position = p ∧ s.span = n := by
  simp [vacancies, and_assoc]

section Lists

variable {A B l l' : List Slot} {s : Slot} {start back stop : Nat}

theorem merged_rebase {back : Nat} : Merged (rebase back B) ↔ Merged B := by
  cases B with
  | nil => exact Iff.rfl
  | cons s B =>
      cases B with
      | nil => simp [rebase, Merged]
      | cons t B => simp [rebase, Merged]

theorem merged_middle : Merged (A ++ s :: B) ↔ Merged A ∧ Merged B ∧
    (∀ P ∈ A.getLast?, P.status = .free → s.status = .allocated) ∧
    ∀ N ∈ B.head?, s.status = .free → N.status = .allocated := by
  simp only [Merged, List.isChain_append, List.isChain_cons, List.head?_cons, Option.mem_def,
    Option.some.injEq, forall_eq']
  tauto

/-- A slot may be free where both neighbours are held. -/
theorem merged_between (hA : Merged A) (hB : Merged B)
    (hP : ∀ P ∈ A.getLast?, P.status = .allocated) (hN : ∀ N ∈ B.head?, N.status = .allocated) :
    Merged (A ++ s :: B) := by
  refine merged_middle.2 ⟨hA, hB, fun P h hf => ?_, fun N h _ => hN N h⟩
  rw [hP P h] at hf
  cases hf

theorem allocated_of_free (hs : s.status = .free)
    (hP : ∀ P ∈ A.getLast?, P.status = .free → s.status = .allocated) :
    ∀ P ∈ A.getLast?, P.status = .allocated := by
  intro P hlast
  cases hf : P.status with
  | allocated => rfl
  | free => exact absurd ((hP P hlast hf).symm.trans hs) (by decide)

theorem allocated_of_rebase {back : Nat} (hN : ∀ N ∈ B.head?, N.status = .allocated) :
    ∀ N ∈ (rebase back B).head?, N.status = .allocated := by
  cases B with
  | nil => exact hN
  | cons t B =>
      rintro N ⟨⟩
      exact hN t rfl

theorem tiled_covers (h : Tiled start back l stop) : ∀ x, start ≤ x → x < stop →
    ∃ s ∈ l, s.position ≤ x ∧ x < s.stop := by
  induction l generalizing start back with
  | nil =>
      intro x hlow hhigh
      have h : start = stop := h
      omega
  | cons s l ih =>
      obtain ⟨rfl, -, h⟩ := h
      intro x hlow hhigh
      by_cases hx : x < s.stop
      · exact ⟨s, List.mem_cons_self .., hlow, hx⟩
      · obtain ⟨t, ht, hin⟩ := ih h x (Nat.not_lt.1 hx) hhigh
        exact ⟨t, List.mem_cons_of_mem _ ht, hin⟩

/-- Free slots of a merged tiling do not touch. -/
theorem merged_pairwise (h : Tiled start back l stop) (hpos : ∀ s ∈ l, 0 < s.span)
    (hM : Merged l) :
    l.Pairwise fun s t => s.status = .free → t.status = .free → s.stop < t.position := by
  induction l generalizing start back with
  | nil => exact .nil
  | cons s l ih =>
      obtain ⟨-, -, h⟩ := h
      obtain ⟨hnext, hM⟩ := List.isChain_cons.1 hM
      refine .cons (fun t ht hs hf => ?_) (ih h (fun u hu => hpos u (List.mem_cons_of_mem _ hu)) hM)
      cases l with
      | nil => cases ht
      | cons u l =>
          obtain ⟨hu, -, h⟩ := h
          rcases List.mem_cons.1 ht with rfl | ht
          · rw [hnext t rfl hs] at hf
            cases hf
          · have hspan := hpos u (List.mem_cons_of_mem _ (List.mem_cons_self ..))
            have hstart := (Slot.tiled_bounds h t ht).1
            simp only [Slot.stop] at *
            omega

/-- Where a slot is, how far it spans and whether it is free. -/
def Slot.site (s : Slot) : Nat × Nat × SlotStatus := (s.position, s.span, s.status)

theorem mem_site {p n : Nat} {status : SlotStatus} : (p, n, status) ∈ l.map (·.site) ↔
    ∃ s ∈ l, s.status = status ∧ s.position = p ∧ s.span = n := by
  simp only [List.mem_map, Slot.site, Prod.mk.injEq]
  exact exists_congr fun s => and_congr_right fun _ => by tauto

theorem sites_pairwise (h : Tiled start back l stop) (hpos : ∀ s ∈ l, 0 < s.span) :
    (l.map (·.site)).Pairwise fun x y => x.1 < y.1 := by
  refine List.pairwise_map.2 ((Slot.tiled_pairwise h).imp_of_mem fun hs _ hst => ?_)
  have hspan := hpos _ hs
  simp only [Slot.site, Slot.stop] at hst ⊢
  omega

/-- The back spans of a tiling follow from the spans. -/
theorem tiled_of_sites (h : Tiled start back l stop) (h' : Tiled start back l' stop)
    (hsites : l.map (·.site) = l'.map (·.site)) : l = l' := by
  induction l generalizing start back l' with
  | nil => simpa using hsites
  | cons s l ih =>
      cases l' with
      | nil => simp at hsites
      | cons t l' =>
          obtain ⟨rfl, hsb, h⟩ := h
          obtain ⟨-, htb, h'⟩ := h'
          obtain ⟨hsite, hrest⟩ := List.cons.inj hsites
          obtain rfl : s = t := by
            obtain ⟨⟨sb, sn, sf⟩, sp⟩ := s
            obtain ⟨⟨tb, tn, tf⟩, tp⟩ := t
            simp only [Slot.site, Prod.mk.injEq] at hsite hsb htb
            obtain ⟨rfl, rfl, rfl⟩ := hsite
            rw [hsb, htb]
          exact congrArg (s :: ·) (ih h h' hrest)

theorem tiled_ext (h : Tiled start back l stop) (h' : Tiled start back l' stop)
    (hpos : ∀ s ∈ l, 0 < s.span) (hpos' : ∀ s ∈ l', 0 < s.span)
    (hsite : ∀ x, x ∈ l.map (·.site) ↔ x ∈ l'.map (·.site)) : l = l' := by
  -- A tiling lists its sites by position, so that the list is settled by its members.
  have : Std.Asymm fun x y : Nat × Nat × SlotStatus => x.1 < y.1 := ⟨fun _ _ => Nat.lt_asymm⟩
  exact tiled_of_sites h h'
    ((sites_pairwise h hpos).eq_of_mem_iff (sites_pairwise h' hpos') hsite)

end Lists

variable {b : SlotBlock} {L L' : Layout} {C K : Slot} {unit size : Nat}

theorem Served.merged (h : Served unit size L K L') (hM : Merged L.slots) : Merged L'.slots := by
  cases h with
  | whole hF _ _ _ =>
      obtain ⟨hA, hB, -, -⟩ := merged_middle.1 hM
      exact merged_middle.2 ⟨hA, hB, fun _ _ _ => rfl, fun _ _ hf => nomatch hf⟩
  | @cut A B F X Y r hF _ _ _ _ =>
      obtain ⟨hA, hB, -, hN⟩ := merged_middle.1 hM
      have hrest : Merged (F.rest r :: rebase (F.stop - r) B) :=
        merged_between (A := []) List.isChain_nil (merged_rebase.2 hB) (fun P h => nomatch h)
          (allocated_of_rebase fun N h => hN N h hF)
      exact merged_middle.2 ⟨hA, hrest, fun _ _ _ => rfl, fun _ _ hf => nomatch hf⟩

namespace Layout.Sound

theorem span_le {A M B : List Slot} (hS : L.Sound b) (hL : L.slots = A ++ M ++ B) :
    b.first + sumOf (M.map (·.span)) ≤ b.capacity := by
  have hsum := Slot.tiled_span hS.tiled
  simp only [hL, List.map_append, sumOf_append] at hsum
  omega

theorem head_allocated {A M B : List Slot} (hS : L.Sound b)
    (hshort : b.capacity ≤ b.first + maxSpan) (hL : L.slots = A ++ M ++ B)
    (hN : ∀ N ∈ B.head?, N.status = .free → maxSpan < sumOf (M.map (·.span)) + N.span) :
    ∀ N ∈ B.head?, N.status = .allocated := by
  intro N hhead
  cases hf : N.status with
  | allocated => rfl
  | free =>
      obtain ⟨B, rfl⟩ := List.head?_eq_some_iff.1 hhead
      have hlong := hN N rfl hf
      have hle := hS.span_le (A := A) (M := M ++ [N]) (B := B) (by simp [hL])
      simp only [List.map_append, sumOf_append, List.map_cons, sumOf_cons, List.map_nil,
        sumOf_nil] at hle
      omega

theorem last_allocated {A B : List Slot} (hS : L.Sound b)
    (hshort : b.capacity ≤ b.first + maxSpan) (hL : L.slots = A ++ C :: B)
    (hP : ∀ P ∈ A.getLast?, P.status = .free → maxSpan < P.span + C.span) :
    ∀ P ∈ A.getLast?, P.status = .allocated := by
  intro P hlast
  cases hf : P.status with
  | allocated => rfl
  | free =>
      have hlong := hP P hlast hf
      obtain ⟨A, rfl⟩ := List.getLast?_eq_some_iff.1 hlast
      have hle := hS.span_le (A := A) (M := [P, C]) (B := B) (by simp [hL])
      simp only [List.map_cons, sumOf_cons, List.map_nil, sumOf_nil] at hle
      omega

theorem division (hS : L.Sound b) (hM : Merged L.slots) : Division b.first b.capacity
    (fun p n => (p, n) ∈ vacancies L.slots) (fun p n => (p, n) ∈ holdings L.slots) := by
  refine ⟨fun o n h => ?_, fun x hlow hhigh => ?_, fun o n p m h h' => ?_,
    fun o n p m h h' hne => ?_⟩
  · obtain ⟨s, hs, -, rfl, rfl⟩ := mem_vacancies.1 h
    exact ⟨hS.span_pos s hs, hS.first_le hs, hS.stop_le hs⟩
  · obtain ⟨s, hs, hin⟩ := tiled_covers hS.tiled x hlow hhigh
    cases hf : s.status with
    | free => exact .inl ⟨s.position, s.span, mem_vacancies.2 ⟨s, hs, hf, rfl, rfl⟩, hin⟩
    | allocated => exact .inr ⟨s.position, s.span, mem_holdings.2 ⟨s, hs, hf, rfl, rfl⟩, hin⟩
  · obtain ⟨s, hs, hf, rfl, rfl⟩ := mem_vacancies.1 h
    obtain ⟨t, ht, hf', rfl, rfl⟩ := mem_holdings.1 h'
    refine hS.apart hs ht ?_
    rintro rfl
    rw [hf] at hf'
    cases hf'
  · obtain ⟨s, hs, hf, rfl, rfl⟩ := mem_vacancies.1 h
    obtain ⟨t, ht, hf', rfl, rfl⟩ := mem_vacancies.1 h'
    have : Std.Symm fun s t : Slot => s.status = .free → t.status = .free →
        s.stop < t.position ∨ t.stop < s.position := ⟨fun _ _ h ht hs => (h hs ht).symm⟩
    have hall := (merged_pairwise hS.tiled hS.span_pos hM).imp
      (S := fun s t => s.status = .free → t.status = .free →
        s.stop < t.position ∨ t.stop < s.position) fun h hs ht => .inl (h hs ht)
    exact hall.forall hs ht (fun heq => hne (heq ▸ rfl)) hf hf'

/-- The held slots of a merged layout settle all of them. -/
theorem slots_eq (hS : L.Sound b) (hM : Merged L.slots) (hS' : L'.Sound b) (hM' : Merged L'.slots)
    (hheld : ∀ x, x ∈ holdings L.slots ↔ x ∈ holdings L'.slots) : L.slots = L'.slots := by
  have hfree : ∀ p n, (p, n) ∈ vacancies L.slots ↔ (p, n) ∈ vacancies L'.slots := fun p n => by
    have hfun : (fun p n => (p, n) ∈ holdings L.slots) = fun p n => (p, n) ∈ holdings L'.slots :=
      funext fun p => funext fun n => propext (hheld (p, n))
    exact (hS.division hM).free_iff.trans (hfun ▸ (hS'.division hM').free_iff.symm)
  refine tiled_ext hS.tiled hS'.tiled hS.span_pos hS'.span_pos ?_
  rintro ⟨p, n, status⟩
  have hheld := hheld (p, n)
  have hfree := hfree p n
  rw [mem_holdings, mem_holdings] at hheld
  rw [mem_vacancies, mem_vacancies] at hfree
  rw [mem_site, mem_site]
  cases status with
  | free => exact hfree
  | allocated => exact hheld

end Layout.Sound

/-- Where the block is no longer than a slot can be, the longest span does not stand in the way of
a merge. -/
theorem Freed.merged (h : Freed C L L') (hS : L.Sound b) (hshort : b.capacity ≤ b.first + maxSpan)
    (hM : Merged L.slots) : Merged L'.slots := by
  cases h with
  | @all A B P N X Y hP hN _ =>
      obtain ⟨hA, hrest, hlast, -⟩ := merged_middle.1 hM
      obtain ⟨-, hB, -, hhead⟩ := (merged_middle (A := [C])).1 hrest
      exact merged_between hA (merged_rebase.2 hB) (allocated_of_free hP hlast)
        (allocated_of_rebase fun M h => hhead M h hN)
  | @previous A B P free hP _ hN =>
      obtain ⟨hA, hrest, hlast, -⟩ := merged_middle.1 hM
      have hB : Merged B := (List.isChain_cons.1 hrest).2
      have hhead := hS.head_allocated (A := A) (M := [P, C]) (B := B) hshort (by simp)
        (by simpa [Nat.add_assoc] using hN)
      exact merged_between hA (merged_rebase.2 hB) (allocated_of_free hP hlast)
        (allocated_of_rebase hhead)
  | @next A B N X Y hN _ hP =>
      obtain ⟨hA, hrest, -, -⟩ := merged_middle.1 hM
      obtain ⟨hhead, hB⟩ := List.isChain_cons.1 hrest
      exact merged_between hA (merged_rebase.2 hB) (hS.last_allocated hshort rfl hP)
        (allocated_of_rebase fun M h => hhead M h hN)
  | @alone A B free hP hN =>
      obtain ⟨hA, hB, -, -⟩ := merged_middle.1 hM
      exact merged_between hA hB (hS.last_allocated hshort rfl hP)
        (hS.head_allocated (A := A) (M := [C]) (B := B) hshort (by simp) (by simpa using hN))

end AffinityHeap
