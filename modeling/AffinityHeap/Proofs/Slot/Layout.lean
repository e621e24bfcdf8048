import AffinityHeap.Proofs.Slot.Links
import AffinityHeap.Proofs.Slot.Tiling
import Mathlib.Data.List.Nodup
import Mathlib.Data.List.Pairwise
import Mathlib.Data.List.Perm.Basic

namespace AffinityHeap

open Slot (Tiled lastSpan rebase)

/-- The slots of a block by address and the free ones in the order of the free list. -/
structure Layout where
  slots : List Slot
  free : List Nat
  deriving DecidableEq, Repr

def freePositions (l : List Slot) : List Nat := (l.filter (·.isFree)).map (·.position)

def taken (l : List Slot) : List Slot := l.filter (!·.isFree)

def vacant (l : List Slot) : List Slot := l.filter (·.isFree)

section Lists

variable (A B : List Slot) (s : Slot)

@[simp] theorem freePositions_nil : freePositions [] = [] := rfl

@[simp] theorem freePositions_append :
    freePositions (A ++ B) = freePositions A ++ freePositions B := by simp [freePositions]

@[simp] theorem freePositions_cons : freePositions (s :: B) =
    if s.status = .free then s.position :: freePositions B else freePositions B := by
  cases h : s.status <;> simp [freePositions, SlotHeader.isFree, h]

@[simp] theorem freePositions_rebase (back : Nat) :
    freePositions (rebase back B) = freePositions B := by
  cases B <;> simp [rebase]

@[simp] theorem taken_append : taken (A ++ B) = taken A ++ taken B := by simp [taken]

@[simp] theorem taken_cons :
    taken (s :: B) = if s.status = .free then taken B else s :: taken B := by
  cases h : s.status <;> simp [taken, SlotHeader.isFree, h]

theorem mem_freePositions {l : List Slot} {p : Nat} :
    p ∈ freePositions l ↔ ∃ s ∈ l, s.status = .free ∧ s.position = p := by
  simp [freePositions, and_assoc]

theorem mem_taken {l : List Slot} {s : Slot} : s ∈ taken l ↔ s ∈ l ∧ s.status = .allocated := by
  simp [taken]

theorem map_position_rebase (back : Nat) :
    (rebase back B).map (·.position) = B.map (·.position) := by
  cases B <;> rfl

/-- Where the allocated slots are and how many words each spans. -/
def holdings (l : List Slot) : List (Nat × Nat) := (taken l).map fun s => (s.position, s.span)

@[simp] theorem holdings_append : holdings (A ++ B) = holdings A ++ holdings B := by
  simp [holdings]

@[simp] theorem holdings_cons :
    holdings (s :: B) =
      if s.status = .free then holdings B else (s.position, s.span) :: holdings B := by
  cases h : s.status <;> simp [holdings, h]

@[simp] theorem holdings_rebase (back : Nat) : holdings (rebase back B) = holdings B := by
  cases B <;> simp [rebase]

theorem mem_holdings {l : List Slot} {p n : Nat} :
    (p, n) ∈ holdings l ↔ ∃ s ∈ l, s.status = .allocated ∧ s.position = p ∧ s.span = n := by
  simp [holdings, mem_taken, and_assoc]

theorem spans_eq (l : List Slot) : sumOf (l.map (·.span)) =
    sumOf ((taken l).map (·.span)) + sumOf ((vacant l).map (·.span)) := by
  rw [Nat.add_comm]
  exact (sumOf_filter_add (·.isFree) (·.span) l).symm

end Lists

namespace Layout

variable {b : SlotBlock} {L : Layout} {s t : Slot}

def positions (L : Layout) : List Nat := L.slots.map (·.position)

structure Sound (b : SlotBlock) (L : Layout) : Prop where
  tiled : Tiled b.first 0 L.slots b.capacity
  each : ∀ s ∈ L.slots, s.Sound b.unit
  listed : L.free.Perm (freePositions L.slots)
  inside : L.slots ≠ [] → b.capacity ≤ b.buffer.len
  short : b.capacity < 0x100000000

namespace Sound

theorem apart (h : L.Sound b) (hs : s ∈ L.slots) (ht : t ∈ L.slots) (hne : s ≠ t) :
    s.Apart t := by
  have hp : L.slots.Pairwise Slot.Apart := (Slot.tiled_pairwise h.tiled).imp Or.inl
  exact hp.forall hs ht hne

theorem first_le (h : L.Sound b) (hs : s ∈ L.slots) : b.first ≤ s.position :=
  (Slot.tiled_bounds h.tiled s hs).1

theorem stop_le (h : L.Sound b) (hs : s ∈ L.slots) : s.stop ≤ b.capacity :=
  (Slot.tiled_bounds h.tiled s hs).2

theorem first_pos (b : SlotBlock) : 0 < b.first := by
  simp only [SlotBlock.first, SlotGeometry.first]
  omega

theorem span_pos (h : L.Sound b) : ∀ s ∈ L.slots, 0 < s.span := fun s hs =>
  Nat.lt_of_lt_of_le (by decide) (h.each s hs).span_ge

theorem room (h : L.Sound b) (hs : s ∈ L.slots) : s.position + 4 ≤ s.stop :=
  Nat.add_le_add_left (h.each s hs).span_ge _

theorem inRange (h : L.Sound b) (hs : s ∈ L.slots) {k : Nat} (hk : k < s.span) :
    b.InRange (s.position + k) := by
  have h1 := first_pos b
  have h2 := h.first_le hs
  have h3 : s.position + s.span ≤ b.capacity := h.stop_le hs
  have h4 := h.inside (List.ne_nil_of_mem hs)
  exact ⟨by omega, by omega, by omega⟩

theorem fits (h : L.Sound b) (hs : s ∈ L.slots) : s.toSlotHeader.Fits :=
  ⟨Slot.back_le h.tiled h.each (Nat.zero_le _) s hs, (h.each s hs).span_le⟩

/-- A word lies in one slot only. -/
theorem eq_of_within (h : L.Sound b) (hs : s ∈ L.slots) (ht : t ∈ L.slots) {q : Nat}
    (hqs : s.position ≤ q ∧ q < s.stop) (hqt : t.position ≤ q ∧ q < t.stop) : s = t := by
  by_contra hne
  rcases h.apart hs ht hne with h | h <;> omega

theorem position_inj (h : L.Sound b) (hs : s ∈ L.slots) (ht : t ∈ L.slots)
    (hst : s.position = t.position) : s = t := by
  have h1 := h.room hs
  have h2 := h.room ht
  exact h.eq_of_within hs ht (q := s.position) (by omega) (by omega)

theorem notMem_positions (h : L.Sound b) (hs : s ∈ L.slots) {q : Nat} (hq : s.Payload q) :
    q ∉ L.positions := by
  intro hmem
  obtain ⟨t, ht, rfl⟩ := List.mem_map.1 hmem
  have h2 := h.room ht
  obtain rfl := h.eq_of_within hs ht ⟨Nat.le_of_lt hq.1, hq.2⟩ ⟨Nat.le_refl _, by omega⟩
  exact Nat.lt_irrefl _ hq.1

theorem spaced (h : L.Sound b) : Spaced L.positions where
  pos := by
    simp only [positions, List.mem_map]
    rintro _ ⟨s, hs, rfl⟩
    exact Nat.lt_of_lt_of_le (first_pos b) (h.first_le hs)
  lt := by
    simp only [positions, List.mem_map]
    rintro _ ⟨s, hs, rfl⟩
    have h1 := h.room hs
    have h2 := h.stop_le hs
    have h3 := h.short
    omega
  apart := by
    simp only [positions, List.mem_map]
    rintro _ ⟨s, hs, rfl⟩ _ ⟨t, ht, rfl⟩ hne
    have h1 := h.room hs
    have h2 := h.room ht
    rcases h.apart hs ht (fun hst => hne (hst ▸ rfl)) with h | h <;> omega

theorem nodup_positions (h : L.Sound b) : L.positions.Nodup := by
  refine (List.pairwise_map.2 ?_ : L.positions.Pairwise (· ≠ ·))
  refine (Slot.tiled_pairwise h.tiled).imp_of_mem fun {s t} hs _ hst => ?_
  have hroom := h.room hs
  omega

theorem split_unique {A B A' B' : List Slot} (h : L.Sound b)
    (hL : L.slots = A ++ s :: B) (hL' : L.slots = A' ++ t :: B') (hpos : t.position = s.position) :
    A' = A ∧ t = s ∧ B' = B := by
  have hs : s ∈ L.slots := by simp [hL]
  obtain rfl : t = s := h.position_inj (by simp [hL']) hs hpos
  have hnd : L.slots.Nodup := h.nodup_positions.of_map
  rw [hL, List.nodup_middle, List.nodup_cons, List.mem_append, not_or] at hnd
  obtain ⟨rfl, -, rfl⟩ :=
    (List.append_cons_inj_of_notMem hnd.1.1 hnd.1.2).1 (hL.symm.trans hL')
  exact ⟨rfl, rfl, rfl⟩

theorem nodup_free (h : L.Sound b) : L.free.Nodup :=
  h.listed.nodup_iff.2 (h.nodup_positions.sublist (List.filter_sublist.map _))

theorem mem_free (h : L.Sound b) {p : Nat} :
    p ∈ L.free ↔ ∃ s ∈ L.slots, s.status = .free ∧ s.position = p := by
  rw [h.listed.mem_iff, mem_freePositions]

theorem notMem_free (h : L.Sound b) (hs : s ∈ L.slots) (hf : s.status = .allocated) :
    s.position ∉ L.free := by
  intro hmem
  obtain ⟨t, ht, htf, hts⟩ := h.mem_free.1 hmem
  rw [h.position_inj ht hs hts, hf] at htf
  exact absurd htf (by decide)

theorem free_subset (h : L.Sound b) {p : Nat} (hp : p ∈ L.free) : p ∈ L.positions := by
  obtain ⟨s, hs, -, rfl⟩ := h.mem_free.1 hp
  exact List.mem_map_of_mem hs

theorem length_slots_lt (h : L.Sound b) : L.slots.length < 0x100000000 := by
  have hle := Slot.tiled_length_le h.tiled h.span_pos
  have hshort := h.short
  omega

theorem length_free_lt (h : L.Sound b) : L.free.length < 0x100000000 := by
  rw [h.listed.length_eq, freePositions, List.length_map]
  exact Nat.lt_of_le_of_lt (List.length_filter_le ..) h.length_slots_lt

theorem length_holdings_lt (h : L.Sound b) : (holdings L.slots).length < 0x100000000 := by
  rw [holdings, List.length_map]
  exact Nat.lt_of_le_of_lt (List.length_filter_le ..) h.length_slots_lt

theorem sumOf_holdings_lt (h : L.Sound b) :
    sumOf ((holdings L.slots).map (·.2)) < 0x100000000 := by
  have hspans := Slot.tiled_span h.tiled
  have hshort := h.short
  rw [spans_eq] at hspans
  rw [holdings, List.map_map]
  show sumOf ((taken L.slots).map (·.span)) < _
  omega

/-- A slot on the free list may give its place to one that is not on it. -/
theorem free_replace {X Y : List Nat} {p q : Nat} (h : L.Sound b) (hfree : L.free = X ++ p :: Y)
    (hq : q ∈ L.positions) (hnot : q ∉ L.free) :
    (∀ z ∈ X ++ q :: Y, z ∈ L.positions) ∧ (X ++ q :: Y).Nodup := by
  have hsub : (X ++ Y).Sublist L.free := hfree ▸ (List.sublist_cons_self p Y).append_left X
  refine ⟨fun z hz => ?_, List.nodup_middle.2 (List.nodup_cons.2 ⟨fun hmem => ?_, ?_⟩)⟩
  · rcases List.mem_cons.1 (List.perm_middle.mem_iff.1 hz) with rfl | hz
    · exact hq
    · exact h.free_subset (hsub.subset hz)
  · exact hnot (hsub.subset hmem)
  · exact h.nodup_free.sublist hsub

end Sound

end Layout

namespace SlotView

def Headed (v : SlotView) (l : List Slot) : Prop := ∀ s ∈ l, v.word s.position = s.encode

structure Shows (v : SlotView) (L : Layout) : Prop where
  headed : v.Headed L.slots
  linked : v.Linked 0 L.free
  counted : v.block.freeCount = L.free.length

/-- What is written where the slots of `L` have become those of `L'`: headers, links of free
slots, and zeros in place of the headers that are gone. -/
structure Rewrites (L L' : Layout) (v v' : SlotView) : Prop where
  written : ∀ q, q ∉ L.positions ∨ q ∈ L'.positions → v'.word q = v.word q ∨ q ∈ L'.positions ∨
    ∃ x ∈ L'.free, (q = x + 1 ∨ q = x + 2) ∧ Node L'.free (v'.word q).toNat
  cleared : ∀ q ∈ L.positions, q ∉ L'.positions → v'.word q = 0

/-- A view of `L` has become one of `L'`, the block's counters that of `f`. -/
structure Turned (f : SlotBlock → SlotBlock) (L L' : Layout) (v w : SlotView) : Prop where
  shows : w.Shows L'
  rewrites : Rewrites L L' v w
  block : ∃ head count, w.block = { f v.block with freeHead := head, freeCount := count }

end SlotView

end AffinityHeap
