import AffinityHeap.Proofs.Segment.Canonical

namespace AffinityHeap

namespace Segments

variable {s t : Segments} {offset length segment size : Nat} {l : List (Nat × Nat)}

theorem Sound.count_reserve (hs : s.Sound) (hhas : s.Has offset segment .available) :
    (s.cutOff offset segment length).reservationCount = s.reservationCount + 1 := by
  have hperm := s.reserved.entries_insert_perm offset length
  rw [SortedMap.erase_of_find?_none (hs.find?_reserved hhas)] at hperm
  exact hperm.length_eq

theorem count_release (hhas : s.Has offset length .reserved) :
    s.reservationCount = (s.joined offset length).reservationCount + 1 :=
  (SortedMap.entries_perm hhas).length_eq

/-- The free and the reserved segments tile the range, and the accounts agree. -/
structure Tiles (s : Segments) : Prop where
  pos : ∀ kind o n, s.Has o n kind → 0 < n
  apart : ∀ kind kind' o n p m, s.Has o n kind → s.Has p m kind' → (kind, o) ≠ (kind', p) →
    o + n ≤ p ∨ p + m ≤ o
  exact : ∀ x, x < s.total ↔ ∃ kind o n, s.Has o n kind ∧ o ≤ x ∧ x < o + n
  aligned : ∀ kind o n, s.Has o n kind → s.alignment ∣ o
  whole : ∀ o n, s.Has o n .reserved → s.alignment ∣ n
  sizes : s.availableSize + s.reservedSize = s.total
  valid : s.validate = .ok ()

theorem Sound.tiles (hs : s.Sound) (hc : s.Covers) : s.Tiles := by
  refine ⟨hs.pos, hs.apart, fun x => ⟨hc x, ?_⟩, hs.aligned, hs.whole, hs.sizes hc,
    hs.validate hc⟩
  rintro ⟨kind, o, n, h, -, hx⟩
  exact Nat.lt_of_lt_of_le hx (hs.inside _ _ _ h)

/-- Releases of reservations, each by its offset and a size it was asked for with. -/
structure Live (s : Segments) (l : List (Nat × Nat)) : Prop where
  nodup : (l.map Prod.fst).Nodup
  reserved : ∀ x ∈ l, s.Has x.1 (s.roundedLength x.2) .reserved

theorem Live.perm {l' : List (Nat × Nat)} (hl : s.Live l) (h : l.Perm l') : s.Live l' :=
  ⟨(h.map _).nodup_iff.1 hl.nodup, fun x hx => hl.reserved x (h.mem_iff.2 hx)⟩

theorem Sound.live_entries (hs : s.Sound) : s.Live s.reserved.entries := by
  refine ⟨List.pairwise_map.2 (s.reserved.sorted.imp Nat.ne_of_lt), fun x hx => ?_⟩
  have hhas : s.Has x.1 x.2 .reserved := SortedMap.mem_entries.1 hx
  have hpos := hs.pos _ _ _ hhas
  rwa [roundedLength, Nat.max_eq_left hpos, roundUp_of_dvd hs.unit_pos (hs.whole _ _ hhas),
    wrap_of_lt (hs.word _ _ hhas)]

end Segments

inductive SegmentRequest where
  | reserve (size : Nat)
  | release (offset size : Nat)

namespace SegmentRequest

/-- A size to reserve can be rounded up to the unit within a word. -/
def Fits (unit : Nat) : SegmentRequest → Prop
  | reserve size => roundUp (max size 1) unit < UInt64.size
  | release _ _ => True

instance (unit : Nat) : ∀ r, Decidable (Fits unit r)
  | reserve size => inferInstanceAs (Decidable (roundUp (max size 1) unit < UInt64.size))
  | release _ _ => inferInstanceAs (Decidable True)

/-- Every argument is a word. -/
def InWord : SegmentRequest → Prop
  | reserve size => size < UInt64.size
  | release offset size => offset < UInt64.size ∧ size < UInt64.size

end SegmentRequest

/-- Segments with the numbers of reservations and releases that succeeded. -/
structure SegmentSession where
  segments : Segments
  reserves : Nat
  releases : Nat

namespace SegmentSession

variable {s t : SegmentSession} {total alignment : Nat} {l l' : List (Nat × Nat)}

def start (total alignment : Nat) : SegmentSession where
  segments := .new total alignment
  reserves := 0
  releases := 0

def apply (s : SegmentSession) : SegmentRequest → SegmentSession
  | .reserve size =>
      match s.segments.reserve size with
      | some (_, segments) => { s with segments, reserves := s.reserves + 1 }
      | none => s
  | .release offset size =>
      match s.segments.release offset size with
      | .released segments => { s with segments, releases := s.releases + 1 }
      | .mismatch _ _ => s
      | .unknown => s

def run (s : SegmentSession) (requests : List SegmentRequest) : SegmentSession :=
  requests.foldl apply s

def releaseAll (s : SegmentSession) (l : List (Nat × Nat)) : SegmentSession :=
  s.run (l.map fun x => .release x.1 x.2)

inductive Step (s : SegmentSession) : SegmentSession → Prop
  | same : Step s s
  | reserve {offset segment size} (free : s.segments.Has offset segment .available)
      (fits : s.segments.Fits size) (room : s.segments.roundedLength size ≤ segment) :
      Step s
        { segments := s.segments.cutOff offset segment (s.segments.roundedLength size)
          reserves := s.reserves + 1
          releases := s.releases }
  | release {offset length} (live : s.segments.Has offset length .reserved) :
      Step s
        { segments := s.segments.joined offset length
          reserves := s.reserves
          releases := s.releases + 1 }

theorem apply_release {offset size : Nat}
    (h : s.segments.Has offset (s.segments.roundedLength size) .reserved) :
    s.apply (.release offset size) =
      { segments := s.segments.joined offset (s.segments.roundedLength size)
        reserves := s.reserves
        releases := s.releases + 1 } := by
  simp only [apply, Segments.release_eq_released.2 ⟨h, rfl⟩]

theorem apply_release_fails {offset size : Nat}
    (h : ∀ t, s.segments.release offset size ≠ .released t) :
    s.apply (.release offset size) = s := by
  rw [apply]
  split
  · rename_i t ht
    exact absurd ht (h t)
  · rfl
  · rfl

theorem step_apply (hs : s.segments.Sound) {request : SegmentRequest}
    (hfits : request.Fits s.segments.alignment) : Step s (s.apply request) := by
  cases request with
  | reserve size =>
      have hfits : s.segments.Fits size := hfits
      rcases Segments.reserve_cases hs size with hnone | ⟨offset, segment, hhas, hle, hsome⟩
      · simp only [apply, hnone]
        exact .same
      · simp only [apply, hsome]
        exact .reserve hhas hfits hle
  | release offset size =>
      by_cases hlive : s.segments.Has offset (s.segments.roundedLength size) .reserved
      · rw [apply_release hlive]
        exact .release hlive
      · rw [apply_release_fails fun t ht => hlive (Segments.release_eq_released.1 ht).1]
        exact .same

/-- What requests keep of segments first made for `total` and `alignment`. -/
structure Kept (total alignment : Nat) (s : SegmentSession) : Prop where
  total : s.segments.total = total
  alignment : s.segments.alignment = max alignment 1
  canonical : s.segments.Canonical
  counted : s.segments.reservationCount + s.releases = s.reserves

namespace Kept

theorem start (total alignment : Nat) : Kept total alignment (start total alignment) := by
  refine ⟨rfl, rfl, .new total alignment, ?_⟩
  rfl

theorem step (hk : Kept total alignment s) (h : Step s t) : Kept total alignment t := by
  have hcounted := hk.counted
  cases h with
  | same => exact hk
  | @reserve offset segment size hhas hfits hle =>
      refine ⟨hk.total, hk.alignment, hk.canonical.reserve hhas hfits hle, ?_⟩
      show (s.segments.cutOff offset segment _).reservationCount + s.releases = s.reserves + 1
      rw [hk.canonical.sound.count_reserve hhas]
      omega
  | @release offset length hlive =>
      refine ⟨hk.total, hk.alignment, hk.canonical.release hlive, ?_⟩
      show (s.segments.joined offset length).reservationCount + (s.releases + 1) = s.reserves
      rw [Segments.count_release hlive] at hcounted
      omega

theorem apply (hk : Kept total alignment s) {request : SegmentRequest}
    (hfits : request.Fits (max alignment 1)) : Kept total alignment (s.apply request) :=
  hk.step (step_apply hk.canonical.sound (hk.alignment.symm ▸ hfits))

theorem run (hk : Kept total alignment s) {requests : List SegmentRequest}
    (hfits : ∀ r ∈ requests, r.Fits (max alignment 1)) : Kept total alignment (s.run requests) := by
  induction requests generalizing s with
  | nil => exact hk
  | cons request rest ih =>
      exact ih (hk.apply (hfits _ (List.mem_cons_self ..)))
        fun r hr => hfits r (List.mem_cons_of_mem _ hr)

theorem eq_of_reserved (hk : Kept total alignment s) (hk' : Kept total alignment t)
    (h : s.segments.reserved = t.segments.reserved) : s.segments = t.segments :=
  hk.canonical.ext hk'.canonical (hk.total.trans hk'.total.symm)
    (hk.alignment.trans hk'.alignment.symm) h

end Kept

theorem run_tiles (total alignment : Nat) (requests : List SegmentRequest)
    (hfits : ∀ r ∈ requests, r.Fits (max alignment 1)) :
    let s := (start total alignment).run requests
    s.segments.total = total ∧ s.segments.alignment = max alignment 1 ∧ s.segments.Tiles ∧
      s.segments.reservationCount + s.releases = s.reserves ∧
      ∀ offset size, (∀ t, s.segments.release offset size ≠ .released t) →
        s.apply (.release offset size) = s := by
  intro s
  have hk : Kept total alignment s := (Kept.start total alignment).run hfits
  exact ⟨hk.total, hk.alignment, hk.canonical.sound.tiles hk.canonical.covers, hk.counted,
    fun offset size h => apply_release_fails h⟩

theorem run_tiles_small :
    let s := (start 64 8).run [.reserve 10, .reserve 3, .release 0 9, .release 8 3]
    s.segments.total = 64 ∧ s.segments.alignment = 8 ∧ s.segments.Tiles ∧
      s.segments.reservationCount + s.releases = s.reserves ∧
      ∀ offset size, (∀ t, s.segments.release offset size ≠ .released t) →
        s.apply (.release offset size) = s :=
  run_tiles 64 8 _ (by decide)

/-- Each release of the list succeeds, and its reservations are gone. -/
theorem releaseAll_live (hs : s.segments.Sound) (hl : s.segments.Live l) :
    (s.releaseAll l).releases = s.releases + l.length ∧
      ∀ k, (s.releaseAll l).segments.reserved.find? k =
        if k ∈ l.map Prod.fst then none else s.segments.reserved.find? k := by
  induction l generalizing s with
  | nil => exact ⟨rfl, fun k => by simp [releaseAll, run]⟩
  | cons x rest ih =>
      obtain ⟨offset, size⟩ := x
      have hlive := hl.reserved _ (List.mem_cons_self ..)
      obtain ⟨hnot, hnd⟩ := List.nodup_cons.1 hl.nodup
      have hstep : s.releaseAll ((offset, size) :: rest) =
          (s.apply (.release offset size)).releaseAll rest := rfl
      rw [hstep, apply_release hlive]
      have hrest : (s.segments.joined offset (s.segments.roundedLength size)).Live rest := by
        refine ⟨hnd, fun y hy => ?_⟩
        have hne : offset ≠ y.1 := fun h => hnot (List.mem_map.2 ⟨y, hy, h.symm⟩)
        simp only [Segments.Has, Segments.joined, SortedMap.find?_erase, if_neg hne]
        exact hl.reserved y (List.mem_cons_of_mem _ hy)
      obtain ⟨hcount, hfind⟩ := ih (s := ⟨_, s.reserves, s.releases + 1⟩) (hs.release hlive) hrest
      refine ⟨hcount.trans ?_, fun k => (hfind k).trans ?_⟩
      · show s.releases + 1 + rest.length = s.releases + (rest.length + 1)
        omega
      · simp only [SortedMap.find?_erase, List.map_cons, List.mem_cons]
        by_cases hk : k = offset
        · simp [hk]
        · simp only [hk, false_or, if_neg (Ne.symm hk)]

theorem Kept.releaseAll (hk : Kept total alignment s) (l : List (Nat × Nat)) :
    Kept total alignment (s.releaseAll l) := by
  refine hk.run fun r hr => ?_
  obtain ⟨x, -, rfl⟩ := List.mem_map.1 hr
  trivial

theorem Kept.releaseAll_perm (hk : Kept total alignment s) (hl : s.segments.Live l)
    (h : l.Perm l') : (s.releaseAll l).segments = (s.releaseAll l').segments := by
  obtain ⟨-, hfind⟩ := releaseAll_live hk.canonical.sound hl
  obtain ⟨-, hfind'⟩ := releaseAll_live hk.canonical.sound (hl.perm h)
  refine (hk.releaseAll l).eq_of_reserved (hk.releaseAll l') (SortedMap.ext_find? fun k => ?_)
  simp only [hfind, hfind', (h.map Prod.fst).mem_iff]

theorem Kept.releaseAll_eq_new (hk : Kept total alignment s) (hl : s.segments.Live l)
    (hall : ∀ o n, s.segments.Has o n .reserved → o ∈ l.map Prod.fst) :
    (s.releaseAll l).segments = .new total alignment := by
  obtain ⟨-, hfind⟩ := releaseAll_live hk.canonical.sound hl
  refine (hk.releaseAll l).eq_of_reserved (.start total alignment) (SortedMap.ext_find? fun k => ?_)
  show _ = none
  rw [hfind]
  cases hk' : s.segments.reserved.find? k with
  | none => exact ite_self _
  | some n => exact if_pos (hall k n hk')

end SegmentSession

end AffinityHeap
