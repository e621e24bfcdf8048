import AffinityHeap.Proofs.Segment.Session

namespace AffinityHeap

namespace Segments

variable {s t : Segments} {entries : List (Nat × Nat)}
  {alignment length offset segment size : Nat}

theorem bestFit?_least (h : bestFit? alignment length entries = some (offset, segment))
    (hsorted : entries.Pairwise fun x y => x.1 < y.1) : ∀ x ∈ entries,
      fits alignment length x.1 x.2 → segment < x.2 ∨ segment = x.2 ∧ offset ≤ x.1 := by
  induction entries generalizing offset segment with
  | nil => cases h
  | cons y rest ih =>
      obtain ⟨o, m⟩ := y
      obtain ⟨hfirst, hrest⟩ := List.pairwise_cons.1 hsorted
      rw [bestFit?] at h
      intro x hx hfits
      split at h
      · split at h
        · rename_i p k hbest
          obtain ⟨hmem, -⟩ := bestFit?_eq_some hbest
          have hlow : o < p := hfirst _ hmem
          split at h
          · rename_i hshort
            cases h
            rcases List.mem_cons.1 hx with rfl | hx
            · exact .inl hshort
            · exact ih hbest hrest x hx hfits
          · rename_i hlong
            cases h
            rcases List.mem_cons.1 hx with rfl | hx
            · exact .inr ⟨rfl, Nat.le_refl _⟩
            · have hleast := ih hbest hrest x hx hfits
              omega
        · rename_i hbest
          cases h
          rcases List.mem_cons.1 hx with rfl | hx
          · exact .inr ⟨rfl, Nat.le_refl _⟩
          · exact absurd hfits (bestFit?_eq_none hbest x hx)
      · rename_i hunfit
        rcases List.mem_cons.1 hx with rfl | hx
        · exact absurd hfits hunfit
        · exact ih h hrest x hx hfits

/-- Of the free segments that hold `length`, the shortest, and of these the first. -/
structure Fittest (s : Segments) (length offset segment : Nat) : Prop where
  free : s.Has offset segment .available
  fits : length ≤ segment
  least : ∀ o n, s.Has o n .available → length ≤ n → segment < n ∨ segment = n ∧ offset ≤ o

/-- `t` has `length` at `offset` reserved in front of what is left of a free segment of `s`, and
is `s` elsewhere. -/
structure Takes (s : Segments) (offset segment length : Nat) (t : Segments) : Prop where
  total : t.total = s.total
  alignment : t.alignment = s.alignment
  reserved : ∀ o n, t.Has o n .reserved ↔ o = offset ∧ n = length ∨ s.Has o n .reserved
  available : ∀ o n, t.Has o n .available ↔
    o = offset + length ∧ n = segment - length ∧ length < segment ∨
      s.Has o n .available ∧ o ≠ offset

theorem Sound.takes (hs : s.Sound) (hhas : s.Has offset segment .available) (hpos : 0 < length)
    (hle : length ≤ segment) : s.Takes offset segment length (s.cutOff offset segment length) := by
  constructor
  · rfl
  · rfl
  · intro o n
    rw [has_cutOff hs hhas hpos hle]
    simp
  · intro o n
    rw [has_cutOff hs hhas hpos hle]
    simp

theorem Sound.reserve_fittest (hs : s.Sound) (hsize : s.Fits size)
    (h : s.reserve size = some (offset, t)) : ∃ segment,
      s.Fittest (s.roundedLength size) offset segment ∧
        s.Takes offset segment (s.roundedLength size) t := by
  rw [hs.reserve_eq] at h
  obtain ⟨⟨o, segment⟩, hbest, heq⟩ := Option.map_eq_some_iff.1 h
  cases heq
  obtain ⟨hmem, hfits⟩ := bestFit?_eq_some hbest
  have hfree : s.Has o segment .available := SortedMap.mem_entries.1 hmem
  have hle := (hs.fits_iff hfree).1 hfits
  refine ⟨segment, ⟨hfree, hle, ?_⟩, hs.takes hfree (hsize.pos hs.unit_pos) hle⟩
  intro p n hhas hn
  exact bestFit?_least hbest s.available.sorted (p, n) (SortedMap.mem_entries.2 hhas)
    ((hs.fits_iff hhas).2 hn)

end Segments

namespace SegmentSession

/-- A request for `size` takes its rounded length from the segment that fits best. -/
structure BestFits (s : SegmentSession) (size : Nat) : Prop where
  refused_iff : s.segments.reserve size = none ↔
    ∀ o n, s.segments.Has o n .available → n < s.segments.roundedLength size
  refused : s.segments.reserve size = none → s.apply (.reserve size) = s
  served : ∀ offset t, s.segments.reserve size = some (offset, t) →
    s.apply (.reserve size) = ⟨t, s.reserves + 1, s.releases⟩ ∧ ∃ segment,
      s.segments.Fittest (s.segments.roundedLength size) offset segment ∧
        s.segments.Takes offset segment (s.segments.roundedLength size) t

theorem run_bestFits (total alignment : Nat) (requests : List SegmentRequest)
    (hfits : ∀ r ∈ requests, r.Fits (max alignment 1)) (size : Nat)
    (hsize : roundUp (max size 1) (max alignment 1) < UInt64.size) :
    let s := (start total alignment).run requests
    s.segments.roundedLength size = roundUp (max size 1) (max alignment 1) ∧ s.BestFits size := by
  intro s
  have hk : Kept total alignment s := (Kept.start total alignment).run hfits
  have hs := hk.canonical.sound
  have hsize : s.segments.Fits size := by rwa [Segments.Fits, hk.alignment]
  refine ⟨by rw [hsize.roundedLength_eq, hk.alignment], ?_⟩
  constructor
  · exact hs.reserve_refused_iff size
  · intro h
    simp only [apply, h]
  · intro offset t h
    exact ⟨by simp only [apply, h], hs.reserve_fittest hsize h⟩

theorem run_bestFits_small :
    let s := (start 64 8).run [.reserve 8, .reserve 20, .release 0 5]
    s.segments.roundedLength 3 = 8 ∧ s.BestFits 3 :=
  run_bestFits 64 8 _ (by decide) 3 (by decide)

/-- Three holes of 8, 16 and 8 bytes: the first of the shortest serves, a longer request takes
the front of the middle one. -/
example :
    let s := (start 64 8).run [.reserve 8, .reserve 8, .reserve 16, .reserve 8, .reserve 8,
      .reserve 8, .release 0 8, .release 16 16, .release 40 8]
    (s.segments.reserve 3).map Prod.fst = some 0 ∧
      (s.segments.reserve 9).map Prod.fst = some 16 ∧
      (s.segments.reserve 17).map Prod.fst = none := by decide

end SegmentSession

end AffinityHeap
