import AffinityHeap.Proofs.Segment.Session

namespace AffinityHeap

namespace SegmentSession

variable {s : SegmentSession} {total alignment : Nat}

/-- The reservations settle the rest of the segments that `total` and `alignment` lead to by
requests of a kind. -/
structure Settled (kind : SegmentRequest → Prop) (total alignment : Nat) (s : SegmentSession) :
    Prop where
  separate : ∀ o n m, s.segments.available.find? o = some n →
    s.segments.available.find? (o + n) ≠ some m
  gaps : ∀ o n, s.segments.available.find? o = some n ↔
    Gap 0 total (fun p m => s.segments.reserved.find? p = some m) o n
  unique : ∀ requests, (∀ r ∈ requests, kind r) →
    ((start total alignment).run requests).segments.reserved = s.segments.reserved →
      ((start total alignment).run requests).segments = s.segments
  undone : ∀ size offset t, s.segments.reserve size = some (offset, t) →
    t.release offset size = .released s.segments
  commute : ∀ l l', s.segments.Live l → l.Perm l' →
    (s.releaseAll l).releases = s.releases + l.length ∧
      (s.releaseAll l').releases = s.releases + l'.length ∧
      (s.releaseAll l).segments = (s.releaseAll l').segments
  emptied : ∀ l, s.segments.Live l → (∀ o n, s.segments.Has o n .reserved → o ∈ l.map Prod.fst) →
    (s.releaseAll l).segments = .new total alignment
  live : s.segments.Live s.segments.reserved.entries

theorem Kept.settled (hk : Kept total alignment s) :
    Settled (·.Fits (max alignment 1)) total alignment s := by
  have hs := hk.canonical
  constructor
  · exact hs.separate
  · intro o n
    exact hk.total ▸ hs.division.free_iff
  · intro requests hfits h
    exact ((Kept.start total alignment).run hfits).eq_of_reserved hk h
  · intro size offset t h
    exact hs.release_reserve h
  · intro l l' hl hperm
    obtain ⟨hcount, -⟩ := releaseAll_live hs.sound hl
    obtain ⟨hcount', -⟩ := releaseAll_live hs.sound (hl.perm hperm)
    exact ⟨hcount, hcount', hk.releaseAll_perm hl hperm⟩
  · intro l hl hall
    exact hk.releaseAll_eq_new hl hall
  · exact hs.sound.live_entries

/-- Where the unit is one byte, rounding changes no word. -/
theorem fits_of_inWord {request : SegmentRequest} (h : request.InWord) : request.Fits 1 := by
  cases request with
  | reserve size =>
      have h : size < UInt64.size := h
      show roundUp (max size 1) 1 < UInt64.size
      rw [roundUp_of_dvd Nat.one_pos (Nat.one_dvd _)]
      exact Nat.max_lt.2 ⟨h, by decide⟩
  | release offset size => trivial

theorem apply_nothing (alignment : Nat) (request : SegmentRequest) :
    (start 0 alignment).apply request = start 0 alignment := by
  cases request <;> rfl

theorem run_nothing (alignment : Nat) (requests : List SegmentRequest) :
    (start 0 alignment).run requests = start 0 alignment := by
  induction requests with
  | nil => rfl
  | cons request rest ih => rwa [run, List.foldl_cons, apply_nothing]

theorem Settled.of_kind {kind kind' : SegmentRequest → Prop} (hs : Settled kind total alignment s)
    (h : ∀ r, kind' r → kind r) : Settled kind' total alignment s :=
  { hs with unique := fun requests hr => hs.unique requests fun r hmem => h r (hr r hmem) }

/-- Where everything is free, a request that is rounded to nothing reserves nothing in front. -/
theorem reserve_front {t : Segments} {size : Nat} (hunit : 0 < t.alignment) (htotal : 0 < total)
    (hfree : t.available = .singleton 0 total) (hlength : t.roundedLength size = 0) :
    t.reserve size = some (0, { t with reserved := t.reserved.insert 0 0 }) := by
  have hround : roundUp 0 t.alignment = 0 := roundUp_of_dvd hunit (Nat.dvd_zero _)
  have hbest : Segments.bestFit? t.alignment 0 t.available.entries = some (0, total) := by
    rw [hfree]
    show (if Segments.fits t.alignment 0 0 total then some (0, total) else none) = _
    exact if_pos (by simp [Segments.fits, hround])
  have hkept : Segments.addFree (Segments.addFree (t.available.erase 0) 0 0) (0 + 0) (0 + total) =
      t.available := by
    rw [Segments.addFree, Segments.addFree, if_neg (Nat.lt_irrefl 0), if_pos (by omega), hfree,
      Nat.zero_add, Nat.sub_zero, Nat.zero_add]
    rfl
  simp only [Segments.reserve, hlength, hbest, hround, hkept]

/-- The state in which everything is free and nothing is reserved in front. -/
def hollow (total alignment : Nat) : Segments where
  total := total
  alignment := max alignment 1
  available := .singleton 0 total
  reserved := .singleton 0 0

theorem run_greatest (htotal : 0 < total) (hpower : IsPowerOfTwo (max alignment 1))
    (hword : alignment < UInt64.size) (hlong : 1 < alignment) :
    ((start total alignment).run [.reserve (UInt64.size - 1)]).segments = hollow total alignment ∧
      (hollow total alignment).reserve (UInt64.size - 1) = some (0, hollow total alignment) := by
  have hmax : max alignment 1 = alignment := Nat.max_eq_left hlong.le
  have hlength : wrap (roundUp (max (UInt64.size - 1) 1) (max alignment 1)) = 0 :=
    wrap_roundUp_greatest hpower (by omega) (by omega)
  have hunit : 0 < max alignment 1 := hpower.pos
  have hfirst : (Segments.new total alignment).reserve (UInt64.size - 1) =
      some (0, hollow total alignment) :=
    (reserve_front (t := .new total alignment) hunit htotal (if_neg htotal.ne') hlength).trans
      (by rw [hollow, Segments.new, if_neg htotal.ne']; rfl)
  refine ⟨?_, reserve_front (t := hollow total alignment) hunit htotal rfl hlength⟩
  simp only [run, List.foldl_cons, List.foldl_nil, apply, start, hfirst]

theorem not_settled_greatest (htotal : 0 < total) (hpower : IsPowerOfTwo (max alignment 1))
    (hword : alignment < UInt64.size) (hlong : 1 < alignment) (kind : SegmentRequest → Prop) :
    ¬ Settled kind total alignment
      ((start total alignment).run [.reserve (UInt64.size - 1)]) := by
  intro hsettled
  obtain ⟨hsegments, hagain⟩ := run_greatest htotal hpower hword hlong
  -- The second reservation of nothing takes the place of the first, and a release ends both.
  have hundone := hsettled.undone (UInt64.size - 1) 0 (hollow total alignment)
    (hsegments.symm ▸ hagain)
  rw [hsegments, Segments.release_eq_released] at hundone
  have hreserved := congrArg (fun t : Segments => t.reserved.find? 0) hundone.2
  cases hreserved

/-- A hole between two reservations, and the free rest behind them. -/
example : ((start 64 8).run [.reserve 10, .reserve 3, .release 0 9, .release 8 3]).segments =
    { total := 64
      alignment := 8
      available := ⟨[(0, 16), (24, 40)], by decide⟩
      reserved := ⟨[(16, 8)], by decide⟩ } := by decide

end SegmentSession

end AffinityHeap
