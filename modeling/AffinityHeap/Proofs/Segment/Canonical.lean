import AffinityHeap.Proofs.Gap
import AffinityHeap.Proofs.Segment.Tiling

namespace AffinityHeap

namespace Segments

variable {s t : Segments} {total alignment offset length segment size o n : Nat}

/-- No two free segments touch. -/
def Separate (s : Segments) : Prop :=
  ∀ o n m, s.Has o n .available → ¬ s.Has (o + n) m .available

theorem new_separate (total alignment : Nat) : (Segments.new total alignment).Separate := by
  intro o n m h h'
  obtain ⟨-, rfl, rfl, htotal⟩ := has_new.1 h
  obtain ⟨-, hend, -⟩ := has_new.1 h'
  omega

/-- A reservation leaves the rest of the segment it takes apart from the next free one, since
that one would have touched the segment before. -/
theorem Separate.reserve (hd : s.Separate) (hs : s.Sound) (hhas : s.Has offset segment .available)
    (hpos : 0 < length) (hle : length ≤ segment) : (s.cutOff offset segment length).Separate := by
  have hiff := has_cutOff hs hhas hpos hle
  intro o n m h h'
  rcases (hiff ..).1 h with ⟨-, rfl, rfl, hlt⟩ | ⟨hk, -⟩ | ⟨hold, hne⟩
  · have hend : offset + length + (segment - length) = offset + segment := by omega
    rw [hend] at h'
    rcases (hiff ..).1 h' with ⟨-, heq, -⟩ | ⟨hk, -⟩ | ⟨hold', -⟩
    · omega
    · cases hk
    · exact hd _ _ _ hhas hold'
  · cases hk
  · rcases (hiff ..).1 h' with ⟨-, heq, -⟩ | ⟨hk, -⟩ | ⟨hold', -⟩
    · have hapart := hs.apart _ _ _ _ _ _ hold hhas hne
      have hlength := hs.pos _ _ _ hold
      omega
    · cases hk
    · exact hd _ _ _ hold hold'

theorem Separate.release (hd : s.Separate) (hs : s.Sound)
    (hhas : s.Has offset length .reserved) : (s.joined offset length).Separate := by
  obtain ⟨start, stop, hj, hiff⟩ := exists_joins hs hhas
  have hle := hj.bounds hs hhas
  have hlen := hs.pos _ _ _ hhas
  intro o n m h h'
  rcases (hiff ..).1 h with ⟨-, rfl, rfl⟩ | ⟨hold, -⟩
  · have hend : o + (stop - o) = stop := by omega
    rw [hend] at h'
    rcases (hiff ..).1 h' with ⟨-, heq, -⟩ | ⟨hold', -⟩
    · omega
    · rcases hj.behind with ⟨rfl, hnone⟩ | ⟨k, hk, rfl⟩
      · exact hnone _ hold'
      · exact hd _ _ _ hk hold'
  · rcases (hiff ..).1 h' with ⟨-, heq, -⟩ | ⟨hold', -⟩
    · rcases hj.front with ⟨rfl, hnone⟩ | ⟨k, hk, -⟩
      · exact hnone _ _ hold heq
      · exact hd _ _ _ hold (heq ▸ hk)
    · exact hd _ _ _ hold hold'

structure Canonical (s : Segments) : Prop where
  sound : s.Sound
  covers : s.Covers
  separate : s.Separate

namespace Canonical

theorem new (total alignment : Nat) : (Segments.new total alignment).Canonical :=
  ⟨new_sound total alignment, new_covers total alignment, new_separate total alignment⟩

theorem reserve (hs : s.Canonical) (hhas : s.Has offset segment .available) (hfits : s.Fits size)
    (hle : s.roundedLength size ≤ segment) :
    (s.cutOff offset segment (s.roundedLength size)).Canonical := by
  have hpos := hfits.pos hs.sound.unit_pos
  exact ⟨hs.sound.reserve hhas hpos hfits.dvd (wrap_lt _) hle,
    hs.covers.reserve hs.sound hhas hpos hle, hs.separate.reserve hs.sound hhas hpos hle⟩

theorem release (hs : s.Canonical) (hhas : s.Has offset length .reserved) :
    (s.joined offset length).Canonical :=
  ⟨hs.sound.release hhas, hs.covers.release hs.sound hhas, hs.separate.release hs.sound hhas⟩

theorem division (hs : s.Canonical) :
    Division 0 s.total (s.Has · · .available) (s.Has · · .reserved) := by
  refine ⟨fun o n h => ⟨hs.sound.pos _ _ _ h, Nat.zero_le o, hs.sound.inside _ _ _ h⟩,
    fun x _ hx => ?_, fun o n p m h h' => ?_, fun o n p m h h' hne => ?_⟩
  · obtain ⟨kind, o, n, h, hlow, hhigh⟩ := hs.covers x hx
    cases kind with
    | available => exact .inl ⟨o, n, h, hlow, hhigh⟩
    | reserved => exact .inr ⟨o, n, h, hlow, hhigh⟩
  · exact hs.sound.apart _ _ _ _ _ _ h h' fun heq => nomatch (Prod.mk.inj heq).1
  · have hop : o ≠ p := by
      rintro rfl
      exact hne (by rw [Option.some.inj (h.symm.trans h')])
    have hapart := hs.sound.apart _ _ _ _ _ _ h h' fun heq => hop (Prod.mk.inj heq).2
    have hfront : o + n ≠ p := fun heq => hs.separate _ _ _ h (heq ▸ h')
    have hbehind : p + m ≠ o := fun heq => hs.separate _ _ _ h' (heq ▸ h)
    omega

/-- The reservations settle where the free segments are. -/
theorem ext (hs : s.Canonical) (ht : t.Canonical) (htotal : s.total = t.total)
    (halign : s.alignment = t.alignment) (hres : s.reserved = t.reserved) : s = t := by
  have hfree : s.available = t.available := SortedMap.ext_find? fun k => Option.ext fun n => by
    have hheld : (s.Has · · .reserved) = (t.Has · · .reserved) := by simp only [Has, hres]
    exact hs.division.free_iff.trans (hheld ▸ htotal ▸ ht.division.free_iff.symm)
  obtain ⟨total, alignment, available, reserved⟩ := s
  obtain ⟨total', alignment', available', reserved'⟩ := t
  simp only at htotal halign hres hfree
  rw [htotal, halign, hres, hfree]

/-- A cut that is undone leaves nothing behind, whatever length it had. -/
theorem joined_cutOff (hs : s.Canonical) (hhas : s.Has offset segment .available)
    (hle : length ≤ segment) : (s.cutOff offset segment length).joined offset length = s := by
  have hpos := hs.sound.pos _ _ _ hhas
  have hbehind : ∀ n, 0 < length → ¬ s.Has (offset + length) n .available := fun n hlen h => by
    rcases Nat.lt_or_eq_of_le hle with hlt | rfl
    · have hn := hs.sound.pos _ _ _ h
      have hapart := hs.sound.apart _ _ _ _ _ _ hhas h fun heq => by simp at heq; omega
      omega
    · exact hs.separate _ _ _ hhas h
  let free := (s.cutOff offset segment length).available
  have hfree := s.find?_available_cutOff offset segment length
  obtain ⟨a, ha, hfind⟩ := find?_coalesce free offset length
  -- No free segment ended where the one that was cut starts.
  obtain rfl : a = offset := by
    rcases ha with ⟨ha, -⟩ | ⟨n, hn, hend⟩
    · exact ha
    · rw [hfree] at hn
      split_ifs at hn with hcut hk
      · omega
      · exact absurd (hend ▸ hhas) (hs.separate a n segment hn)
  have hstop : coalescedStop free a length - a = segment := by
    rw [coalescedStop, hfree]
    rcases Nat.lt_or_eq_of_le hle with hlt | rfl
    · rw [if_pos ⟨hlt, rfl⟩, Option.getD_some]
      omega
    · have hnone : s.available.find? (a + length) = none :=
        Option.eq_none_iff_forall_ne_some.2 fun n => hbehind n hpos
      rw [if_neg (fun h => Nat.lt_irrefl _ h.1), if_neg (by omega), hnone, Option.getD_none]
      omega
  have havailable : coalesce free a length = s.available := SortedMap.ext_find? fun k => by
    rw [hfind, hstop, hfree]
    split_ifs with hk hcut hnew
    · exact hk ▸ hhas.symm
    · exact (Option.eq_none_iff_forall_ne_some.2 fun n => hcut ▸ hbehind n (by omega)).symm
    · exact absurd hnew.2 hcut
    · rfl
  have hreserved : (s.reserved.insert a length).erase a = s.reserved :=
    SortedMap.ext_find? fun k => by
      rw [SortedMap.find?_erase, SortedMap.find?_insert]
      by_cases hk : a = k
      · rw [if_pos hk, ← hk, hs.sound.find?_reserved hhas]
      · rw [if_neg hk, if_neg hk]
  show ({ s with
      available := coalesce free a length
      reserved := (s.reserved.insert a length).erase a } : Segments) = s
  rw [havailable, hreserved]

theorem release_reserve (hs : s.Canonical) (h : s.reserve size = some (offset, t)) :
    t.release offset size = .released s := by
  rcases reserve_cases hs.sound size with hnone | ⟨o, segment, hhas, hle, hsome⟩
  · rw [hnone] at h
    cases h
  · obtain ⟨rfl, rfl⟩ := Prod.mk.inj (Option.some.inj (hsome.symm.trans h))
    refine release_eq_released.2 ⟨?_, (hs.joined_cutOff hhas hle).symm⟩
    exact SortedMap.find?_insert_self ..

end Canonical

end Segments

end AffinityHeap
