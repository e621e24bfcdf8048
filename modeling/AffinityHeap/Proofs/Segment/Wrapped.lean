import AffinityHeap.Proofs.Segment.Block

namespace AffinityHeap

theorem sumOf_values_erase (m : SortedMap Nat) (k : Nat) :
    sumOf m.values = (m.find? k).getD 0 + sumOf (m.erase k).values := by
  cases hfind : m.find? k with
  | none => rw [SortedMap.erase_of_find?_none hfind, Option.getD_none, Nat.zero_add]
  | some v => rw [sumOf_perm (SortedMap.values_perm hfind), sumOf_cons, Option.getD_some]

theorem sumOf_values_insert (m : SortedMap Nat) (k v : Nat) :
    (m.find? k).getD 0 + sumOf (m.insert k v).values = v + sumOf m.values := by
  rw [sumOf_perm (m.values_insert_perm k v), sumOf_cons, sumOf_values_erase m k]
  omega

namespace Segments

variable {s t : Segments} {offset segment length start size : Nat}

/-- What holds of segments whatever their lengths were rounded to. One of no bytes may lie anywhere,
also inside another one, but the lengths still add up. -/
structure Weighed (s : Segments) : Prop where
  power : IsPowerOfTwo s.alignment
  aligned : ∀ kind o n, s.Has o n kind → s.alignment ∣ o
  whole : ∀ o n, s.Has o n .reserved → s.alignment ∣ n
  apart : ∀ kind kind' o n p m, s.Has o n kind → s.Has p m kind' → (kind, o) ≠ (kind', p) →
    0 < n → 0 < m → o + n ≤ p ∨ p + m ≤ o
  shared : ∀ o n m, s.Has o n .available → s.Has o m .reserved → m = 0
  sizes : s.availableSize + s.reservedSize = s.total

/-- Where a segment comes from that is there after a cut. -/
theorem cases_of_has_cutOff {kind : Kind} {o n : Nat}
    (h : (s.cutOff offset segment length).Has o n kind) :
    (kind = .available ∧ o = offset + length ∧ n = segment - length ∧ length < segment) ∨
      (kind = .reserved ∧ o = offset ∧ n = length) ∨ (s.Has o n kind ∧ o ≠ offset) := by
  cases kind with
  | available =>
      rw [Has, find?_available_cutOff] at h
      split_ifs at h with hcut hk
      · exact .inl ⟨rfl, hcut.2.symm, (Option.some.inj h).symm, hcut.1⟩
      · exact .inr (.inr ⟨h, Ne.symm hk⟩)
  | reserved =>
      rw [Has, cutOff, SortedMap.find?_insert] at h
      split_ifs at h with hk
      · exact .inr (.inl ⟨rfl, hk.symm, (Option.some.inj h).symm⟩)
      · exact .inr (.inr ⟨h, Ne.symm hk⟩)

/-- A segment that a release has nothing to do with: it is neither the one released nor one of those
joined with it, of which `start` is the offset in front. -/
structure LeftAlone (offset length start : Nat) (kind : Kind) (o : Nat) : Prop where
  reserved : (kind, o) ≠ (.reserved, offset)
  front : (kind, o) ≠ (.available, start)
  behind : (kind, o) ≠ (.available, offset + length)

/-- Where a segment comes from that is there after a release. -/
theorem cases_of_has_joined {kind : Kind} {o n : Nat}
    (hfind : ∀ k, (coalesce s.available offset length).find? k =
      if start = k then some (coalescedStop s.available offset length - start)
      else if offset + length = k then none else s.available.find? k)
    (h : (s.joined offset length).Has o n kind) :
    (kind = .available ∧ o = start ∧ n = coalescedStop s.available offset length - start) ∨
      (s.Has o n kind ∧ LeftAlone offset length start kind o) := by
  cases kind with
  | available =>
      rw [Has, joined, hfind] at h
      split_ifs at h with hk hcut
      · exact .inl ⟨rfl, hk.symm, (Option.some.inj h).symm⟩
      · exact .inr ⟨h, by simp, by simpa using Ne.symm hk, by simpa using Ne.symm hcut⟩
  | reserved =>
      rw [Has, joined, SortedMap.find?_erase] at h
      split_ifs at h with hk
      exact .inr ⟨h, by simpa using Ne.symm hk, by simp, by simp⟩

namespace Weighed

theorem new (total : Nat) {alignment : Nat} (hpower : IsPowerOfTwo (max alignment 1)) :
    (Segments.new total alignment).Weighed := by
  have hs := new_sound total alignment
  refine ⟨hpower, hs.aligned, hs.whole, fun _ _ _ _ _ _ h h' hne _ _ => hs.apart _ _ _ _ _ _ h h' hne,
    fun o n m h h' => ?_, hs.sizes (new_covers total alignment)⟩
  cases (has_new.1 h').1

theorem sizes_cutOff (hs : s.Weighed) (hhas : s.Has offset segment .available)
    (hle : length ≤ segment) :
    (s.cutOff offset segment length).availableSize +
      (s.cutOff offset segment length).reservedSize = s.total := by
  have hsizes := hs.sizes
  have hfree := sumOf_values_erase s.available offset
  have hreserved := sumOf_values_insert s.reserved offset length
  have hold : s.available.find? offset = some segment := hhas
  rw [hold, Option.getD_some] at hfree
  -- What the new entries take the place of has no bytes.
  have hover : (s.reserved.find? offset).getD 0 = 0 := by
    cases h : s.reserved.find? offset with
    | none => rfl
    | some m => exact hs.shared _ _ _ hhas h
  have hrest : ((s.available.erase offset).find? (offset + length)).getD 0 = 0 ∨
      length = segment := by
    rw [SortedMap.find?_erase]
    split_ifs with hk
    · exact .inl rfl
    · refine (Nat.lt_or_eq_of_le hle).imp_left fun hlt => ?_
      cases h : s.available.find? (offset + length) with
      | none => rfl
      | some m =>
          have h : s.Has (offset + length) m .available := h
          refine Nat.eq_zero_of_not_pos fun hm => ?_
          have hapart := hs.apart _ _ _ _ _ _ hhas h (fun heq => hk (Prod.mk.inj heq).2)
            (by omega) hm
          omega
  have hinsert := sumOf_values_insert (s.available.erase offset) (offset + length)
    (segment - length)
  simp only [availableSize, reservedSize, cutOff, addFree, Nat.add_lt_add_iff_left,
    Nat.add_sub_add_left] at hsizes ⊢
  split_ifs with hcut <;> omega

theorem cutOff (hs : s.Weighed) (hhas : s.Has offset segment .available)
    (hdvd : s.alignment ∣ length) (hle : length ≤ segment) :
    (s.cutOff offset segment length).Weighed := by
  have hfar : ∀ kind o n, s.Has o n kind → o ≠ offset → 0 < segment → 0 < n →
      offset + segment ≤ o ∨ o + n ≤ offset := fun kind o n h hne hsegment hn =>
    hs.apart _ _ _ _ _ _ hhas h (fun heq => hne (Prod.mk.inj heq).2.symm) hsegment hn
  refine ⟨hs.power, ?_, ?_, ?_, ?_, hs.sizes_cutOff hhas hle⟩
  · intro kind o n h
    rcases cases_of_has_cutOff h with ⟨-, rfl, -⟩ | ⟨-, rfl, -⟩ | ⟨h, -⟩
    · exact (Nat.dvd_add_right (hs.aligned _ _ _ hhas)).2 hdvd
    · exact hs.aligned _ _ _ hhas
    · exact hs.aligned _ _ _ h
  · intro o n h
    rcases cases_of_has_cutOff h with ⟨hk, -⟩ | ⟨-, -, rfl⟩ | ⟨h, -⟩
    · cases hk
    · exact hdvd
    · exact hs.whole _ _ h
  · intro kind kind' o n p m h h' hne hn hm
    rcases cases_of_has_cutOff h with ⟨rfl, rfl, rfl, hlt⟩ | ⟨rfl, rfl, rfl⟩ | ⟨hx, hox⟩ <;>
      rcases cases_of_has_cutOff h' with ⟨rfl, rfl, rfl, hlt'⟩ | ⟨rfl, rfl, rfl⟩ | ⟨hy, hpy⟩
    · exact absurd rfl hne
    · omega
    · have hbeside := hfar _ _ _ hy hpy (by omega) hm
      omega
    · omega
    · exact absurd rfl hne
    · have hbeside := hfar _ _ _ hy hpy (by omega) hm
      omega
    · have hbeside := hfar _ _ _ hx hox (by omega) hn
      omega
    · have hbeside := hfar _ _ _ hx hox (by omega) hn
      omega
    · exact hs.apart _ _ _ _ _ _ hx hy hne hn hm
  · intro o n m h h'
    rcases cases_of_has_cutOff h' with ⟨hk, -⟩ | ⟨-, rfl, rfl⟩ | ⟨hy, hne⟩
    · cases hk
    · rcases cases_of_has_cutOff h with ⟨-, ho, -⟩ | ⟨hk, -⟩ | ⟨-, hne⟩
      · omega
      · cases hk
      · exact absurd rfl hne
    · rcases cases_of_has_cutOff h with ⟨-, rfl, rfl, hlt⟩ | ⟨hk, -⟩ | ⟨hx, -⟩
      · refine Nat.eq_zero_of_not_pos fun hm => ?_
        have hbeside := hfar _ _ _ hy hne (by omega) hm
        omega
      · cases hk
      · exact hs.shared _ _ _ hx hy

/-- No free segment but one of no bytes starts where a reservation does. -/
theorem find?_available (hs : s.Weighed) (hhas : s.Has offset length .reserved) :
    ((s.available.erase (offset + length)).find? offset).getD 0 = 0 := by
  rw [SortedMap.find?_erase]
  split_ifs with hk
  · rfl
  · cases h : s.available.find? offset with
    | none => rfl
    | some n =>
        have hnone := hs.shared _ _ _ h hhas
        omega

theorem sizes_joined (hs : s.Weighed) (hhas : s.Has offset length .reserved) :
    (s.joined offset length).availableSize + (s.joined offset length).reservedSize = s.total := by
  have hsizes := hs.sizes
  have hheld : s.reserved.find? offset = some length := hhas
  have hreserved := sumOf_values_erase s.reserved offset
  have hbehind := sumOf_values_erase s.available (offset + length)
  rw [hheld, Option.getD_some] at hreserved
  have hsum : sumOf (coalesce s.available offset length).values =
      sumOf s.available.values + length := by
    simp only [coalesce]
    have hnew : sumOf ((s.available.erase (offset + length)).insert offset
        (offset + length + (s.available.find? (offset + length)).getD 0 - offset)).values =
        sumOf s.available.values + length := by
      have hinsert := sumOf_values_insert (s.available.erase (offset + length)) offset
        (offset + length + (s.available.find? (offset + length)).getD 0 - offset)
      rw [hs.find?_available hhas] at hinsert
      omega
    split
    · rename_i o n hbelow
      obtain ⟨hfind, hlt, -⟩ := SortedMap.below?_eq_some hbelow
      split_ifs with htouch
      · have hfront := sumOf_values_erase (s.available.erase (offset + length)) o
        have hinsert := sumOf_values_insert ((s.available.erase (offset + length)).erase o) o
          (offset + length + (s.available.find? (offset + length)).getD 0 - o)
        rw [SortedMap.find?_erase, if_neg (by omega), hfind, Option.getD_some] at hfront
        rw [SortedMap.find?_erase, if_pos rfl, Option.getD_none] at hinsert
        omega
      · exact hnew
    · exact hnew
  simp only [availableSize, reservedSize, joined] at hsizes ⊢
  omega

/-- What a release leaves alone is apart from all that it joins. -/
theorem apart_joined (hs : s.Weighed) (hhas : s.Has offset length .reserved)
    (hfront : start = offset ∨ ∃ n, s.Has start n .available ∧ start + n = offset) {kind : Kind}
    {o n : Nat} (h : s.Has o n kind) (hleft : LeftAlone offset length start kind o) (hn : 0 < n)
    (hlt : start < coalescedStop s.available offset length) :
    o + n ≤ start ∨ coalescedStop s.available offset length ≤ o := by
  have hmiddle : 0 < length → o + n ≤ offset ∨ offset + length ≤ o := fun hlength =>
    hs.apart _ _ _ _ _ _ h hhas hleft.reserved hn hlength
  have hlow : start < offset → o + n ≤ start ∨ offset ≤ o := by
    intro hlow
    obtain ⟨k, hk, hend⟩ := hfront.resolve_left (Nat.ne_of_lt hlow)
    have hapart := hs.apart _ _ _ _ _ _ h hk hleft.front hn (by omega)
    rwa [hend] at hapart
  have hhigh : offset + length < coalescedStop s.available offset length →
      o + n ≤ offset + length ∨ coalescedStop s.available offset length ≤ o := by
    intro hhigh
    rw [coalescedStop] at hhigh ⊢
    cases hbehind : s.available.find? (offset + length) with
    | none => simp [hbehind] at hhigh
    | some k =>
        have hfree : s.Has (offset + length) k .available := hbehind
        rw [hbehind, Option.getD_some] at hhigh
        have hapart := hs.apart _ _ _ _ _ _ h hfree hleft.behind hn (by omega)
        exact hapart
  omega

theorem joined (hs : s.Weighed) (hhas : s.Has offset length .reserved) :
    (s.joined offset length).Weighed := by
  obtain ⟨start, hfront, hfind⟩ := find?_coalesce s.available offset length
  have hfront : start = offset ∨ ∃ n, s.Has start n .available ∧ start + n = offset :=
    hfront.imp_left And.left
  refine ⟨hs.power, ?_, ?_, ?_, ?_, hs.sizes_joined hhas⟩
  · intro kind o n h
    rcases cases_of_has_joined hfind h with ⟨-, rfl, -⟩ | ⟨h, -⟩
    · rcases hfront with rfl | ⟨k, hk, -⟩
      · exact hs.aligned _ _ _ hhas
      · exact hs.aligned _ _ _ hk
    · exact hs.aligned _ _ _ h
  · intro o n h
    rcases cases_of_has_joined hfind h with ⟨hk, -⟩ | ⟨h, -⟩
    · cases hk
    · exact hs.whole _ _ h
  · intro kind kind' o n p m h h' hne hn hm
    rcases cases_of_has_joined hfind h with ⟨rfl, rfl, rfl⟩ | ⟨hx, hxleft⟩ <;>
      rcases cases_of_has_joined hfind h' with ⟨rfl, rfl, rfl⟩ | ⟨hy, hyleft⟩
    · exact absurd rfl hne
    · have hapart := hs.apart_joined hhas hfront hy hyleft hm (by omega)
      omega
    · have hapart := hs.apart_joined hhas hfront hx hxleft hn (by omega)
      omega
    · exact hs.apart _ _ _ _ _ _ hx hy hne hn hm
  · intro o n m h h'
    rcases cases_of_has_joined hfind h' with ⟨hk, -⟩ | ⟨hy, hyleft⟩
    · cases hk
    · rcases cases_of_has_joined hfind h with ⟨-, rfl, -⟩ | ⟨hx, -⟩
      · rcases hfront with rfl | ⟨k, hk, -⟩
        · exact absurd rfl hyleft.reserved
        · exact hs.shared _ _ _ hk hy
      · exact hs.shared _ _ _ hx hy

theorem reserve (hs : s.Weighed) (h : s.reserve size = some (offset, t)) :
    t.Weighed ∧ t.total = s.total := by
  rw [Segments.reserve_eq hs.power.pos (hs.aligned _)] at h
  obtain ⟨⟨o, segment⟩, hbest, heq⟩ := Option.map_eq_some_iff.1 h
  cases heq
  obtain ⟨hmem, hfits⟩ := bestFit?_eq_some hbest
  have hfree : s.Has o segment .available := SortedMap.mem_entries.1 hmem
  rw [fits, roundUp_of_dvd hs.power.pos (hs.aligned _ _ _ hfree), Nat.add_le_add_iff_left] at hfits
  exact ⟨hs.cutOff hfree (dvd_wrap hs.power (dvd_roundUp ..)) hfits, rfl⟩

theorem release (hs : s.Weighed) (h : s.release offset size = .released t) :
    t.Weighed ∧ t.total = s.total := by
  obtain ⟨hlive, rfl⟩ := release_eq_released.1 h
  exact ⟨hs.joined hlive, rfl⟩

end Weighed

end Segments

namespace SegmentBlock

variable {b b' : SegmentBlock}

structure Weighed (b : SegmentBlock) : Prop where
  segments : b.segments.Weighed
  total : b.segments.total = b.buffer.len
  record : b.buffer.record = 1

namespace Weighed

theorem allocate (hb : b.Weighed) (size : Nat) : (b.allocate size).2.Weighed := by
  rw [SegmentBlock.allocate]
  split
  · exact hb
  · rename_i offset t hreserve
    obtain ⟨hweighed, htotal⟩ := hb.segments.reserve hreserve
    exact ⟨hweighed, htotal.trans hb.total, hb.record⟩

theorem deallocate (hb : b.Weighed) {address size : Nat}
    (h : b.deallocate address size = .ok b') : b'.Weighed := by
  rw [SegmentBlock.deallocate] at h
  split at h
  · cases h
  · split at h
    · cases h
    · cases h
    · rename_i t hrelease
      cases h
      obtain ⟨hweighed, htotal⟩ := hb.segments.release hrelease
      exact ⟨hweighed, htotal.trans hb.total, hb.record⟩

theorem sizes (hb : b.Weighed) :
    b.stats.reservedSize + b.stats.availableSize = b.stats.memorySize := by
  simp only [stats, Buffer.byteLen, hb.record, Nat.mul_one, ← hb.total, ← hb.segments.sizes]
  exact Nat.add_comm ..

theorem create {s s' : AddressSpace} {blockSize alignment : Nat}
    (h : SegmentBlock.create blockSize alignment s = (.ok b, s')) : b.Weighed := by
  rcases create_granted s blockSize alignment with ⟨e, t, hrun, -⟩ | ⟨base, -, -, hpower, -, hrun⟩
  · rw [h] at hrun
    cases hrun
  · rw [h] at hrun
    cases hrun
    have hal : max (max alignment 1) 1 = max alignment 1 := Nat.max_eq_left (Nat.le_max_right ..)
    exact ⟨.new _ (hal.symm ▸ hpower), rfl, rfl⟩

end Weighed

end SegmentBlock

end AffinityHeap
