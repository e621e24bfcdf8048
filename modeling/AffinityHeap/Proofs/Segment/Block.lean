import AffinityHeap.Proofs.AddressSpace
import AffinityHeap.Proofs.Segment.Tiling
import AffinityHeap.Segment.Block

namespace AffinityHeap

namespace SegmentBlock

variable {b b' : SegmentBlock} {live : List Grant} {g : Grant} {size : Nat}

/-- Each reservation stands for a live grant. -/
structure Keeps (b : SegmentBlock) (live : List Grant) : Prop where
  sound : b.segments.Sound
  covers : b.segments.Covers
  record : b.buffer.record = 1
  power : IsPowerOfTwo b.alignment
  base : b.alignment ∣ b.buffer.base
  total : b.segments.total = b.buffer.len
  small : b.alignment ≤ 0x8000000000000000
  fits : ∀ g ∈ live, b.segments.Fits g.size
  granted : (live.map fun g => (g.address, b.segments.roundedLength g.size)).Perm
    (b.segments.reserved.entries.map fun x => (b.buffer.base + x.1, x.2))

structure Like (b b' : SegmentBlock) : Prop where
  buffer : b'.buffer = b.buffer
  alignment : b'.alignment = b.alignment

theorem Like.trans {b'' : SegmentBlock} (h : b.Like b') (h' : b'.Like b'') : b.Like b'' :=
  ⟨h'.buffer.trans h.buffer, h'.alignment.trans h.alignment⟩

theorem Like.roundedLength (h : b.Like b') (size : Nat) :
    b'.segments.roundedLength size = b.segments.roundedLength size :=
  congrArg (fun unit => wrap (roundUp (max size 1) unit)) h.alignment

theorem Like.fits (h : b.Like b') (size : Nat) : b'.segments.Fits size ↔ b.segments.Fits size := by
  have hal : b'.segments.alignment = b.segments.alignment := h.alignment
  rw [Segments.Fits, Segments.Fits, hal]

namespace Keeps

theorem reservation (hk : b.Keeps live) (hg : g ∈ live) :
    ∃ offset, g.address = b.buffer.base + offset ∧
      b.segments.Has offset (b.segments.roundedLength g.size) .reserved := by
  have hmem := hk.granted.mem_iff.1 (List.mem_map_of_mem hg)
  obtain ⟨⟨offset, length⟩, hx, heq⟩ := List.mem_map.1 hmem
  obtain ⟨haddress, rfl⟩ := Prod.mk.inj heq
  exact ⟨offset, haddress.symm, SortedMap.mem_entries.1 hx⟩

/-- A size that a pool of segment blocks accepts can be rounded up within a word. -/
theorem fits_of_le (hk : b.Keeps live) (hsize : size ≤ 0x4000000000000000) :
    b.segments.Fits size := by
  have hlt := roundUp_lt (n := max size 1) hk.sound.unit_pos
  have hsmall : b.segments.alignment ≤ 0x8000000000000000 := hk.small
  have hword : UInt64.size = 0x10000000000000000 := rfl
  rw [Segments.Fits]
  omega

theorem allocate (hk : b.Keeps live) (hfits : b.segments.Fits size) :
    b.allocate size = (none, b) ∨
      ∃ offset b', b.allocate size = (some (b.buffer.base + offset), b') ∧
        b'.Keeps (⟨b.buffer.base + offset, size⟩ :: live) ∧ b.Like b' := by
  rcases Segments.reserve_cases hk.sound size with hnone | ⟨offset, segment, hhas, hle, hsome⟩
  · exact .inl (by rw [SegmentBlock.allocate, hnone])
  have hinside := hk.sound.inside _ _ _ hhas
  have hfree := hk.sound.find?_reserved hhas
  have hrounded := hfits.pos hk.sound.unit_pos
  have haddress : b.buffer.addressOf? offset = some (b.buffer.base + offset) := by
    rw [Buffer.addressOf?, if_pos (by rw [← hk.total]; omega), hk.record, Nat.mul_one]
  let b' : SegmentBlock :=
    { b with segments := b.segments.cutOff offset segment (b.segments.roundedLength size) }
  refine .inr ⟨offset, b', by simp only [SegmentBlock.allocate, hsome, haddress, b'], ?_, rfl, rfl⟩
  refine ⟨hk.sound.reserve hhas hrounded hfits.dvd (wrap_lt _) hle,
    hk.covers.reserve hk.sound hhas hrounded hle, hk.record, hk.power, hk.base, hk.total, hk.small,
    List.forall_mem_cons.2 ⟨hfits, hk.fits⟩, ?_⟩
  have hperm := b.segments.reserved.entries_insert_perm offset (b.segments.roundedLength size)
  rw [SortedMap.erase_of_find?_none hfree] at hperm
  refine .trans ?_ (hperm.symm.map _)
  exact hk.granted.cons _

theorem contains (hk : b.Keeps live) (hg : g ∈ live) : b.buffer.contains g.address = true := by
  obtain ⟨offset, haddress, hhas⟩ := hk.reservation hg
  have hinside := hk.sound.inside _ _ _ hhas
  have hpos := hk.sound.pos _ _ _ hhas
  rw [hk.total] at hinside
  rw [Buffer.contains_iff, Buffer.byteLen, hk.record, Nat.mul_one]
  omega

theorem reserved_iff (hk : b.Keeps live) {offset length : Nat} :
    b.segments.Has offset length .reserved ↔ ∃ g ∈ live,
      g.address = b.buffer.base + offset ∧ b.segments.roundedLength g.size = length := by
  constructor
  · intro hhas
    have hentry : (b.buffer.base + offset, length) ∈
        b.segments.reserved.entries.map fun x => (b.buffer.base + x.1, x.2) :=
      List.mem_map.2 ⟨(offset, length), SortedMap.mem_entries.2 hhas, rfl⟩
    obtain ⟨g, hg, heq⟩ := List.mem_map.1 (hk.granted.mem_iff.2 hentry)
    obtain ⟨haddress, hlength⟩ := Prod.mk.inj heq
    exact ⟨g, hg, haddress, hlength⟩
  · rintro ⟨g, hg, haddress, rfl⟩
    obtain ⟨o, ho, hhas⟩ := hk.reservation hg
    obtain rfl : o = offset := Nat.add_left_cancel (ho.symm.trans haddress)
    exact hhas

theorem nodup_addresses (hk : b.Keeps live) : (live.map (·.address)).Nodup := by
  have hperm := hk.granted.map Prod.fst
  rw [List.map_map, List.map_map] at hperm
  refine hperm.nodup_iff.2 ?_
  rw [List.Nodup, List.pairwise_map]
  refine b.segments.reserved.sorted.imp ?_
  intro x y hlt heq
  exact absurd (Nat.add_left_cancel heq) (Nat.ne_of_lt hlt)

theorem offsetOf? (hk : b.Keeps live) (hg : g ∈ live) :
    b.buffer.offsetOf? g.address = some (g.address - b.buffer.base) :=
  if_pos (hk.contains hg)

/-- Any size that takes as much room as the one asked for gives the grant back. -/
theorem release_sized (hk : b.Keeps live) (hg : g ∈ live)
    (hsize : b.segments.roundedLength size = b.segments.roundedLength g.size) :
    ∃ b', b.deallocate g.address size = .ok b' ∧ b'.Keeps (live.erase g) ∧ b.Like b' ∧
      b'.segments.reserved = b.segments.reserved.erase (g.address - b.buffer.base) := by
  obtain ⟨offset, haddress, hhas⟩ := hk.reservation hg
  have hoffset : g.address - b.buffer.base = offset := by omega
  have hreleased := Segments.release_eq_released.2 ⟨hsize.symm ▸ hhas, rfl⟩
  rw [hsize] at hreleased
  let b' : SegmentBlock :=
    { b with segments := b.segments.joined offset (b.segments.roundedLength g.size) }
  refine ⟨b', by
      simp only [SegmentBlock.deallocate, hk.offsetOf? hg, hoffset, hreleased, b'],
    ⟨hk.sound.release hhas, hk.covers.release hk.sound hhas, hk.record, hk.power, hk.base, hk.total,
      hk.small, fun k hmem => hk.fits k (List.mem_of_mem_erase hmem), ?_⟩, ⟨rfl, rfl⟩,
    by rw [hoffset]; rfl⟩
  have hlive := ((List.perm_cons_erase hg).map fun g =>
    (g.address, b.segments.roundedLength g.size)).symm.trans hk.granted
  have hreserved := (SortedMap.entries_perm hhas).map fun x => (b.buffer.base + x.1, x.2)
  have hboth := hlive.trans hreserved
  rw [List.map_cons, List.map_cons, haddress] at hboth
  exact hboth.cons_inv

theorem release (hk : b.Keeps live) (hg : g ∈ live) :
    ∃ b', b.deallocate g.address g.size = .ok b' ∧ b'.Keeps (live.erase g) ∧ b.Like b' := by
  obtain ⟨b', hrun, hkeeps, hlike, -⟩ := hk.release_sized hg rfl
  exact ⟨b', hrun, hkeeps, hlike⟩

/-- Live grants lie apart, whatever their lengths are rounded up to. -/
theorem apart (hk : b.Keeps live) : live.Pairwise fun g k =>
    g.address + b.segments.roundedLength g.size ≤ k.address ∨
      k.address + b.segments.roundedLength k.size ≤ g.address := by
  have hnd := hk.nodup_addresses
  rw [List.Nodup, List.pairwise_map] at hnd
  refine hnd.imp_of_mem fun {g k} hg hk' hne => ?_
  obtain ⟨o, haddress, ho⟩ := hk.reservation hg
  obtain ⟨p, haddress', hp⟩ := hk.reservation hk'
  have hop : o ≠ p := by
    rintro rfl
    exact hne (haddress.trans haddress'.symm)
  have hgap := hk.sound.apart _ _ _ _ _ _ ho hp fun heq => hop (Prod.mk.inj heq).2
  omega

theorem seats (hk : b.Keeps live) : b.buffer.region.Seats b.alignment live := by
  refine ⟨fun g hg => ?_, fun g hg => ?_, ?_⟩
  · obtain ⟨offset, haddress, hhas⟩ := hk.reservation hg
    rw [haddress]
    exact (Nat.dvd_add_right hk.base).2 (hk.sound.aligned _ _ _ hhas)
  · obtain ⟨offset, haddress, hhas⟩ := hk.reservation hg
    have hinside := hk.sound.inside _ _ _ hhas
    have hle := (hk.fits g hg).le hk.sound.unit_pos
    rw [hk.total] at hinside
    simp only [Grant.region, Region.stop, Buffer.region, hk.record, haddress]
    omega
  · refine hk.apart.imp_of_mem fun {g k} hg hk' hgap => ?_
    have hle := (hk.fits g hg).le hk.sound.unit_pos
    have hle' := (hk.fits k hk').le hk.sound.unit_pos
    simp only [Region.Disjoint, Grant.region, Region.stop]
    omega

theorem counted (hk : b.Keeps live) : b.segments.reservationCount = live.length := by
  have hlen := hk.granted.length_eq
  rw [List.length_map, List.length_map] at hlen
  exact hlen.symm

theorem eq_nil_of_isEmpty (hk : b.Keeps live) (h : b.isEmpty = true) : live = [] := by
  rw [isEmpty, hk.counted] at h
  exact List.length_eq_zero_iff.1 (beq_iff_eq.1 h)

end Keeps

/-- A block of one segment in a region of the rounded size, as far as that fits in a word. -/
def sited (blockSize alignment base : Nat) : SegmentBlock :=
  ⟨⟨base, blockSizeFor blockSize (max alignment 1), 1, max (max (max alignment 1) minAlignment) 1⟩,
    .new (blockSizeFor blockSize (max alignment 1)) (max alignment 1)⟩

theorem sited_alignment (blockSize alignment base : Nat) :
    (sited blockSize alignment base).alignment = max alignment 1 :=
  Nat.max_eq_left (Nat.le_max_right ..)

theorem sited_whole {alignment : Nat} (hpower : IsPowerOfTwo (max alignment 1))
    (blockSize base : Nat) :
    (sited blockSize alignment base).alignment ∣ (sited blockSize alignment base).buffer.len := by
  have hdvd : max (max alignment 1) 1 ∣ bytesFor blockSize (max alignment 1) := dvd_roundUp ..
  rw [sited_alignment]
  rw [Nat.max_eq_left (Nat.le_max_right ..)] at hdvd
  exact dvd_wrap hpower hdvd

theorem create_granted (s : AddressSpace) (blockSize alignment : Nat) :
    (∃ e s', create blockSize alignment s = (.error e, s') ∧ s.Refused s' ∧
        ∀ c, e ≠ .corruption c) ∨
      ∃ base, s.policy s.asked s.handed s.held
          (sited blockSize alignment base).buffer.region.size
          (sited blockSize alignment base).buffer.alignment = some base ∧
        IsPowerOfTwo (sited blockSize alignment base).buffer.alignment ∧
        IsPowerOfTwo (max alignment 1) ∧ max alignment 1 ≤ 0x8000000000000000 ∧
        create blockSize alignment s = (.ok (sited blockSize alignment base),
          { Buffer.grantedSpace s 1 (sited blockSize alignment base).buffer.len base with
            overflowed := s.overflows (bytesFor blockSize (max alignment 1)) }) := by
  unfold create
  by_cases hpower' : ¬ IsPowerOfTwo (max alignment 1)
  · exact .inl ⟨_, s, Obtain.guard_pos hpower', .refl s, fun _ => nofun⟩
  have hpower := Decidable.of_not_not hpower'
  let t : AddressSpace :=
    { s with overflowed := s.overflows (bytesFor blockSize (max alignment 1)) }
  have href : s.Refused t := .mark s _
  rcases Buffer.zeroed_cases t 1 (wrap (bytesFor blockSize (max alignment 1)))
    (max (max alignment 1) minAlignment) with
    ⟨e, s', hrun, hrefused, hne⟩ | ⟨base, hpolicy, hbuffer, hlayout, hrun⟩
  · refine .inl ⟨e, s', (Obtain.guard_neg hpower').trans ((Obtain.bind_apply ..).trans
      ((Obtain.bind_apply ..).trans ?_)), href.trans hrefused, hne⟩
    rw [hrun]
  · refine .inr ⟨base, hpolicy, hbuffer, hpower, by omega,
      (Obtain.guard_neg hpower').trans ((Obtain.bind_apply ..).trans
        ((Obtain.bind_apply ..).trans ?_))⟩
    rw [hrun]
    rfl

theorem create_cases (s : AddressSpace) (hs : s.Aligned) (blockSize alignment : Nat) :
    (∃ e s', create blockSize alignment s = (.error e, s') ∧ s.Refused s' ∧
        ∀ c, e ≠ .corruption c) ∨
      ∃ b s' obtained, create blockSize alignment s = (.ok b, s') ∧
        s.Obtained s' b.buffer.region obtained ∧ b.Keeps [] ∧ b.alignment = max alignment 1 := by
  refine (create_granted s blockSize alignment).imp id ?_
  rintro ⟨base, hpolicy, hbuffer, hpower, hsmall, hrun⟩
  have hal := sited_alignment blockSize alignment base
  have hkeeps : (sited blockSize alignment base).Keeps [] := by
    refine ⟨Segments.new_sound .., Segments.new_covers _ _, rfl, ?_, ?_, rfl, ?_,
      fun g hg => absurd hg List.not_mem_nil, .refl _⟩
    · rwa [hal]
    · rw [hal]
      exact Nat.dvd_trans (dvd_max_sixteen hpower (by decide)) (hs _ _ _ hbuffer hpolicy)
    · rwa [hal]
  exact ⟨_, _, _, hrun, (Buffer.zeroed_obtained hbuffer hpolicy).marked _, hkeeps, hal⟩

end SegmentBlock

end AffinityHeap
