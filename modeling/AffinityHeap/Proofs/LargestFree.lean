import AffinityHeap.Proofs.BlockSession
import AffinityHeap.Proofs.Slot.Coalesced
import AffinityHeap.Proofs.Slot.Refinement

namespace AffinityHeap

theorem le_foldl_max {l : List Nat} {a n : Nat} :
    n ≤ l.foldl max a ↔ n ≤ a ∨ ∃ k ∈ l, n ≤ k := by
  induction l generalizing a with
  | nil => simp
  | cons k l ih =>
      have hmax : n ≤ max a k ↔ n ≤ a ∨ n ≤ k := by omega
      rw [List.foldl_cons, ih, hmax, or_assoc]
      simp only [List.mem_cons, exists_eq_or_imp]

theorem exists_le_iff {l : List Nat} {n : Nat} :
    (∃ k ∈ l, n ≤ k) ↔ 0 < l.length ∧ n ≤ l.foldl max 0 := by
  rw [le_foldl_max]
  constructor
  · rintro ⟨k, hk, hn⟩
    exact ⟨List.length_pos_of_mem hk, .inr ⟨k, hk, hn⟩⟩
  · rintro ⟨hpos, h0 | h⟩
    · obtain ⟨k, hk⟩ := List.exists_mem_of_length_pos hpos
      exact ⟨k, hk, Nat.le_trans h0 (Nat.zero_le k)⟩
    · exact h

namespace Segments

variable {s : Segments} {offset n size : Nat}

/-- A free segment ends where another segment starts or where all do. -/
theorem Sound.dvd_free (hs : s.Sound) (hc : s.Covers) (htotal : s.alignment ∣ s.total)
    (hhas : s.Has offset n .available) : s.alignment ∣ n := by
  have hoffset := hs.aligned _ _ _ hhas
  have hpos := hs.pos _ _ _ hhas
  have hinside := hs.inside _ _ _ hhas
  refine (Nat.dvd_add_right hoffset).1 ?_
  rcases Nat.eq_or_lt_of_le hinside with hend | hlt
  · rwa [hend]
  · obtain ⟨kind, o, k, hnext, hlow, hhigh⟩ := hc (offset + n) hlt
    have hapart := hs.apart _ _ _ _ _ _ hhas hnext fun heq => by
      obtain ⟨rfl, rfl⟩ := Prod.mk.inj heq
      obtain rfl := Option.some.inj (hhas.symm.trans hnext)
      exact Nat.lt_irrefl _ hhigh
    have hstart : offset + n = o := by omega
    rw [hstart]
    exact hs.aligned _ _ _ hnext

theorem Sound.reserve_eq_none_iff (hs : s.Sound) (hc : s.Covers) (htotal : s.alignment ∣ s.total)
    (hsize : s.Fits size) :
    s.reserve size = none ↔ ¬ ∃ n ∈ s.available.values, size ≤ n := by
  have hround : ∀ {o n}, s.Has o n .available → (s.roundedLength size ≤ n ↔ size ≤ n) := by
    intro o n hhas
    have hle := hsize.le hs.unit_pos
    have hpos := hs.pos _ _ _ hhas
    refine ⟨fun h => by omega, fun h => ?_⟩
    rw [hsize.roundedLength_eq]
    exact roundUp_le_of_dvd hs.unit_pos (by omega) (hs.dvd_free hc htotal hhas)
  rw [hs.reserve_refused_iff]
  constructor
  · rintro hnone ⟨n, hn, hsize⟩
    obtain ⟨o, hhas⟩ := SortedMap.mem_values.1 hn
    exact absurd (hnone o n hhas) (Nat.not_lt.2 ((hround hhas).2 hsize))
  · intro hfull o n hhas
    refine Nat.not_le.1 fun hle => hfull ⟨n, ?_, (hround hhas).1 hle⟩
    exact SortedMap.mem_values.2 ⟨o, hhas⟩

end Segments

/-- A free region is large enough, as far as the statistics tell. -/
def BlockStats.Room (stats : BlockStats) (size : Nat) : Prop :=
  0 < stats.freeRegions ∧ size ≤ stats.largestFree

theorem SegmentBlock.Keeps.served_iff {b : SegmentBlock} {live : List Grant} (hk : b.Keeps live)
    (hlen : b.alignment ∣ b.buffer.len) {size : Nat} (hsize : b.segments.Fits size) :
    (∃ address b', b.allocate size = (some address, b')) ↔ b.stats.Room size := by
  have htotal : b.segments.alignment ∣ b.segments.total := by
    rw [hk.total]
    exact hlen
  have hnone : b.segments.reserve size = none ↔ ¬ ∃ n ∈ b.segments.available.values, size ≤ n :=
    hk.sound.reserve_eq_none_iff hk.covers htotal hsize
  have hroom : b.stats.Room size ↔ ∃ n ∈ b.segments.available.values, size ≤ n := by
    rw [exists_le_iff, SortedMap.values, List.length_map]
    rfl
  rw [hroom]
  constructor
  · rintro ⟨address, b', hrun⟩
    refine Decidable.of_not_not fun hfull => ?_
    rw [SegmentBlock.allocate, hnone.2 hfull] at hrun
    cases hrun
  · intro hfits
    rcases Segments.reserve_cases hk.sound size with hrefused | ⟨offset, n, hhas, -, hsome⟩
    · exact absurd hfits (hnone.1 hrefused)
    · have hinside := hk.sound.inside _ _ _ hhas
      have hpos := hk.sound.pos _ _ _ hhas
      have haddress : b.buffer.addressOf? offset = some (b.buffer.base + offset) := by
        rw [Buffer.addressOf?, if_pos (by rw [← hk.total]; omega), hk.record, Nat.mul_one]
      simp only [SegmentBlock.allocate, hsome, haddress]
      exact ⟨_, _, rfl⟩

theorem SlotHeap.Keeps.room_iff {h : SlotHeap} {L : Layout} {live : List Grant}
    (hk : h.Keeps L live) (size : Nat) : h.stats.Room size ↔
      ∃ s ∈ L.slots, s.status = .free ∧ size ≤ s.payloadBytes := by
  obtain ⟨pairs, hrun, hperm⟩ := hk.freeSlots
  have hlargest : h.largestFree = (pairs.map fun s => (s.2 - 1) * 4).foldl max 0 := by
    simp only [largestFree, hrun]
  have hcount : h.block.freeCount = (pairs.map fun s => (s.2 - 1) * 4).length := by
    rw [List.length_map, hperm.length_eq, hk.consistent.counted, hk.consistent.complete.length_eq,
      freePositions, vacancies, List.length_map, List.length_map]
  have hroom : h.stats.Room size ↔ ∃ n ∈ pairs.map fun s => (s.2 - 1) * 4, size ≤ n := by
    rw [exists_le_iff, ← hcount, ← hlargest]
    rfl
  rw [hroom]
  constructor
  · rintro ⟨n, hn, hsize⟩
    obtain ⟨⟨p, k⟩, hpair, rfl⟩ := List.mem_map.1 hn
    obtain ⟨s, hs, hf, rfl, rfl⟩ := mem_vacancies.1 (hperm.mem_iff.1 hpair)
    exact ⟨s, hs, hf, hsize⟩
  · rintro ⟨s, hs, hf, hsize⟩
    refine ⟨s.payloadBytes, List.mem_map.2 ⟨(s.position, s.span), ?_, rfl⟩, hsize⟩
    exact hperm.mem_iff.2 (mem_vacancies.2 ⟨s, hs, hf, rfl, rfl⟩)

namespace Block

/-- The block answers a request with a pointer. -/
def Serves (b : Block) (size : Nat) (s : AddressSpace) : Prop :=
  ∃ address b' s', b.allocate size s = ((.ok (some address), b'), s')

theorem allocate_slot {b : SlotBlock} {s : AddressSpace} {size : Nat}
    {result : Except Corruption (Option Nat)} {h : SlotHeap}
    (hrun : SlotStep.allocate size ⟨b, s.memory⟩ = (result, h)) :
    (slot b).allocate size s = ((result, .slot h.block), { s with memory := h.memory }) := by
  simp only [allocate, bind, StateT.bind, SlotBlock.run_eq hrun]
  rfl

theorem deallocate_slot {b : SlotBlock} {s : AddressSpace} {address size : Nat}
    {result : Except Corruption Unit} {h : SlotHeap}
    (hrun : SlotStep.deallocate address size ⟨b, s.memory⟩ = (result, h)) :
    (slot b).deallocate address size s =
      ((result, .slot h.block), { s with memory := h.memory }) := by
  simp only [deallocate, bind, StateT.bind, SlotBlock.run_eq hrun]
  rfl

theorem serves_slot_iff {b : SlotBlock} {s : AddressSpace} {L : Layout} {live : List Grant}
    (hk : SlotHeap.Keeps ⟨b, s.memory⟩ L live) (size : Nat) :
    (slot b).Serves size s ↔
      (stats s.memory (.slot b)).Room size ∧ size ≤ b.maximumAllocationSize := by
  have hserved := (hk.firstFit size).served_iff
  rw [← hk.room_iff size] at hserved
  have hroom : (stats s.memory (.slot b)).Room size =
      (SlotHeap.stats ⟨b, s.memory⟩).Room size := rfl
  rw [hroom, and_comm, ← hserved]
  constructor
  · rintro ⟨address, b', s', hrun⟩
    rcases hstep : SlotStep.allocate size ⟨b, s.memory⟩ with ⟨result, h⟩
    rw [allocate_slot hstep] at hrun
    cases hrun
    exact ⟨address, h, rfl⟩
  · rintro ⟨address, h, hstep⟩
    exact ⟨address, _, _, allocate_slot hstep⟩

theorem serves_segment_iff {b : SegmentBlock} {live : List Grant} (hk : b.Keeps live)
    (hlen : b.alignment ∣ b.buffer.len) {size : Nat} (hsize : b.segments.Fits size)
    (s : AddressSpace) :
    (segment b).Serves size s ↔ (stats s.memory (.segment b)).Room size := by
  have hroom : (stats s.memory (.segment b)).Room size = b.stats.Room size := rfl
  rw [hroom, ← hk.served_iff hlen hsize]
  constructor
  · rintro ⟨address, b', s', hrun⟩
    rcases hstep : b.allocate size with ⟨answer, c⟩
    rw [allocate, hstep] at hrun
    cases hrun
    exact ⟨address, c, rfl⟩
  · rintro ⟨address, c, hstep⟩
    refine ⟨address, .segment c, s, ?_⟩
    rw [allocate, hstep]
    rfl

end Block

namespace BlockSession

variable {b : SlotBlock} {c : SegmentBlock} {L : Layout} {s : BlockSession} {r : BlockRequest}
  {requests : List BlockRequest}

/-- A session on the slot block `b` whose memory shows `L`. -/
def Shows (b : SlotBlock) (L : Layout) (s : BlockSession) : Prop :=
  ∃ b', s.block = .slot b' ∧ b.Like b' ∧ b'.Sited ∧ SlotHeap.Keeps ⟨b', s.space.memory⟩ L s.live

namespace Shows

theorem sound (hs : Shows b L s) : L.Sound b := by
  obtain ⟨b', -, hlike, -, hk⟩ := hs
  exact hlike.symm.sound hk.sound

theorem allocate (hs : Shows b L s) (size : Nat) : ∃ t, s.apply (.allocate size) = .ok t ∧
    (Shows b L t ∧ (b.maximumAllocationSize < size ∨
        ∀ F ∈ L.slots, F.status = .free → F.payloadBytes < size) ∨
      ∃ K L', Served b.unit size L K L' ∧ Shows b L' t ∧
        t.live = ⟨b.addressOf (K.position + 1), size⟩ :: s.live) := by
  obtain ⟨block, space, live⟩ := s
  obtain ⟨b', rfl, hlike, hsited, hk⟩ := hs
  have hunit : SlotBlock.unit b' = b.unit := by
    rw [SlotBlock.unit, SlotBlock.unit, hlike.alignment]
  rcases hk.allocate size with
    ⟨h, hrun, -, -, hwhy⟩ | ⟨K, L', h, hserved, hrun, hkeeps, -, hlike', -⟩
  · obtain rfl := (hk.firstFit size).refused h hrun
    refine ⟨⟨.slot b', space, live⟩, ?_,
      .inl ⟨⟨b', rfl, hlike, hsited, hk⟩, hlike.maximum ▸ hwhy⟩⟩
    simp only [apply, Block.allocate_slot hrun, Grant.add]
  · refine ⟨⟨.slot h.block, { space with memory := h.memory }, _⟩,
      by rw [BlockSession.apply, Block.allocate_slot hrun], .inr ⟨K, L', hunit ▸ hserved, ?_, ?_⟩⟩
    · exact ⟨h.block, rfl, hlike.trans hlike', hlike'.sited hsited, hkeeps⟩
    · rw [← hlike.addressOf]
      rfl

theorem release (hs : Shows b L s) {g : Grant} (hg : g ∈ s.live) {C : Slot} (hC : C ∈ L.slots)
    (hf : C.status = .allocated) (hgC : g.address = b.addressOf (C.position + 1)) :
    ∃ t L', s.apply (.release g) = .ok t ∧ Freed C L L' ∧ Shows b L' t := by
  obtain ⟨block, space, live⟩ := s
  obtain ⟨b', rfl, hlike, hsited, hk⟩ := hs
  rw [← hlike.addressOf] at hgC
  obtain ⟨D, hD, -, hgD, hsize⟩ := hk.slot hg
  obtain rfl := hk.sound.position_inj hD hC (addressOf_inj (hgD.symm.trans hgC))
  obtain ⟨L', h, hfreed, hrun, hkeeps, -, hlike', -⟩ :=
    hk.release_slot hsited.record hg hC hf hgC hsize
  refine ⟨⟨.slot h.block, { space with memory := h.memory }, live.erase g⟩, L',
    by rw [BlockSession.apply, Block.deallocate_slot hrun], hfreed, ?_⟩
  exact ⟨h.block, rfl, hlike.trans hlike', hlike'.sited hsited, hkeeps⟩

theorem exists_grant (hs : Shows b L s) {C : Slot} (hC : C ∈ L.slots) (hf : C.status = .allocated) :
    ∃ g ∈ s.live, g.address = b.addressOf (C.position + 1) := by
  obtain ⟨b', -, hlike, -, hk⟩ := hs
  have hmem := hk.granted.addresses.mem_iff.2
    (List.mem_map_of_mem (mem_holdings.2 ⟨C, hC, hf, rfl, rfl⟩))
  obtain ⟨g, hg, haddress⟩ := List.mem_map.1 hmem
  exact ⟨g, hg, haddress.trans (hlike.addressOf _)⟩

theorem exists_slot (hs : Shows b L s) {g : Grant} (hg : g ∈ s.live) :
    ∃ C ∈ L.slots, C.status = .allocated ∧ g.address = b.addressOf (C.position + 1) := by
  obtain ⟨b', -, hlike, -, hk⟩ := hs
  obtain ⟨C, hC, hf, haddress, -⟩ := hk.slot hg
  exact ⟨C, hC, hf, haddress.trans (hlike.addressOf _)⟩

theorem apply (hs : Shows b L s) (hr : r.Proper s.block s.live) :
    ∃ t L', s.apply r = .ok t ∧ Shows b L' t := by
  cases r with
  | allocate size =>
      obtain ⟨t, ht, ⟨hshows, -⟩ | ⟨K, L', -, hshows, -⟩⟩ := hs.allocate size
      · exact ⟨t, L, ht, hshows⟩
      · exact ⟨t, L', ht, hshows⟩
  | release g =>
      obtain ⟨C, hC, hf, hgC⟩ := hs.exists_slot hr
      obtain ⟨t, L', ht, -, hshows⟩ := hs.release hr hC hf hgC
      exact ⟨t, L', ht, hshows⟩
  | write g offset bytes =>
      obtain ⟨b', hb, hlike, hsited, hk⟩ := hs
      exact ⟨_, L, rfl, b', hb, hlike, hsited, hk.write hsited.four_dvd_base hr.1 hr.2⟩

theorem run (hs : Shows b L s) (hr : s.ProperRun requests) :
    ∃ t L', s.run requests = .ok t ∧ Shows b L' t := by
  induction requests generalizing s L with
  | nil => exact ⟨s, L, rfl, hs⟩
  | cons r rest ih =>
      obtain ⟨t, L', ht, hshows⟩ := hs.apply hr.1
      obtain ⟨u, L'', hu, hshows⟩ := ih hshows (hr.2 t ht)
      refine ⟨u, L'', ?_, hshows⟩
      rw [BlockSession.run, ht]
      exact hu

end Shows

/-- A session on the segment block `c`. -/
def Segmented (c : SegmentBlock) (s : BlockSession) : Prop :=
  ∃ c', s.block = .segment c' ∧ c.Like c' ∧ c'.Keeps s.live

namespace Segmented

theorem apply (hs : Segmented c s) (hr : r.Proper s.block s.live) :
    ∃ t, s.apply r = .ok t ∧ Segmented c t := by
  obtain ⟨block, space, live⟩ := s
  obtain ⟨c', rfl, hlike, hk⟩ := hs
  cases r with
  | allocate size =>
      rcases hk.allocate hr with hrun | ⟨offset, c'', hrun, hkeeps, hlike'⟩
      · refine ⟨⟨.segment c', space, live⟩, ?_, c', rfl, hlike, hk⟩
        simp only [BlockSession.apply, Block.allocate, hrun]
        rfl
      · refine ⟨⟨.segment c'', space, _⟩, ?_, c'', rfl, hlike.trans hlike', hkeeps⟩
        simp only [BlockSession.apply, Block.allocate, hrun]
        rfl
  | release g =>
      obtain ⟨c'', hrun, hkeeps, hlike'⟩ := hk.release hr
      refine ⟨⟨.segment c'', space, _⟩, ?_, c'', rfl, hlike.trans hlike', hkeeps⟩
      simp only [BlockSession.apply, Block.deallocate, hrun]
      rfl
  | write g offset bytes => exact ⟨_, rfl, c', rfl, hlike, hk⟩

theorem run (hs : Segmented c s) (hr : s.ProperRun requests) :
    ∃ t, s.run requests = .ok t ∧ Segmented c t := by
  induction requests generalizing s with
  | nil => exact ⟨s, rfl, hs⟩
  | cons r rest ih =>
      obtain ⟨t, ht, hsegmented⟩ := hs.apply hr.1
      obtain ⟨u, hu, hsegmented⟩ := ih hsegmented (hr.2 t ht)
      refine ⟨u, ?_, hsegmented⟩
      rw [BlockSession.run, ht]
      exact hu

end Segmented

/-- What the statistics tell of the free regions settles which requests are served, as long as they
can be rounded up within a word. -/
def Foretells (s : BlockSession) : Prop :=
  ∀ size, s.block.Fits size →
    (s.block.Serves size s.space ↔ (s.block.stats s.space.memory).Room size)

/-- As above for the requests that the block can ever serve. -/
def ForetellsBounded (s : BlockSession) : Prop :=
  ∀ size, s.block.Fits size → (s.block.Serves size s.space ↔
    (s.block.stats s.space.memory).Room size ∧ size ≤ s.block.maximumAllocationSize)

theorem Shows.foretellsBounded (hs : Shows b L s) : s.ForetellsBounded := by
  obtain ⟨block, space, live⟩ := s
  obtain ⟨b', rfl, -, -, hk⟩ := hs
  exact fun size _ => Block.serves_slot_iff hk size

theorem Shows.foretells (hs : Shows b L s)
    (hall : ∀ F ∈ L.slots, F.payloadBytes ≤ b.maximumAllocationSize) : s.Foretells := by
  obtain ⟨block, space, live⟩ := s
  obtain ⟨b', rfl, hlike, -, hk⟩ := hs
  rw [← hlike.maximum] at hall
  intro size _
  refine (Block.serves_slot_iff hk size).trans ⟨fun h => h.1, fun h => ⟨h, ?_⟩⟩
  obtain ⟨F, hF, -, hsize⟩ := (hk.room_iff size).1 h
  exact Nat.le_trans hsize (hall F hF)

theorem Segmented.foretells (hs : Segmented c s) (hlen : c.alignment ∣ c.buffer.len) :
    s.Foretells := by
  obtain ⟨block, space, live⟩ := s
  obtain ⟨c', rfl, hlike, hk⟩ := hs
  rw [← hlike.alignment, ← hlike.buffer] at hlen
  exact fun size hsize => Block.serves_segment_iff hk hlen hsize space

theorem Segmented.foretellsBounded (hs : Segmented c s) (hlen : c.alignment ∣ c.buffer.len) :
    s.ForetellsBounded := by
  have hforetells := hs.foretells hlen
  obtain ⟨block, space, live⟩ := s
  obtain ⟨c', rfl, -, hk⟩ := hs
  refine fun size hsize => (hforetells size hsize).trans ⟨fun h => ⟨h, ?_⟩, fun h => h.1⟩
  have hvalues : ∃ n ∈ c'.segments.available.values, size ≤ n := by
    rw [exists_le_iff, SortedMap.values, List.length_map]
    exact h
  obtain ⟨n, hn, hsize⟩ := hvalues
  obtain ⟨o, hhas⟩ := SortedMap.mem_values.1 hn
  have hinside := hk.sound.inside .available o n hhas
  show size ≤ c'.segments.total
  omega

end BlockSession

end AffinityHeap
