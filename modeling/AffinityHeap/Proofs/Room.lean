import AffinityHeap.Proofs.LargestFree

namespace AffinityHeap

open SlotGeometry (maxAlignedSpan neededWords)

variable {s s' : AddressSpace} {blockSize alignment size k : Nat} {live : List Grant} {m : Memory}

theorem neededWords_le (hk : minPayloadWords ≤ k) (hsize : size ≤ k * 4) :
    neededWords size ≤ k := by
  simp only [neededWords, ceilDiv]
  omega

/-- The bytes of a block for a size that a pool accepts are far from the top of a word. -/
theorem SlotGeometry.blockSizeFor_eq (hsmall : alignment < 131072)
    (hsize : size ≤ SlotGeometry.maximumAllocationSize alignment) :
    SlotGeometry.blockSizeFor size alignment =
        roundUp ((first (unit (max alignment 4)) + 1 + neededWords size) * 4) (max alignment 4) ∧
      SlotGeometry.blockSizeFor size alignment < 0x400000000 := by
  have hwide : maxSpan = 32767 := rfl
  have hspan : maxAlignedSpan (unit alignment) ≤ maxSpan := Nat.mul_div_le ..
  have hneeded : neededWords size ≤ maxSpan := by
    rw [SlotBlock.maximumAllocationSize_eq hsmall] at hsize
    exact neededWords_le (by decide) (by omega)
  have hfirst : first (unit (max alignment 4)) ≤ 32767 := by
    simp only [first, unit]
    omega
  have hwords : (first (unit (max alignment 4)) + 1 + neededWords size) * 4 < 0x100000000 := by
    omega
  have hround : roundUp ((first (unit (max alignment 4)) + 1 + neededWords size) * 4)
      (max alignment 4) < (first (unit (max alignment 4)) + 1 + neededWords size) * 4 +
        max alignment 4 := roundUp_lt (by omega)
  have heq : SlotGeometry.blockSizeFor size alignment =
      roundUp ((first (unit (max alignment 4)) + 1 + neededWords size) * 4) (max alignment 4) := by
    rw [SlotGeometry.blockSizeFor, wrap_of_small hwords]
    exact wrap_of_small (by omega)
  exact ⟨heq, by omega⟩

namespace SlotBlock

/-- The slot in front of all others of a new block. -/
def firstSlot (b : SlotBlock) : Slot :=
  ⟨⟨0, min (b.first + maxAlignedSpan b.unit) b.buffer.len - b.first, .free⟩, b.first⟩

/-- Behind the header of the first slot there is as much room as the block may serve. -/
theorem create_firstSlot {b : SlotBlock} (hp : s.Aligned) (hsmall : alignment < 131072)
    (hcreate : SlotBlock.create blockSize alignment s = (.ok b, s'))
    (hroom : minSlotSpan ≤ b.buffer.len - b.first) :
    b.firstSlot ∈ (freshLayout b.buffer.len b.unit).slots ∧
      b.firstSlot.payloadBytes = b.maximumAllocationSize := by
  obtain ⟨hsited, hal, -, hc, -⟩ := create_carved hp hsmall hcreate
  have hspan : 0 < maxAlignedSpan b.unit := by
    have halignment := hsited.alignment_eq
    have hwide : maxSpan = 32767 := rfl
    exact Nat.lt_of_lt_of_le (by decide) (maxAlignedSpan_bounds (by omega) (unit_pos b)).1
  have hmem : b.firstSlot ∈ (freshLayout b.buffer.len b.unit).slots := by
    show b.firstSlot ∈ fill b.buffer.len (maxAlignedSpan b.unit) b.first 0
    rw [fill_cons hroom hspan]
    exact List.mem_cons_self ..
  have hstop : b.first + b.firstSlot.span ≤ b.capacity := hc.sound.stop_le hmem
  have hinside : b.capacity ≤ b.buffer.len := hc.sound.inside (List.ne_nil_of_mem hmem)
  have hmaximum := create_maximum hp hsmall hcreate
  refine ⟨hmem, ?_⟩
  simp only [firstSlot, SlotHeader.payloadBytes, minSlotSpan, minPayloadWords] at hstop hroom ⊢
  omega

/-- The first slot of a new block holds every request that the block is large enough for. -/
theorem create_room {b : SlotBlock} (hp : s.Aligned) (hsmall : alignment < 131072)
    (hcreate : SlotBlock.create blockSize alignment s = (.ok b, s'))
    (hsize : size ≤ SlotGeometry.maximumAllocationSize alignment)
    (hblock : SlotGeometry.blockSizeFor size alignment ≤ blockSize)
    (hround : roundUp blockSize (max alignment 4) < UInt64.size) :
    size ≤ b.maximumAllocationSize ∧ ∃ F ∈ (freshLayout b.buffer.len b.unit).slots,
      F.status = .free ∧ size ≤ F.payloadBytes := by
  obtain ⟨-, hal, hlen, -, -⟩ := create_carved hp hsmall hcreate
  have hunit : SlotGeometry.unit alignment = b.unit := by
    simp only [unit, SlotGeometry.unit, hal]
    omega
  obtain ⟨hneeded, hthree⟩ := le_neededWords size
  have hmax : size ≤ (maxAlignedSpan b.unit - 1) * 4 := by
    rwa [maximumAllocationSize_eq hsmall, hunit] at hsize
  -- The block is made so large that the request fits behind the header of the first slot.
  have hfit : b.first + 1 + neededWords size ≤ b.buffer.len := by
    have hfirst : (b.first + 1 + neededWords size) * 4 ≤
        SlotGeometry.blockSizeFor size alignment := by
      rw [(SlotGeometry.blockSizeFor_eq hsmall hsize).1, first, unit, hal]
      exact le_roundUp (by omega)
    have hle : blockSize ≤ roundUp blockSize (max alignment 4) := le_roundUp (by omega)
    rw [hlen, wrap_of_lt hround, Nat.le_div_iff_mul_le (by decide)]
    omega
  have hroom : minSlotSpan ≤ b.buffer.len - b.first := by
    simp only [minSlotSpan, minPayloadWords]
    omega
  obtain ⟨hmem, hpayload⟩ := create_firstSlot hp hsmall hcreate hroom
  have hfirst : size ≤ b.firstSlot.payloadBytes := by
    simp only [firstSlot, SlotHeader.payloadBytes]
    omega
  exact ⟨hpayload ▸ hfirst, b.firstSlot, hmem, rfl, hfirst⟩

end SlotBlock

theorem SegmentBlock.Keeps.room_le {b : SegmentBlock} (hk : b.Keeps live)
    (hroom : b.stats.Room size) : size ≤ b.segments.total := by
  have hfree : ∃ n ∈ b.segments.available.values, size ≤ n := by
    rw [exists_le_iff, SortedMap.values, List.length_map]
    exact hroom
  obtain ⟨n, hn, hsize⟩ := hfree
  obtain ⟨o, hhas⟩ := SortedMap.mem_values.1 hn
  have hinside := hk.sound.inside .available o n hhas
  omega

/-- The only segment of a new block holds every request that the block is large enough for. -/
theorem SegmentBlock.create_room {b : SegmentBlock} (hs : s.Aligned)
    (hcreate : SegmentBlock.create blockSize alignment s = (.ok b, s'))
    (hsize : size ≤ Block.sizeLimit)
    (hblock : SegmentBlock.blockSizeFor size alignment ≤ blockSize)
    (hround : SegmentBlock.bytesFor blockSize (max alignment 1) < UInt64.size) :
    b.Keeps [] ∧ b.alignment ∣ b.buffer.len ∧ b.stats.Room size := by
  rcases create_cases s hs blockSize alignment with
    ⟨e, t, hrun, -⟩ | ⟨c, t, obtained, hrun, -, hkeeps, -⟩
  · rw [hcreate] at hrun
    cases hrun
  rw [hcreate] at hrun
  cases hrun
  rcases create_granted s blockSize alignment with
    ⟨e, t, hrun, -⟩ | ⟨base, -, -, hpower, hsmall, hrun⟩
  · rw [hcreate] at hrun
    cases hrun
  rw [hcreate] at hrun
  cases hrun
  let total := bytesFor blockSize (max alignment 1)
  have hlength : blockSizeFor blockSize (max alignment 1) = total := wrap_of_lt hround
  have htotal : max blockSize 1 ≤ total := le_roundUp (by omega)
  have hfit : max size 1 ≤ blockSizeFor size alignment := by
    have hlt : bytesFor size alignment < max size 1 + max alignment 1 := roundUp_lt (by omega)
    have hlimit : Block.sizeLimit = 0x4000000000000000 := rfl
    have hword : UInt64.size = 0x10000000000000000 := rfl
    rw [blockSizeFor, wrap_of_lt (by omega)]
    exact le_roundUp (by omega)
  have hvalues : (sited blockSize alignment base).segments.available.values = [total] := by
    simp only [sited, Segments.new, hlength, if_neg (show total ≠ 0 by omega)]
    rfl
  refine ⟨hkeeps, ?_, ?_, ?_⟩
  · exact sited_whole hpower blockSize base
  · have hcount := congrArg List.length hvalues
    rw [SortedMap.values, List.length_map] at hcount
    exact Nat.lt_of_lt_of_eq Nat.one_pos hcount.symm
  · show size ≤ (sited blockSize alignment base).segments.available.values.foldl max 0
    rw [hvalues, le_foldl_max]
    exact .inr ⟨total, List.mem_singleton_self total, by omega⟩

namespace Block

variable {b b' : Block} {kind : BackendKind}

/-- A free region is large enough, and the block may serve requests of that size. -/
def HasRoom (m : Memory) (b : Block) (size : Nat) : Prop :=
  (b.stats m).Room size ∧ size ≤ b.maximumAllocationSize

namespace Keeps

theorem serves_iff (hb : b.Keeps s.memory live) (hwhole : b.Whole) (hfits : b.Fits size) :
    b.Serves size s ↔ b.HasRoom s.memory size := by
  cases b with
  | slot b =>
      obtain ⟨-, L, hL⟩ := hb
      exact serves_slot_iff hL size
  | segment b =>
      have hb : b.Keeps live := hb
      have hlen : b.alignment ∣ b.buffer.len := by
        rwa [Whole, memorySize, Buffer.byteLen, Block.buffer, hb.record, Nat.mul_one] at hwhole
      exact (serves_segment_iff hb hlen hfits s).trans ⟨fun h => ⟨h, hb.room_le h⟩, fun h => h.1⟩

/-- A request that a block does not serve leaves no trace. -/
theorem refuses (hb : b.Keeps s.memory live) (hfits : b.Fits size) (hno : ¬ b.Serves size s) :
    b.allocate size s = ((.ok none, b), s) := by
  cases b with
  | slot b =>
      obtain ⟨-, L, hL⟩ := hb
      obtain ⟨answer, h, hrun⟩ := (hL.firstFit size).answers
      cases answer with
      | some address => exact absurd ⟨address, _, _, allocate_slot hrun⟩ hno
      | none =>
          obtain rfl := (hL.firstFit size).refused h hrun
          exact allocate_slot hrun
  | segment b =>
      rcases SegmentBlock.Keeps.allocate hb hfits with hrun | ⟨offset, b', hrun, -⟩
      · rw [Block.allocate, hrun]
        rfl
      · exact absurd ⟨b.buffer.base + offset, .segment b', s, by rw [Block.allocate, hrun]; rfl⟩ hno

theorem not_serves_of_empty (hb : b.Keeps s.memory live) (hempty : b.memorySize = 0) :
    ¬ b.Serves size s := by
  cases b with
  | slot b =>
      obtain ⟨hsited, L, hL⟩ := hb
      have hlen : b.buffer.len * b.buffer.record = 0 := hempty
      rw [hsited.record] at hlen
      intro hserves
      obtain ⟨F, hF, -, -⟩ := (hL.room_iff size).1 ((serves_slot_iff hL size).1 hserves).1
      have hinside : 0 < b.buffer.len :=
        Nat.zero_lt_of_lt (hL.sound.inRange hF (hL.sound.span_pos F hF)).2.2
      omega
  | segment b =>
      have hb : b.Keeps live := hb
      have htotal : b.segments.total = 0 := by
        have hlen : b.buffer.len * b.buffer.record = 0 := hempty
        rwa [hb.record, Nat.mul_one, ← hb.total] at hlen
      have hnone : b.segments.reserve size = none := by
        refine (hb.sound.reserve_refused_iff size).2 fun o n hhas => ?_
        have hinside := hb.sound.inside _ _ _ hhas
        have hpos := hb.sound.pos _ _ _ hhas
        omega
      rintro ⟨address, b', s', hrun⟩
      simp only [Block.allocate, SegmentBlock.allocate, hnone] at hrun
      cases hrun

theorem serve (hb : b.Keeps s.memory live) (hfits : b.Fits size) (hserves : b.Serves size s) :
    ∃ address b' m, b.allocate size s = ((.ok (some address), b'), { s with memory := m }) ∧ b.Like b' := by
  obtain ⟨address, c, t, hrun⟩ := hserves
  obtain ⟨answer, b', m, hrun', -, hlike, -⟩ := hb.allocate hfits
  rw [hrun'] at hrun
  cases hrun
  exact ⟨_, _, m, hrun', hlike⟩

end Keeps

theorem create_keeps {b : Block} (hs : s.Aligned) (hsmall : kind = .slot → alignment < 131072)
    (hcreate : create kind blockSize alignment s = (.ok b, s')) : b.Keeps s'.memory [] := by
  rcases create_cases hs kind blockSize hsmall with
    ⟨e, t, hrun, -⟩ | ⟨c, t, obtained, hrun, -, hkeeps, -⟩
  · cases hcreate.symm.trans hrun
  · cases hcreate.symm.trans hrun
    exact hkeeps

/-- A new block serves every request that it is large enough for. -/
theorem create_serves {b : Block} (hs : s.Aligned) (hsmall : kind = .slot → alignment < 131072)
    (hcreate : create kind blockSize alignment s = (.ok b, s'))
    (hsize : size ≤ kind.maximumAllocationSize alignment)
    (hblock : kind.blockSizeFor size alignment ≤ blockSize)
    (hround : bytesFor kind blockSize alignment < UInt64.size) : b.Serves size s' := by
  cases kind with
  | slot =>
      rw [create, Obtain.map_apply] at hcreate
      rcases hrun : SlotBlock.create blockSize alignment s with ⟨e | c, t⟩
      · rw [hrun] at hcreate
        cases hcreate
      · rw [hrun] at hcreate
        cases hcreate
        obtain ⟨-, -, hkeeps⟩ := SlotBlock.create_keeps hs (hsmall rfl) hrun
        obtain ⟨hmax, hslot⟩ := SlotBlock.create_room hs (hsmall rfl) hrun hsize hblock hround
        exact (serves_slot_iff hkeeps size).2 ⟨(hkeeps.room_iff size).2 hslot, hmax⟩
  | segment =>
      rw [create, Obtain.map_apply] at hcreate
      rcases hrun : SegmentBlock.create blockSize alignment s with ⟨e | c, t⟩
      · rw [hrun] at hcreate
        cases hcreate
      · rw [hrun] at hcreate
        cases hcreate
        have hlimit : size ≤ sizeLimit :=
          Nat.le_trans hsize (show 0x7fffffffffffffff / 2 ≤ sizeLimit by decide)
        obtain ⟨hkeeps, hwhole, hroom⟩ := SegmentBlock.create_room hs hrun hlimit hblock hround
        exact (serves_segment_iff hkeeps hwhole (hkeeps.fits_of_le hlimit) _).2 hroom

end Block

end AffinityHeap
