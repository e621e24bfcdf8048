import AffinityHeap.Proofs.BlockSession
import AffinityHeap.Proofs.Ledger
import AffinityHeap.Proofs.Segment.Wrapped
import AffinityHeap.Proofs.Slot.Validate

namespace AffinityHeap

namespace SlotHeap

variable {h : SlotHeap} {L : Layout} {live : List Grant}

/-- What the counters and the statistics of a block tell are the slots that its memory shows. -/
structure Accounted (h : SlotHeap) (slots : List Slot) : Prop where
  readable : h.Readable h.block.first 0 slots h.block.capacity
  allocations : h.block.allocations = (taken slots).length
  reserved : h.block.reserved = sumOf ((taken slots).map (·.span))
  fits : h.block.reserved * 4 ≤ (h.block.capacity - h.block.first) * 4
  sizes : h.stats.reservedSize + h.stats.availableSize = 4 * (h.block.capacity - h.block.first)
  available : h.stats.availableSize = 4 * sumOf ((vacant slots).map (·.span))
  freeRegions : h.stats.freeRegions = (vacant slots).length
  inside : h.block.capacity ≤ h.block.buffer.len + h.block.first

theorem Keeps.accounted (hk : h.Keeps L live) : h.Accounted L.slots := by
  have hc := hk.consistent
  have hspans := Slot.tiled_span hc.tiled
  rw [spans_eq, ← hc.reserved] at hspans
  have hword : UInt64.size = 0x10000000000000000 := rfl
  have hshort : h.block.capacity < 0x100000000 := hk.sound.short
  -- The chain is addressed by words of 32 bits, so no count of its bytes is cut off.
  have hreserved : wrap (h.block.reserved * 4) = h.block.reserved * 4 := wrap_of_lt (by omega)
  have havailable : h.stats.availableSize =
      (h.block.capacity - h.block.first) * 4 - h.block.reserved * 4 := by
    rw [stats, hreserved]
    exact wrapSub_of_le (by omega)
  refine ⟨hc.readable, hc.allocations, hc.reserved, by omega, ?_, ?_, ?_, ?_⟩
  · rw [havailable, show h.stats.reservedSize = _ from hreserved]
    omega
  · rw [havailable]
    omega
  · show h.block.freeCount = _
    rw [hc.counted, hc.complete.length_eq, freePositions, List.length_map, vacant]
  -- Where there is no slot the chain ends at its start, which may lie behind the buffer.
  · by_cases hnone : L.slots = []
    · have htiled := hc.tiled
      rw [hnone] at htiled
      exact htiled ▸ Nat.le_add_left ..
    · exact Nat.le_add_right_of_le (hc.inside hnone)

end SlotHeap

namespace Block

variable {b : Block} {m : Memory} {live : List Grant}

def Tells (m : Memory) : Block → Prop
  | .slot b => ∃ slots, SlotHeap.Accounted ⟨b, m⟩ slots
  | .segment b => b.stats.reservedSize + b.stats.availableSize = b.stats.memorySize

/-- The statistics of a block are those of its memory, and it is empty if nothing of it is live. -/
structure Accounted (m : Memory) (live : List Grant) (b : Block) : Prop where
  tells : b.Tells m
  empty : b.isEmpty = true ↔ live = []

/-- The bytes of a block that lie in front of its chain of slots or behind it. -/
def outside : Block → Nat
  | .slot b => 4 * (b.buffer.len + b.first - b.capacity)
  | .segment _ => 0

theorem isEmpty_iff (b : Block) : b.isEmpty = true ↔ b.allocations = 0 := by
  cases b <;> exact beq_iff_eq

namespace Keeps

theorem accounted (hb : b.Keeps m live) : b.Accounted m live := by
  refine ⟨?_, ?_⟩
  · cases b with
    | slot b =>
        obtain ⟨-, L, hL⟩ := hb
        exact ⟨L.slots, hL.accounted⟩
    | segment b =>
        have hb : b.Keeps live := hb
        have hsizes := hb.sound.sizes hb.covers
        rw [hb.total] at hsizes
        simp only [Tells, SegmentBlock.stats, Buffer.byteLen, hb.record, Nat.mul_one]
        rw [Nat.add_comm]
        exact hsizes
  · rw [isEmpty_iff, hb.counted, List.length_eq_zero_iff]

theorem sizes (hb : b.Keeps m live) :
    (b.stats m).reservedSize + (b.stats m).availableSize + b.outside = (b.stats m).memorySize := by
  have htells := hb.accounted.tells
  cases b with
  | slot b =>
      obtain ⟨slots, ha⟩ := htells
      have hle := Slot.tiled_le ha.readable.tiled
      have hinside := ha.inside
      have hrecord := hb.1.record
      show (SlotHeap.stats ⟨b, m⟩).reservedSize + (SlotHeap.stats ⟨b, m⟩).availableSize + _ =
        b.buffer.len * b.buffer.record
      rw [ha.sizes, hrecord, outside]
      simp only at hle hinside ⊢
      omega
  | segment b => exact htells

theorem reservedSize_eq_zero (hb : b.Keeps m []) : (b.stats m).reservedSize = 0 := by
  have hnone := hb.counted
  cases b with
  | slot b =>
      obtain ⟨-, L, hL⟩ := hb
      have ha := hL.accounted
      have htaken := List.eq_nil_of_length_eq_zero (ha.allocations.symm.trans hnone)
      show wrap (b.reserved * 4) = 0
      rw [ha.reserved, htaken]
      rfl
  | segment b =>
      have hentries : b.segments.reserved.entries = [] := List.eq_nil_of_length_eq_zero hnone
      show b.segments.reservedSize = 0
      rw [Segments.reservedSize, SortedMap.values, hentries]
      rfl

end Keeps

end Block

section Totals

variable {l : Level} {m : Memory}

def Pool.outside (p : Pool) : Nat := sumOf (p.blocks.values.map Block.outside)

def Level.outside (l : Level) : Nat := sumOf (l.pools.values.map Pool.outside)

def Allocator.outside (a : Allocator) : Nat := sumOf (a.levels.map Level.outside)

theorem sumOf_parts {α : Type} {f g h k : α → Nat} {l : List α}
    (hl : ∀ a ∈ l, f a + g a + h a = k a) :
    sumOf (l.map f) + sumOf (l.map g) + sumOf (l.map h) = sumOf (l.map k) := by
  rw [← sumOf_map_add, ← sumOf_map_add]
  exact congrArg sumOf (List.map_congr_left hl)

theorem Pool.sizes {p : Pool} (hp : ∀ b ∈ p.blocks.values, ∃ live, b.Keeps m live) :
    (p.stats m).reservedSize + (p.stats m).availableSize + p.outside = (p.stats m).memorySize := by
  simp only [PoolStats.reservedSize, PoolStats.availableSize, PoolStats.memorySize, stats, outside,
    List.map_map, Function.comp_def]
  refine sumOf_parts fun b hb => ?_
  obtain ⟨live, hkeeps⟩ := hp b hb
  exact hkeeps.sizes

theorem Level.mem_holders {p : Pool} {b : Block} (hp : p ∈ l.pools.values)
    (hb : b ∈ p.blocks.values) : .block b ∈ l.holders :=
  List.mem_append_left _ (List.mem_flatMap.2 ⟨p, hp, List.mem_map_of_mem hb⟩)

theorem Level.sizes (hl : ∀ h ∈ l.holders, ∃ live, h.Keeps m live) :
    (l.stats m).reservedSize + (l.stats m).availableSize + l.outside = (l.stats m).memorySize := by
  have hpools : sumOf (l.pools.values.map fun p => (p.stats m).reservedSize) +
      sumOf (l.pools.values.map fun p => (p.stats m).availableSize) + l.outside =
        sumOf (l.pools.values.map fun p => (p.stats m).memorySize) :=
    sumOf_parts fun p hp => Pool.sizes fun b hb => hl _ (mem_holders hp hb)
  simp only [LevelStats.reservedSize, LevelStats.availableSize, LevelStats.memorySize, stats,
    List.map_map, Function.comp_def]
  omega

theorem Allocator.sizes {a : Allocator}
    (ha : ∀ l ∈ a.levels, ∀ h ∈ l.holders, ∃ live, h.Keeps m live) :
    (a.stats m).reservedSize + (a.stats m).availableSize + a.outside = (a.stats m).memorySize := by
  simp only [HeapStats.reservedSize, HeapStats.availableSize, HeapStats.memorySize, stats_levels,
    List.map_map, Function.comp_def]
  exact sumOf_parts fun l hl => Level.sizes (ha l hl)

theorem Level.Booked.largeBytes_eq_zero (hl : l.Booked) (hnone : ∀ h ∈ l.holders, h.Keeps m []) :
    l.large.totalBytes = 0 := by
  have hlarge : l.large.entries.values = [] := List.eq_nil_iff_forall_not_mem.2 fun a ha => by
    obtain ⟨hlive, -⟩ : (Holder.large a).Keeps m [] :=
      hnone _ (List.mem_append_right _ (List.mem_map_of_mem ha))
    cases hlive
  rw [hl.total, hlarge]
  rfl

theorem Level.Booked.reservedSize_eq_zero (hl : l.Booked) (hnone : ∀ h ∈ l.holders, h.Keeps m []) :
    (l.stats m).reservedSize = 0 := by
  have hpools : sumOf (l.pools.values.map fun p => (p.stats m).reservedSize) = 0 := by
    refine sumOf_eq_zero fun n hn => ?_
    obtain ⟨p, hp, rfl⟩ := List.mem_map.1 hn
    refine sumOf_eq_zero fun n hn => ?_
    obtain ⟨t, ht, rfl⟩ := List.mem_map.1 hn
    obtain ⟨b, hb, rfl⟩ := List.mem_map.1 ht
    exact Block.Keeps.reservedSize_eq_zero (hnone _ (mem_holders hp hb))
  show sumOf ((l.pools.values.map (·.stats m)).map (·.reservedSize)) + l.large.totalBytes = 0
  rw [List.map_map, Function.comp_def, hpools, hl.largeBytes_eq_zero hnone]

end Totals

namespace BlockSession

/-- The session is on a segment block whose segments weigh as much as it does. -/
def Weighed (s : BlockSession) : Prop := ∃ b, s.block = .segment b ∧ b.Weighed

/-- Also a size that is rounded up past a word leaves the sum of all segments as it is. -/
theorem Weighed.apply {s t : BlockSession} (hs : s.Weighed) {r : BlockRequest}
    (h : s.apply r = .ok t) : t.Weighed := by
  obtain ⟨block, space, live⟩ := s
  obtain ⟨b, rfl, hb⟩ := hs
  cases r with
  | allocate size =>
      cases h
      exact ⟨_, rfl, hb.allocate size⟩
  | release g =>
      cases hrun : b.deallocate g.address g.size with
      | error e =>
          simp only [BlockSession.apply, Block.deallocate, hrun] at h
          cases h
      | ok b' =>
          simp only [BlockSession.apply, Block.deallocate, hrun] at h
          cases h
          exact ⟨b', rfl, hb.deallocate hrun⟩
  | write g offset bytes =>
      cases h
      exact ⟨b, rfl, hb⟩

theorem Weighed.run {s t : BlockSession} (hs : s.Weighed) {requests : List BlockRequest}
    (h : s.run requests = .ok t) : t.Weighed := by
  induction requests generalizing s with
  | nil =>
      cases h
      exact hs
  | cons r rest ih =>
      rw [BlockSession.run] at h
      split at h
      · rename_i hr
        exact ih (hs.apply hr) h
      · cases h

theorem Weighed.tells {s : BlockSession} (hs : s.Weighed) : s.block.Tells s.space.memory := by
  obtain ⟨b, hblock, hb⟩ := hs
  rw [hblock]
  exact hb.sizes

theorem run_tells {space space' : AddressSpace} {blockSize alignment : Nat} {b : Block}
    (hcreate : Block.create .segment blockSize alignment space = (.ok b, space'))
    {requests : List BlockRequest} {s : BlockSession} (hrun : (start b space').run requests = .ok s) :
    s.block.Tells s.space.memory := by
  rw [Block.create, Obtain.map_apply] at hcreate
  rcases hmade : SegmentBlock.create blockSize alignment space with ⟨e | c, t⟩
  · rw [hmade] at hcreate
    cases hcreate
  · rw [hmade] at hcreate
    cases hcreate
    have hs : (start (.segment c) space').Weighed := ⟨c, rfl, .create hmade⟩
    exact (hs.run hrun).tells

theorem run_accounted {space space' : AddressSpace} {kind : BackendKind}
    {blockSize alignment : Nat} {b : Block} (hp : space.policy.Aligned)
    (hsmall : kind = .slot → alignment < 131072)
    (hcreate : Block.create kind blockSize alignment space = (.ok b, space'))
    {requests : List BlockRequest} (hr : (start b space').ProperRun requests) :
    ∃ s, (start b space').run requests = .ok s ∧ s.block.Accounted s.space.memory s.live := by
  obtain ⟨s, hs, hk⟩ := (kept_start (AddressSpace.aligned_of_policy hp) hsmall hcreate).run hr
  exact ⟨s, hs, Block.Keeps.accounted hk⟩

end BlockSession

namespace HeapSession

variable {s : HeapSession}

/-- What the statistics of a chain of allocators tell is what its memory and its clients hold. -/
structure Accounted (s : HeapSession) : Prop where
  blocks : ∀ l ∈ s.allocator.levels, ∀ p ∈ l.pools.values, ∀ b ∈ p.blocks.values,
    b.Accounted s.space.memory (Grant.within s.grants b.region)
  sizes : (s.allocator.stats s.space.memory).reservedSize +
      (s.allocator.stats s.space.memory).availableSize + s.allocator.outside =
    (s.allocator.stats s.space.memory).memorySize
  idle : s.live = [] → (s.allocator.stats s.space.memory).reservedSize = 0

theorem Kept.accounted (hk : s.Kept) (hl : ∀ l ∈ s.allocator.levels, l.Booked) : s.Accounted := by
  have hkeeps : ∀ l ∈ s.allocator.levels, ∀ h ∈ l.holders,
      h.Keeps s.space.memory (Grant.within s.grants h.region) := fun l hl h hh =>
    hk.owned.keeps h (List.mem_flatMap.2 ⟨l, hl, hh⟩)
  refine ⟨fun l hl p hp b hb => ?_, Allocator.sizes fun l hl h hh => ⟨_, hkeeps l hl h hh⟩,
    fun hnone => ?_⟩
  · exact Block.Keeps.accounted (hkeeps l hl _ (Level.mem_holders hp hb))
  · refine sumOf_eq_zero fun n hn => ?_
    obtain ⟨t, ht, rfl⟩ := List.mem_map.1 hn
    obtain ⟨l, hmem, rfl⟩ : ∃ l ∈ s.allocator.levels, l.stats s.space.memory = t :=
      List.mem_map.1 ht
    refine (hl l hmem).reservedSize_eq_zero fun h hh => ?_
    have hh := hkeeps l hmem h hh
    rwa [grants, hnone] at hh

/-- A proper run keeps the registers of large allocations as well. -/
theorem run_booked {policy : Policy} (hfair : (AddressSpace.new policy).Fair) {c : Config}
    (hvalid : c.validate = .ok ()) (hnarrow : c.Narrow) {requests : List HeapRequest}
    (hr : (start c (.new policy)).ProperRun requests) :
    ∃ s, (start c (.new policy)).run requests = .ok s ∧ s.Kept ∧
      ∀ l ∈ s.allocator.levels, l.Booked := by
  have hk : (start c (.new policy)).Kept :=
    Chain.start (AddressSpace.new_sound hfair) hvalid hnarrow
  obtain ⟨s, hrun, hks⟩ := hk.run hr
  -- `Kept` says nothing of the running total of large allocations; the moves of the run do.
  have hbooked : ∀ l ∈ (start c (.new policy)).allocator.levels, l.Booked := fun l hl => by
    rw [List.mem_singleton.1 hl]
    exact .ofConfig c
  have hmirrors : ∀ l ∈ (start c (.new policy)).allocator.levels, l.Mirrors := fun l hl => by
    rw [List.mem_singleton.1 hl]
    exact .ofConfig hvalid
  have htally : Tally ((start c (.new policy)).allocator.levels.flatMap Level.holders)
      (.new policy) := by
    show Tally ([Level.ofConfig c].flatMap Level.holders) _
    rw [Chain.holders_start]
    exact .start hfair
  have hmoves := run_moves (fun l hl => (hbooked l hl).indexed) hrun
  exact ⟨s, hrun, hks, (Allocator.tally_of_moves hmoves hbooked hmirrors htally).1⟩

theorem run_accounted {policy : Policy} (hfair : (AddressSpace.new policy).Fair) {c : Config}
    (hvalid : c.validate = .ok ()) (hnarrow : c.Narrow) {requests : List HeapRequest}
    (hr : (start c (.new policy)).ProperRun requests) :
    ∃ s, (start c (.new policy)).run requests = .ok s ∧ s.Accounted := by
  obtain ⟨s, hrun, hk, hl⟩ := run_booked hfair hvalid hnarrow hr
  exact ⟨s, hrun, hk.accounted hl⟩

end HeapSession

/-- The counters of a block agree with its memory, and the totals of a chain of allocators with all
that it holds, whatever was allocated and released before. The segments of a block add up to it also
where a size was rounded up past a word. -/
theorem usage_accounted :
    (∀ (space space' : AddressSpace) (kind : BackendKind) (blockSize alignment : Nat) (b : Block)
      (requests : List BlockRequest), space.policy.Aligned → (kind = .slot → alignment < 131072) →
      Block.create kind blockSize alignment space = (.ok b, space') →
      (BlockSession.start b space').ProperRun requests →
      ∃ s, (BlockSession.start b space').run requests = .ok s ∧
        s.block.Accounted s.space.memory s.live) ∧
    (∀ (space space' : AddressSpace) (blockSize alignment : Nat) (b : Block)
      (requests : List BlockRequest) (s : BlockSession),
      Block.create .segment blockSize alignment space = (.ok b, space') →
      (BlockSession.start b space').run requests = .ok s → s.block.Tells s.space.memory) ∧
    ∀ (policy : Policy) (c : Config) (requests : List HeapRequest),
      (AddressSpace.new policy).Fair → c.validate = .ok () → c.Narrow →
      (HeapSession.start c (.new policy)).ProperRun requests →
      ∃ s, (HeapSession.start c (.new policy)).run requests = .ok s ∧ s.Accounted :=
  ⟨fun _ _ _ _ _ _ _ hp hsmall hcreate hr => BlockSession.run_accounted hp hsmall hcreate hr,
    fun _ _ _ _ _ _ _ hcreate hrun => BlockSession.run_tells hcreate hrun,
    fun _ _ _ hfair hvalid hnarrow hr => HeapSession.run_accounted hfair hvalid hnarrow hr⟩

theorem usage_accounted_small :
    (∃ b space' s, Block.create .slot 64 4 (.new (.sideBySide false 16 0x100000000)) =
        (.ok b, space') ∧
      (BlockSession.start b space').run [.allocate 12, .allocate 70] = .ok s ∧
      s.block.Accounted s.space.memory s.live) ∧
    ∃ s, (HeapSession.start .default (.new (.sideBySide false 16 0x100000000))).run
      [.call 0 (.allocate 48 .nodes), .wrap (.withBackend .segment), .call 1 (.allocate 0 .data),
        .call 0 (.allocate 200000 .data), .call 0 .reclaim] = .ok s ∧ s.Accounted := by
  have hpower : IsPowerOfTwo 16 := isPowerOfTwo_iff.2 ⟨4, rfl⟩
  obtain ⟨hblocks, hsegments, hheaps⟩ := usage_accounted
  refine ⟨?_, ?_⟩
  · obtain ⟨b, space', hcreate⟩ := Obtain.exists_of_isOk
      (x := Block.create .slot 64 4) (s := .new (.sideBySide false 16 0x100000000))
      (by decide +kernel)
    have hk := BlockSession.kept_start (AddressSpace.aligned_of_policy
      (Policy.sideBySide_aligned hpower false 0x100000000)) (by decide) hcreate
    have hfits : b.Fits 12 := Block.Keeps.fits_of_le hk (by decide)
    have hr : (BlockSession.start b space').ProperRun [.allocate 12, .allocate 70] := by
      refine ⟨hfits, fun t ht => ⟨?_, fun _ _ => trivial⟩⟩
      obtain ⟨t', ht', hk'⟩ := hk.apply (r := .allocate 12) hfits
      obtain rfl := Except.ok.inj (ht.symm.trans ht')
      exact Block.Keeps.fits_of_le hk' (by decide)
    obtain ⟨s, hs, haccounted⟩ := hblocks _ _ .slot 64 4 b _
      (Policy.sideBySide_aligned hpower false 0x100000000) (by decide) hcreate hr
    exact ⟨b, space', s, hcreate, hs, haccounted⟩
  · refine hheaps _ .default _ (AddressSpace.sideBySide_fair hpower false _) (by decide)
      ⟨by decide, by decide⟩ ?_
    refine ⟨fun _ _ => trivial, fun _ _ => ⟨⟨by decide, by decide, by decide⟩, fun _ _ => ?_⟩⟩
    exact ⟨fun _ _ => trivial, fun _ _ => ⟨fun _ _ => trivial, fun _ _ =>
      ⟨fun _ _ => trivial, fun _ _ => trivial⟩⟩⟩

end AffinityHeap
