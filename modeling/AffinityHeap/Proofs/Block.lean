import AffinityHeap.Block
import AffinityHeap.Proofs.Segment.Block
import AffinityHeap.Proofs.Slot.Heap

namespace AffinityHeap

variable {live : List Grant} {g : Grant} {size : Nat} {s : AddressSpace} {m m' : Memory}

theorem SlotBlock.run_eq {α : Type} {b : SlotBlock} {step : SlotStep α} {result : Except Corruption α}
    {h : SlotHeap} (hrun : step ⟨b, s.memory⟩ = (result, h)) :
    b.run step s = ((result, h.block), { s with memory := h.memory }) := by
  simp only [SlotBlock.run, AddressSpace.onMemory, hrun]

namespace SlotHeap

variable {h h' : SlotHeap} {L : Layout}

theorem Confined.byte_eq (hc : h.Confined h') (hv : h'.view = h.view) (x : Nat) :
    h'.memory.byte x = h.memory.byte x := by
  refine Memory.byte_congr ?_
  by_cases hx : x / 4 < h.block.wordIndex 0
  · exact hc.outside _ (.inl hx)
  · have hword := congrFun (congrArg SlotView.word hv) (x / 4 - h.block.wordIndex 0)
    have hindex : h.block.wordIndex (x / 4 - h.block.wordIndex 0) = x / 4 := by
      simp only [SlotBlock.wordIndex] at hx ⊢
      omega
    have hindex' : h'.block.wordIndex (x / 4 - h.block.wordIndex 0) = x / 4 := by
      simpa only [SlotBlock.wordIndex, hc.buffer] using hindex
    simpa only [view, word, hindex, hindex'] using hword

theorem Keeps.of_bytes {b : SlotBlock} (hk : Keeps ⟨b, m⟩ L live) (hb : b.Sited)
    (hm : ∀ x, b.buffer.region.Holds x → m'.byte x = m.byte x) : Keeps ⟨b, m'⟩ L live := by
  have hfour := hb.four_dvd_base
  refine hk.of_word rfl fun q hq _ => Memory.word_congr fun k hk => hm _ ?_
  have hq : q < b.buffer.len := hq
  simp only [Region.Holds, Region.stop, Buffer.region, hb.record, SlotBlock.wordIndex]
  omega

theorem Keeps.counted (hk : h.Keeps L live) : h.block.allocations = live.length := by
  have hlen := hk.granted.addresses.length_eq
  rw [List.length_map, List.length_map, ← hk.allocations] at hlen
  exact hlen.symm

theorem Keeps.eq_nil_of_isEmpty (hk : h.Keeps L live) (he : h.block.isEmpty = true) :
    live = [] := by
  rw [SlotBlock.isEmpty, hk.counted] at he
  exact List.length_eq_zero_iff.1 (beq_iff_eq.1 he)

theorem Keeps.seats (hk : h.Keeps L live) (hb : h.block.Sited) :
    h.block.buffer.region.Seats h.block.alignment live := by
  obtain ⟨haligned, hinside, hapart⟩ := hk.placed hb
  refine ⟨haligned, fun g hg => ?_, hapart⟩
  obtain ⟨hbase, hstop⟩ := hinside g hg
  simp only [Buffer.byteLen, Region.stop, Buffer.region, hb.record] at hstop ⊢
  omega

end SlotHeap

namespace Block

variable {b b' : Block} {kind : BackendKind} {blockSize alignment : Nat}

def region (b : Block) : Region := b.buffer.region

def allocations : Block → Nat
  | .slot b => b.allocations
  | .segment b => b.segments.reservationCount

/-- The room that a request of the size takes in the block fits in a word. -/
def Fits : Block → Nat → Prop
  | .slot _, _ => True
  | .segment b, size => b.segments.Fits size

/-- The bytes that a block of some size takes, of which a word keeps as much as fits. -/
def bytesFor (kind : BackendKind) (blockSize alignment : Nat) : Nat :=
  match kind with
  | .slot => roundUp blockSize (max alignment 4)
  | .segment => SegmentBlock.bytesFor blockSize (max alignment 1)

theorem le_bytesFor (kind : BackendKind) (blockSize alignment : Nat) :
    blockSize ≤ bytesFor kind blockSize alignment := by
  cases kind with
  | slot => exact le_roundUp (by omega)
  | segment => exact Nat.le_trans (Nat.le_max_left ..) (le_roundUp (by omega))

/-- A size up to this one fits in a word when any block has rounded it up. -/
def sizeLimit : Nat := 0x4000000000000000

theorem stats_allocations (m : Memory) (b : Block) : (b.stats m).allocations = b.allocations := by
  cases b <;> rfl

theorem stats_memorySize (m : Memory) (b : Block) : (b.stats m).memorySize = b.memorySize := by
  cases b <;> rfl

/-- The block is consistent and its allocations are the live grants. -/
def Keeps (m : Memory) (live : List Grant) : Block → Prop
  | .slot b => b.Sited ∧ ∃ L, SlotHeap.Keeps ⟨b, m⟩ L live
  | .segment b => b.Keeps live

structure Like (b b' : Block) : Prop where
  buffer : b'.buffer = b.buffer
  alignment : b'.alignment = b.alignment

theorem Like.base (h : b.Like b') : b'.base = b.base := by rw [Block.base, h.buffer, Block.base]

theorem Like.region (h : b.Like b') : b'.region = b.region := by
  rw [Block.region, h.buffer, Block.region]

theorem Like.memorySize (h : b.Like b') : b'.memorySize = b.memorySize := by
  rw [Block.memorySize, h.buffer, Block.memorySize]

/-- The bytes of the block are a multiple of its alignment. -/
def Whole (b : Block) : Prop := b.alignment ∣ b.memorySize

theorem Like.whole (h : b.Like b') (hb : b.Whole) : b'.Whole := by
  rwa [Whole, h.alignment, h.memorySize]

namespace Keeps

theorem power (hb : b.Keeps m live) : IsPowerOfTwo b.alignment := by
  cases b with
  | slot b => exact hb.1.power
  | segment b => exact hb.power

theorem region_pos (hb : b.Keeps m live) : 0 < b.region.size := by
  cases b with
  | slot b =>
      simp only [region, Block.buffer, Buffer.region, hb.1.record]
      omega
  | segment b =>
      simp only [region, Block.buffer, Buffer.region, SegmentBlock.Keeps.record hb]
      omega

theorem seats (hb : b.Keeps m live) : b.region.Seats b.alignment live := by
  cases b with
  | slot b =>
      obtain ⟨hsited, L, hL⟩ := hb
      exact hL.seats hsited
  | segment b => exact SegmentBlock.Keeps.seats hb

theorem of_bytes (hb : b.Keeps m live) (hm : ∀ x, b.region.Holds x → m'.byte x = m.byte x) :
    b.Keeps m' live := by
  cases b with
  | slot b =>
      obtain ⟨hsited, L, hL⟩ := hb
      exact ⟨hsited, L, hL.of_bytes hsited hm⟩
  | segment b => exact hb

theorem counted (hb : b.Keeps m live) : b.allocations = live.length := by
  cases b with
  | slot b =>
      obtain ⟨-, L, hL⟩ := hb
      exact hL.counted
  | segment b => exact SegmentBlock.Keeps.counted hb

theorem eq_nil_of_isEmpty (hb : b.Keeps m live) (he : b.isEmpty = true) : live = [] := by
  cases b with
  | slot b =>
      obtain ⟨-, L, hL⟩ := hb
      exact hL.eq_nil_of_isEmpty he
  | segment b => exact SegmentBlock.Keeps.eq_nil_of_isEmpty hb he

theorem contains (hb : b.Keeps m live) (hg : g ∈ live) : b.contains g.address = true := by
  cases b with
  | slot b =>
      obtain ⟨hsited, L, hL⟩ := hb
      obtain ⟨hbase, hstop⟩ := (hL.placed hsited).inside g hg
      refine Buffer.contains_iff.2 ⟨hbase, Nat.lt_of_lt_of_le ?_ hstop⟩
      simp only [Grant.region, Region.stop]
      omega
  | segment b => exact SegmentBlock.Keeps.contains hb hg

theorem write (hb : b.Keeps m live) (hg : g ∈ live) {offset : Nat} {bytes : List UInt8}
    (hfit : offset + bytes.length ≤ g.size) :
    b.Keeps (m.setBytes (g.address + offset) bytes) live := by
  cases b with
  | slot b =>
      obtain ⟨hsited, L, hL⟩ := hb
      exact ⟨hsited, L, hL.write hsited.four_dvd_base hg hfit⟩
  | segment b => exact hb

theorem fits_of_le (hb : b.Keeps m live) (hsize : size ≤ sizeLimit) : b.Fits size := by
  cases b with
  | slot b => trivial
  | segment b => exact SegmentBlock.Keeps.fits_of_le hb hsize

theorem allocate (hb : b.Keeps s.memory live) (hfits : b.Fits size) : ∃ answer b' m',
    b.allocate size s = ((.ok answer, b'), { s with memory := m' }) ∧
      b'.Keeps m' (Grant.add live size answer) ∧ b.Like b' ∧ b.region.Confines s.memory m' ∧
      Memory.Agrees live s.memory m' := by
  cases b with
  | slot b =>
      obtain ⟨hsited, L, hL⟩ := hb
      rcases hL.allocate size with ⟨h', hrun, hview, hconf, -⟩ |
        ⟨K, L', h', hserved, hrun, hkeeps, hconf, hlike, hrw⟩
      · have hblock : h'.block = b := congrArg SlotView.block hview
        have hbyte := hconf.byte_eq hview
        refine ⟨none, .slot h'.block, h'.memory, ?_, ?_, ?_, fun x _ => hbyte x,
          fun g _ i _ => hbyte _⟩
        · simp only [Block.allocate, bind, StateT.bind, SlotBlock.run_eq hrun]
          rfl
        · rw [hblock]
          exact ⟨hsited, L, hL.of_bytes hsited fun x _ => hbyte x⟩
        · rw [hblock]
          exact ⟨rfl, rfl⟩
      · refine ⟨some (b.addressOf (K.position + 1)), .slot h'.block, h'.memory, ?_,
          ⟨hlike.sited hsited, L', hkeeps⟩, ⟨hlike.buffer, hlike.alignment⟩,
          hconf.confines hsited, hL.allocate_agrees hsited.four_dvd_base hserved hlike hrw⟩
        simp only [Block.allocate, bind, StateT.bind, SlotBlock.run_eq hrun]
        rfl
  | segment b =>
      rcases SegmentBlock.Keeps.allocate hb hfits with hrun | ⟨offset, b', hrun, hkeeps, hlike⟩
      · exact ⟨none, .segment b, s.memory, by rw [Block.allocate, hrun]; rfl, hb, ⟨rfl, rfl⟩,
          fun _ _ => rfl, fun _ _ _ _ => rfl⟩
      · exact ⟨some (b.buffer.base + offset), .segment b', s.memory,
          by rw [Block.allocate, hrun]; rfl, hkeeps, ⟨hlike.buffer, hlike.alignment⟩,
          fun _ _ => rfl, fun _ _ _ _ => rfl⟩

theorem release (hb : b.Keeps s.memory live) (hg : g ∈ live) : ∃ b' m',
    b.deallocate g.address g.size s = ((.ok (), b'), { s with memory := m' }) ∧
      b'.Keeps m' (live.erase g) ∧ b.Like b' ∧ b.region.Confines s.memory m' ∧
      Memory.Agrees (live.erase g) s.memory m' := by
  cases b with
  | slot b =>
      obtain ⟨hsited, L, hL⟩ := hb
      obtain ⟨C, L', h', hC, hfreed, hrun, hkeeps, hconf, hlike, hrw⟩ :=
        hL.release hsited.record hg (Nat.le_refl _)
      refine ⟨.slot h'.block, h'.memory, ?_, ⟨hlike.sited hsited, L', hkeeps⟩,
        ⟨hlike.buffer, hlike.alignment⟩, hconf.confines hsited,
        hL.release_agrees hkeeps hsited.four_dvd_base hfreed hC hlike hrw⟩
      simp only [Block.deallocate, bind, StateT.bind, SlotBlock.run_eq hrun]
      rfl
  | segment b =>
      obtain ⟨b', hrun, hkeeps, hlike⟩ := SegmentBlock.Keeps.release hb hg
      exact ⟨.segment b', s.memory, by rw [Block.deallocate, hrun]; rfl, hkeeps,
        ⟨hlike.buffer, hlike.alignment⟩, fun _ _ => rfl, fun _ _ _ _ => rfl⟩

end Keeps

theorem create_cases (hs : s.Aligned) (kind : BackendKind) (blockSize : Nat)
    (hsmall : kind = .slot → alignment < 131072) :
    (∃ e s', create kind blockSize alignment s = (.error e, s') ∧ s.Refused s' ∧
        ∀ c, e ≠ .corruption c) ∨
      ∃ b s' obtained, create kind blockSize alignment s = (.ok b, s') ∧
        s.Obtained s' b.region obtained ∧ b.Keeps s'.memory [] ∧ alignment ≤ b.alignment := by
  cases kind with
  | segment =>
      rcases SegmentBlock.create_cases s hs blockSize alignment with
        ⟨e, s', hrun, href, hne⟩ | ⟨b, s', obtained, hrun, hobtained, hkeeps, hal⟩
      · exact .inl ⟨e, s', by rw [create, Obtain.map_apply, hrun], href, hne⟩
      · exact .inr ⟨.segment b, s', obtained, by rw [create, Obtain.map_apply, hrun], hobtained,
          hkeeps, by rw [Block.alignment, hal]; exact Nat.le_max_left ..⟩
  | slot =>
      rcases SlotBlock.create_cases s blockSize alignment with
        ⟨e, s', hrun, href, hne⟩ | ⟨base, -, -, -, -, h, -, hrun⟩
      · exact .inl ⟨e, s', by rw [create, Obtain.map_apply, hrun], href, hne⟩
      · obtain ⟨hsited, hal, -, -, hobtained⟩ := SlotBlock.create_carved hs (hsmall rfl) hrun
        obtain ⟨-, -, hkeeps⟩ := SlotBlock.create_keeps hs (hsmall rfl) hrun
        refine .inr ⟨.slot _, _, _, by rw [create, Obtain.map_apply, hrun], hobtained,
          ⟨hsited, _, hkeeps⟩, ?_⟩
        rw [Block.alignment, hal]
        exact Nat.le_max_left ..

end Block

end AffinityHeap
