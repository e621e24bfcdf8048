import AffinityHeap.Proofs.LargestFree

namespace AffinityHeap

namespace SegmentBlock

variable {b : SegmentBlock} {live : List Grant} {g : Grant} {address size : Nat}

namespace Keeps

theorem inside (hk : b.Keeps live) (hg : g ∈ live) : b.buffer.base ≤ g.address ∧
    g.address + b.segments.roundedLength g.size ≤ b.buffer.base + b.buffer.len := by
  obtain ⟨offset, haddress, hhas⟩ := hk.reservation hg
  have hstop := hk.sound.inside _ _ _ hhas
  rw [hk.total] at hstop
  omega

theorem deallocate_unknown (hk : b.Keeps live) (hin : b.buffer.contains address = true)
    (hdead : ∀ g ∈ live, g.address ≠ address) (size : Nat) :
    b.deallocate address size = .error (.unknownReservation (address - b.buffer.base)) := by
  have hoffset : b.buffer.offsetOf? address = some (address - b.buffer.base) := if_pos hin
  have hbase := (Buffer.contains_iff.1 hin).1
  have hrelease : b.segments.release (address - b.buffer.base) size = .unknown := by
    cases hfind : b.segments.reserved.find? (address - b.buffer.base) with
    | none => simp only [Segments.release, hfind]
    | some length =>
        obtain ⟨g, hg, haddress, -⟩ := hk.reserved_iff.1 hfind
        exact absurd (by omega) (hdead g hg)
  simp only [deallocate, hoffset, hrelease]

theorem deallocate_mismatch (hk : b.Keeps live) (hg : g ∈ live)
    (hsize : b.segments.roundedLength size ≠ b.segments.roundedLength g.size) :
    b.deallocate g.address size = .error (.reservationSizeMismatch (g.address - b.buffer.base)
      (b.segments.roundedLength g.size) (b.segments.roundedLength size)) := by
  obtain ⟨offset, haddress, hhas⟩ := hk.reservation hg
  have hoffset : g.address - b.buffer.base = offset := by omega
  have hfind : b.segments.reserved.find? offset = some (b.segments.roundedLength g.size) := hhas
  have hrelease : b.segments.release offset size = .mismatch (b.segments.roundedLength g.size)
      (b.segments.roundedLength size) := by
    simp only [Segments.release, hfind, if_neg hsize]
  simp only [deallocate, hk.offsetOf? hg, hoffset, hrelease]

theorem deallocate_outside (hout : b.buffer.contains address = false) (size : Nat) :
    b.deallocate address size = .error (.misalignedPointer (b.buffer.wrappedOffset address)) := by
  have hoffset : b.buffer.offsetOf? address = none := if_neg (by simp [hout])
  simp only [deallocate, hoffset]

theorem deallocate_cases (hk : b.Keeps live) (address size : Nat) :
    (∃ g ∈ live, g.address = address ∧
      b.segments.roundedLength size = b.segments.roundedLength g.size) ∨
      ∃ e, b.deallocate address size = .error e := by
  cases hin : b.buffer.contains address with
  | false => exact .inr ⟨_, deallocate_outside hin size⟩
  | true =>
      by_cases hlive : ∃ g ∈ live, g.address = address
      · obtain ⟨g, hg, rfl⟩ := hlive
        by_cases hsize : b.segments.roundedLength size = b.segments.roundedLength g.size
        · exact .inl ⟨g, hg, rfl, hsize⟩
        · exact .inr ⟨_, hk.deallocate_mismatch hg hsize⟩
      · exact .inr ⟨_, hk.deallocate_unknown hin (fun g hg h => hlive ⟨g, hg, h⟩) size⟩

/-- A pointer handed out, and where it lies. -/
theorem allocate_placed (hk : b.Keeps live) (hsize : b.segments.Fits size) :
    b.allocate size = (none, b) ∨
      ∃ address t, b.allocate size = (some address, t) ∧ t.Keeps (⟨address, size⟩ :: live) ∧
        b.Like t ∧ b.alignment ∣ address ∧ b.buffer.base ≤ address ∧
        address + b.segments.roundedLength size ≤ b.buffer.base + b.buffer.len ∧
        ∀ g ∈ live, address + b.segments.roundedLength size ≤ g.address ∨
          g.address + b.segments.roundedLength g.size ≤ address := by
  refine (hk.allocate hsize).imp id ?_
  rintro ⟨offset, t, hrun, hkeeps, hlike⟩
  have hmem := List.mem_cons_self (a := Grant.mk (b.buffer.base + offset) size) (l := live)
  have hinside := hkeeps.inside hmem
  have haligned := hkeeps.seats.aligned _ hmem
  have hapart := (List.pairwise_cons.1 hkeeps.apart).1
  simp only [hlike.roundedLength, hlike.buffer, hlike.alignment] at hinside haligned hapart
  exact ⟨_, t, hrun, hkeeps, hlike, haligned, hinside.1, hinside.2, hapart⟩

end Keeps

end SegmentBlock

theorem eraseP_address {live : List Grant} {g : Grant} (hnd : (live.map (·.address)).Nodup)
    (hg : g ∈ live) : live.eraseP (·.address == g.address) = live.erase g := by
  induction live with
  | nil => cases hg
  | cons k rest ih =>
      obtain ⟨hk, hrest⟩ := List.nodup_cons.1 hnd
      rcases List.mem_cons.1 hg with rfl | hg
      · rw [List.erase_cons_head]
        exact List.eraseP_cons_of_pos (beq_self_eq_true g.address)
      · have hne : k.address ≠ g.address := fun h => hk (List.mem_map.2 ⟨g, hg, h.symm⟩)
        have hkg : k ≠ g := fun h => hne (congrArg _ h)
        rw [List.eraseP_cons_of_neg (by simpa using hne), List.erase_cons_tail (by simpa using hkg),
          ih hrest hg]

/-- A call with any arguments: the pointer need not be live, nor the bytes the client's. -/
inductive BlockCall where
  | allocate (size : Nat)
  | deallocate (address size : Nat)
  | write (address : Nat) (bytes : List UInt8)

/-- A size that is asked for can be rounded up to the unit within a word. -/
def BlockCall.Fits (unit : Nat) : BlockCall → Prop
  | allocate size => roundUp (max size 1) unit < UInt64.size
  | deallocate _ _ => True
  | write _ _ => True

instance (unit : Nat) : ∀ r, Decidable (BlockCall.Fits unit r)
  | .allocate size => inferInstanceAs (Decidable (roundUp (max size 1) unit < UInt64.size))
  | .deallocate _ _ => inferInstanceAs (Decidable True)
  | .write _ _ => inferInstanceAs (Decidable True)

namespace BlockSession

variable {c : SegmentBlock} {s : BlockSession}

/-- A pointer is live from its allocation to the first release of it that succeeds. -/
def call (s : BlockSession) : BlockCall → BlockSession
  | .allocate size =>
      match s.block.allocate size s.space with
      | ((.ok answer, block), space) => ⟨block, space, Grant.add s.live size answer⟩
      | ((.error _, block), space) => ⟨block, space, s.live⟩
  | .deallocate address size =>
      match s.block.deallocate address size s.space with
      | ((.ok (), block), space) => ⟨block, space, s.live.eraseP (·.address == address)⟩
      | ((.error _, block), space) => ⟨block, space, s.live⟩
  | .write address bytes => { s with space.memory := s.space.memory.setBytes address bytes }

def calls (s : BlockSession) (calls : List BlockCall) : BlockSession := calls.foldl call s

/-- Which pointers the segment block `b` takes back, and which it hands out. -/
structure Exact (s : BlockSession) (b : SegmentBlock) : Prop where
  block : s.block = .segment b
  distinct : (s.live.map (·.address)).Nodup
  holds : ∀ offset length, b.segments.Has offset length .reserved ↔ ∃ g ∈ s.live,
    g.address = b.buffer.base + offset ∧ b.segments.roundedLength g.size = length
  accepts_iff : ∀ address size, (s.block.deallocate address size s.space).1.1 = .ok () ↔
    ∃ g ∈ s.live, g.address = address ∧
      b.segments.roundedLength size = b.segments.roundedLength g.size
  ends : ∀ g ∈ s.live, ∀ size,
    b.segments.roundedLength size = b.segments.roundedLength g.size →
      ∃ t, s.block.deallocate g.address size s.space = ((.ok (), .segment t), s.space) ∧
        b.Like t ∧ t.segments.reserved = b.segments.reserved.erase (g.address - b.buffer.base) ∧
        s.call (.deallocate g.address size) = ⟨.segment t, s.space, s.live.erase g⟩
  mismatch : ∀ g ∈ s.live, ∀ size,
    b.segments.roundedLength size ≠ b.segments.roundedLength g.size →
      s.block.deallocate g.address size s.space =
        ((.error (.reservationSizeMismatch (g.address - b.buffer.base)
          (b.segments.roundedLength g.size) (b.segments.roundedLength size)), s.block), s.space)
  unknown : ∀ address, b.buffer.contains address = true → (∀ g ∈ s.live, g.address ≠ address) →
    ∀ size, s.block.deallocate address size s.space =
      ((.error (.unknownReservation (address - b.buffer.base)), s.block), s.space)
  outside : ∀ address, b.buffer.contains address = false → ∀ size,
    s.block.deallocate address size s.space =
      ((.error (.misalignedPointer (b.buffer.wrappedOffset address)), s.block), s.space)
  answers : ∀ size, b.segments.Fits size →
    s.block.allocate size s.space = ((.ok none, s.block), s.space) ∨ ∃ address t,
      s.block.allocate size s.space = ((.ok (some address), .segment t), s.space) ∧ b.Like t ∧ b.alignment ∣ address ∧ b.buffer.base ≤ address ∧
      address + b.segments.roundedLength size ≤ b.buffer.base + b.buffer.len ∧
      ∀ g ∈ s.live, address + b.segments.roundedLength size ≤ g.address ∨
        g.address + b.segments.roundedLength g.size ≤ address

namespace Segmented

theorem call (hs : Segmented c s) {r : BlockCall} (hr : r.Fits c.alignment) :
    Segmented c (s.call r) := by
  obtain ⟨block, space, live⟩ := s
  obtain ⟨b, rfl, hlike, hk⟩ := hs
  have hk : b.Keeps live := hk
  cases r with
  | allocate size =>
      have hsize : b.segments.Fits size := (hlike.fits size).2 hr
      rcases hk.allocate hsize with hrun | ⟨offset, t, hrun, hkeeps, hlike'⟩
      · simp only [BlockSession.call, Block.allocate, hrun]
        exact ⟨b, rfl, hlike, hk⟩
      · simp only [BlockSession.call, Block.allocate, hrun]
        exact ⟨t, rfl, hlike.trans hlike', hkeeps⟩
  | deallocate address size =>
      rcases hk.deallocate_cases address size with ⟨g, hg, rfl, hsize⟩ | ⟨e, hrun⟩
      · obtain ⟨t, hrun, hkeeps, hlike', -⟩ := hk.release_sized hg hsize
        simp only [BlockSession.call, Block.deallocate, hrun]
        refine ⟨t, rfl, hlike.trans hlike', ?_⟩
        show t.Keeps (live.eraseP _)
        rwa [eraseP_address hk.nodup_addresses hg]
      · simp only [BlockSession.call, Block.deallocate, hrun]
        exact ⟨b, rfl, hlike, hk⟩
  | write address bytes => exact ⟨b, rfl, hlike, hk⟩

theorem calls (hs : Segmented c s) {calls : List BlockCall}
    (hcalls : ∀ r ∈ calls, r.Fits c.alignment) : Segmented c (s.calls calls) := by
  induction calls generalizing s with
  | nil => exact hs
  | cons r rest ih =>
      exact ih (hs.call (hcalls r (List.mem_cons_self ..)))
        fun r hr => hcalls r (List.mem_cons_of_mem _ hr)

theorem exact (hs : Segmented c s) : ∃ b, c.Like b ∧ s.Exact b := by
  obtain ⟨block, space, live⟩ := s
  obtain ⟨b, rfl, hlike, hk⟩ := hs
  have hk : b.Keeps live := hk
  have hfails : ∀ address size e, b.deallocate address size = .error e →
      (Block.segment b).deallocate address size space = ((.error e, .segment b), space) := by
    intro address size e hrun
    rw [Block.deallocate, hrun]
    rfl
  have hends : ∀ g ∈ live, ∀ size,
      b.segments.roundedLength size = b.segments.roundedLength g.size → ∃ t,
        (Block.segment b).deallocate g.address size space = ((.ok (), .segment t), space) ∧
        b.Like t ∧ t.segments.reserved =
          b.segments.reserved.erase (g.address - b.buffer.base) := by
    intro g hg size hsize
    obtain ⟨t, hrun, -, hlike', hreserved⟩ := hk.release_sized hg hsize
    refine ⟨t, ?_, hlike', hreserved⟩
    rw [Block.deallocate, hrun]
    rfl
  refine ⟨b, hlike, ?_⟩
  constructor
  · rfl
  · exact hk.nodup_addresses
  · intro offset length
    exact hk.reserved_iff
  · intro address size
    constructor
    · intro hok
      rcases hk.deallocate_cases address size with hlive | ⟨e, hrun⟩
      · exact hlive
      · rw [hfails _ _ _ hrun] at hok
        cases hok
    · rintro ⟨g, hg, rfl, hsize⟩
      obtain ⟨t, hok, -⟩ := hends g hg size hsize
      rw [hok]
  · intro g hg size hsize
    obtain ⟨t, hok, hlike', hreserved⟩ := hends g hg size hsize
    refine ⟨t, hok, hlike', hreserved, ?_⟩
    simp only [BlockSession.call, hok, eraseP_address hk.nodup_addresses hg]
  · intro g hg size hsize
    exact hfails _ _ _ (hk.deallocate_mismatch hg hsize)
  · intro address hin hdead size
    exact hfails _ _ _ (hk.deallocate_unknown hin hdead size)
  · intro address hout size
    exact hfails _ _ _ (SegmentBlock.Keeps.deallocate_outside hout size)
  · intro size hsize
    rcases hk.allocate_placed hsize with hrun | ⟨address, t, hrun, -, hplaced⟩
    · refine .inl ?_
      rw [Block.allocate, hrun]
      rfl
    · refine .inr ⟨address, t, ?_, hplaced⟩
      rw [Block.allocate, hrun]
      rfl

end Segmented

/-- Whatever was called before, the frees that succeed are those of live pointers with a size of
their rounded length. -/
theorem calls_exact {space space' : AddressSpace} {blockSize alignment : Nat} (hs : space.Aligned)
    (hcreate : SegmentBlock.create blockSize alignment space = (.ok c, space'))
    {calls : List BlockCall} (hcalls : ∀ r ∈ calls, r.Fits c.alignment) :
    ∃ b, c.Like b ∧ ((start (.segment c) space').calls calls).Exact b := by
  rcases SegmentBlock.create_cases space hs blockSize alignment with
    ⟨e, t, hrun, -⟩ | ⟨d, t, obtained, hrun, -, hkeeps, -⟩
  · rw [hcreate] at hrun
    cases hrun
  rw [hcreate] at hrun
  cases hrun
  have hstart : Segmented c (start (.segment c) space') := ⟨c, rfl, ⟨rfl, rfl⟩, hkeeps⟩
  exact (hstart.calls hcalls).exact

theorem calls_exact_small : let s := AddressSpace.new (.sideBySide false 16 0x100000000)
    ∃ c t, SegmentBlock.create 64 8 s = (.ok c, t) ∧ ∃ b, c.Like b ∧
      ((start (.segment c) t).calls [.allocate 10, .deallocate 0x1000000000 9,
        .deallocate 0x1000000000 9, .allocate 64]).Exact b := by
  intro s
  have hs : s.Aligned := AddressSpace.aligned_of_policy
    (Policy.sideBySide_aligned (isPowerOfTwo_iff.2 ⟨4, rfl⟩) false 0x100000000)
  obtain ⟨c, t, hcreate, halignment⟩ := Obtain.exists_of_any
    (x := SegmentBlock.create 64 8) (s := s) (p := fun c => decide (c.alignment = 8))
    (by decide +kernel)
  refine ⟨c, t, hcreate, calls_exact hs hcreate ?_⟩
  rw [of_decide_eq_true halignment]
  decide

end BlockSession

end AffinityHeap
