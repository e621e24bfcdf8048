import AffinityHeap.Proofs.Room

namespace AffinityHeap

open SlotGeometry (maxAlignedSpan neededWords)

variable {s s' : AddressSpace} {b : SlotBlock} {blockSize alignment size : Nat}

/-- A buffer of a size that can be laid out is refused by the system alone. -/
theorem Buffer.zeroed_answers (s : AddressSpace) {record : Nat} (len : Nat)
    (hpower : IsPowerOfTwo (max alignment record))
    (hsize : record * max len 1 + max alignment record ≤ 0x8000000000000000) :
    (∃ c s', zeroed record len alignment s = (.ok c, s')) ∨
      ∃ n k s', zeroed record len alignment s = (.error (.outOfMemory n k), s') := by
  have hlarge : ¬ UInt64.size ≤ record * max len 1 := by
    have hword : UInt64.size = 0x10000000000000000 := rfl
    omega
  have hlayout : ¬ (¬ IsPowerOfTwo (max alignment record) ∨
      0x8000000000000000 - max alignment record < record * max len 1) := by
    rintro (hno | hno)
    · exact hno hpower
    · omega
  simp only [zeroed, if_neg hlarge, if_neg hlayout, Obtain.bind_apply, Obtain.lift_apply]
  rcases AddressSpace.request (record * max len 1) (max alignment record) s with ⟨_ | base, s'⟩
  · exact .inr ⟨_, _, _, rfl⟩
  · exact .inl ⟨_, _, rfl⟩

namespace SlotBlock

theorem wrap_of_addressable (h : roundUp blockSize alignment / 4 < 0x100000000) :
    wrap (roundUp blockSize alignment) = roundUp blockSize alignment := by
  have hword : UInt64.size = 0x10000000000000000 := rfl
  exact wrap_of_lt (by omega)

theorem create_answers (s : AddressSpace) (hpower : IsPowerOfTwo (max alignment 4))
    (hsmall : alignment < 131072)
    (haddressable : roundUp blockSize (max alignment 4) / 4 < 0x100000000) :
    (∃ b s', create blockSize alignment s = (.ok b, s')) ∨
      ∃ n k s', create blockSize alignment s = (.error (.outOfMemory n k), s') := by
  have hsixteen : IsPowerOfTwo (max (max (max alignment 4) minAlignment) 4) :=
    powerOfTwo_max (powerOfTwo_max hpower (isPowerOfTwo_iff.2 ⟨4, rfl⟩))
      (isPowerOfTwo_iff.2 ⟨2, rfl⟩)
  have hmin : minAlignment = 16 := rfl
  have hword := wrap_of_addressable haddressable
  have hsmaller : wrap (roundUp blockSize (max alignment 4)) / 4 < 0x100000000 := by rwa [hword]
  let t : AddressSpace :=
    { s with overflowed := s.overflows (roundUp blockSize (max alignment 4)) }
  rcases hrun : create blockSize alignment s with ⟨e | b, s'⟩
  · unfold create at hrun
    have hbind := hrun.symm.trans ((Obtain.guard_neg (not_not.2 hpower)).trans
      ((Obtain.bind_apply ..).trans ((Obtain.guard_neg (Nat.not_le.2 hsmaller)).trans
        (Obtain.bind_apply ..))))
    rcases Buffer.zeroed_answers t (wrap (roundUp blockSize (max alignment 4)) / 4) hsixteen
      (by omega) with ⟨c, t', hzeroed⟩ | ⟨n, k, t', hzeroed⟩
    · rw [hzeroed] at hbind
      cases hbind
    · rw [hzeroed] at hbind
      cases hbind
      exact .inr ⟨n, k, _, rfl⟩
  · exact .inl ⟨b, s', rfl⟩

theorem create_serves_iff (hp : s.Aligned) (hsmall : alignment < 131072)
    (hcreate : create blockSize alignment s = (.ok b, s')) (size : Nat) :
    (Block.slot b).Serves size s' ↔ 0 < b.freeCount ∧ size ≤ b.maximumAllocationSize := by
  obtain ⟨-, -, hk⟩ := create_keeps hp hsmall hcreate
  rw [Block.serves_slot_iff hk]
  constructor
  · rintro ⟨⟨hfree, -⟩, hmax⟩
    exact ⟨hfree, hmax⟩
  · rintro ⟨hfree, hmax⟩
    have hroom : minSlotSpan ≤ b.buffer.len - b.first := by
      refine Nat.not_lt.1 fun hshort => Nat.ne_of_gt hfree ?_
      have hnone : (freshLayout b.buffer.len b.unit).free = [] := by
        show (fill b.buffer.len (maxAlignedSpan b.unit) b.first 0).map (·.position) = []
        rw [fill_nil hshort]
        rfl
      rw [hk.consistent.counted, hnone]
      rfl
    obtain ⟨hmem, hpayload⟩ := create_firstSlot hp hsmall hcreate hroom
    exact ⟨(hk.room_iff size).2 ⟨b.firstSlot, hmem, rfl, hpayload ▸ hmax⟩, hmax⟩

theorem create_enough (hp : s.Aligned) (hsmall : alignment < 131072)
    (hcreate : create blockSize alignment s = (.ok b, s'))
    (hsize : size ≤ SlotGeometry.maximumAllocationSize alignment)
    (hblock : SlotGeometry.blockSizeFor size alignment ≤ blockSize)
    (haddressable : roundUp blockSize (max alignment 4) / 4 < 0x100000000) :
    (Block.slot b).Serves size s' := by
  obtain ⟨-, -, hk⟩ := create_keeps hp hsmall hcreate
  have hround : roundUp blockSize (max alignment 4) < UInt64.size :=
    wrap_of_addressable haddressable ▸ wrap_lt _
  obtain ⟨hmax, hslot⟩ := create_room hp hsmall hcreate hsize hblock hround
  exact (Block.serves_slot_iff hk size).2 ⟨(hk.room_iff size).2 hslot, hmax⟩

/-- A slot that holds the request, with the words in front of it, fills `blockSizeFor`. -/
theorem create_short (hp : s.Aligned) (hsmall : alignment < 131072)
    (hcreate : create blockSize alignment s = (.ok b, s')) (hwhole : max alignment 4 ∣ blockSize)
    (hserves : (Block.slot b).Serves size s') :
    SlotGeometry.blockSizeFor size alignment ≤ blockSize := by
  obtain ⟨hsited, hal, hk⟩ := create_keeps hp hsmall hcreate
  obtain ⟨-, -, hlen, -⟩ := create_carved hp hsmall hcreate
  have hle : wrap (roundUp blockSize (max alignment 4)) ≤ blockSize := by
    rw [roundUp_of_dvd (by omega) hwhole]
    exact Nat.mod_le ..
  obtain ⟨F, hF, -, hsize⟩ := (hk.room_iff size).1 ((Block.serves_slot_iff hk size).1 hserves).1
  have hfirst : b.first ≤ F.position := hk.sound.first_le hF
  have hstop : F.position + F.span ≤ b.capacity := hk.sound.stop_le hF
  have hinside : b.capacity ≤ b.buffer.len := hk.sound.inside (List.ne_nil_of_mem hF)
  have hspan : minPayloadWords + 1 ≤ F.span := (hk.sound.each F hF).1
  have hneeded : neededWords size ≤ F.span - 1 := neededWords_le (by omega) hsize
  have hblock : (b.first + 1 + neededWords size) * 4 ≤ blockSize := by omega
  rw [first, unit, hal] at hblock
  have hbytes := Nat.le_trans (Nat.mod_le _ UInt64.size) hblock
  exact Nat.le_trans (Nat.mod_le ..) (roundUp_le_of_dvd (by omega) hbytes hwhole)

theorem blockSizeFor_addressable (hsmall : alignment < 131072)
    (hsize : size ≤ SlotGeometry.maximumAllocationSize alignment) :
    roundUp (SlotGeometry.blockSizeFor size alignment) (max alignment 4) / 4 < 0x100000000 := by
  have hpos : 0 < max alignment 4 := by omega
  obtain ⟨heq, hlt⟩ := SlotGeometry.blockSizeFor_eq hsmall hsize
  have hdvd : max alignment 4 ∣ SlotGeometry.blockSizeFor size alignment := heq ▸ dvd_roundUp ..
  rw [roundUp_of_dvd hpos hdvd]
  omega

/-- What the new blocks of an alignment serve, whatever their size. -/
structure Capacity (alignment : Nat) (s : AddressSpace) : Prop where
  made : ∀ blockSize, IsPowerOfTwo (max alignment 4) →
    roundUp blockSize (max alignment 4) / 4 < 0x100000000 →
      (∃ b s', create blockSize alignment s = (.ok b, s')) ∨
        ∃ n k s', create blockSize alignment s = (.error (.outOfMemory n k), s')
  addressable : ∀ size, size ≤ SlotGeometry.maximumAllocationSize alignment →
    roundUp (SlotGeometry.blockSizeFor size alignment) (max alignment 4) / 4 < 0x100000000
  serves_iff : ∀ blockSize b s', create blockSize alignment s = (.ok b, s') → ∀ size,
    (Block.slot b).Serves size s' ↔ 0 < b.freeCount ∧ size ≤ b.maximumAllocationSize
  refuses : ∀ blockSize b s', create blockSize alignment s = (.ok b, s') → ∀ size,
    ¬ (Block.slot b).Serves size s' →
      (Block.slot b).allocate size s' = ((.ok none, .slot b), s')
  enough : ∀ blockSize b s', create blockSize alignment s = (.ok b, s') → ∀ size,
    size ≤ SlotGeometry.maximumAllocationSize alignment →
      SlotGeometry.blockSizeFor size alignment ≤ blockSize →
      roundUp blockSize (max alignment 4) / 4 < 0x100000000 → (Block.slot b).Serves size s'
  short : ∀ blockSize b s', create blockSize alignment s = (.ok b, s') → ∀ size,
    max alignment 4 ∣ blockSize → blockSize < SlotGeometry.blockSizeFor size alignment →
      ¬ (Block.slot b).Serves size s'

theorem create_capacity (hp : s.Aligned) (hsmall : alignment < 131072) : Capacity alignment s := by
  constructor
  · intro blockSize hpower haddressable
    exact create_answers s hpower hsmall haddressable
  · intro size hsize
    exact blockSizeFor_addressable hsmall hsize
  · intro blockSize b s' hcreate size
    exact create_serves_iff hp hsmall hcreate size
  · intro blockSize b s' hcreate size hno
    obtain ⟨hsited, -, hk⟩ := create_keeps hp hsmall hcreate
    have hkeeps : (Block.slot b).Keeps s'.memory [] := ⟨hsited, _, hk⟩
    exact hkeeps.refuses trivial hno
  · intro blockSize b s' hcreate size hsize hblock haddressable
    exact create_enough hp hsmall hcreate hsize hblock haddressable
  · intro blockSize b s' hcreate size hwhole hblock hserves
    exact absurd (create_short hp hsmall hcreate hwhole hserves) (Nat.not_le.2 hblock)

/-- Blocks of 112 and 128 bytes with an alignment of 16: only the longer one serves 100 bytes. -/
theorem create_capacity_small : let s := AddressSpace.new (.sideBySide false 16 0x100000000)
    (∃ b s', create 112 16 s = (.ok b, s') ∧ ¬ (Block.slot b).Serves 100 s') ∧
      ∃ b s', create 128 16 s = (.ok b, s') ∧ (Block.slot b).Serves 100 s' := by
  intro s
  have hp : s.Aligned := AddressSpace.aligned_of_policy
    (Policy.sideBySide_aligned (isPowerOfTwo_iff.2 ⟨4, rfl⟩) false 0x100000000)
  have hcapacity : Capacity 16 s := create_capacity hp (by decide)
  obtain ⟨b, t, hshort⟩ := Obtain.exists_of_isOk
    (x := create 112 16) (s := s) (by decide +kernel)
  obtain ⟨c, u, hlong⟩ := Obtain.exists_of_isOk
    (x := create 128 16) (s := s) (by decide +kernel)
  refine ⟨⟨b, t, hshort, ?_⟩, c, u, hlong, ?_⟩
  · exact hcapacity.short 112 b t hshort 100 (by decide) (by decide)
  · exact hcapacity.enough 128 c u hlong 100 (by decide) (by decide) (by decide)

end SlotBlock

end AffinityHeap
