import AffinityHeap.Proofs.Level
import AffinityHeap.Proofs.Slot.Stays
import Mathlib.Logic.Relation

namespace AffinityHeap

/-- The system has handed out the region; its bytes may have been written since. -/
structure AddressSpace.Extended (s s' : AddressSpace) (r : Region) : Prop where
  answer : ∃ alignment, IsPowerOfTwo alignment ∧
    s.policy s.asked s.handed s.held r.size alignment = some r.base
  space : ∃ memory overflowed, (s.overflowed = true → overflowed = true) ∧
    s' = { AddressSpace.hold { s with asked := s.asked + 1 } r with memory, overflowed }

theorem Buffer.extended {b : Buffer} {s : AddressSpace} (m : Memory) {o : Bool}
    (ho : s.overflowed = true → o = true) (hpower : IsPowerOfTwo b.alignment)
    (hpolicy : s.policy s.asked s.handed s.held b.region.size b.alignment = some b.base) :
    s.Extended { grantedSpace s b.record b.len b.base with memory := m, overflowed := o }
      b.region :=
  ⟨⟨b.alignment, hpower, hpolicy⟩, m, o, ho, rfl⟩

namespace Block

/-- A slot block lies where its words are aligned. -/
def Sited : Block → Prop
  | .slot b => b.Sited
  | .segment _ => True

/-- A new block in a region of the system, whatever is written into its memory. -/
structure Made (kind : BackendKind) (blockSize alignment : Nat) (s : AddressSpace) (b : Block)
    (s' : AddressSpace) : Prop where
  extended : s.Extended s' b.region
  marked : s'.overflowed = s.overflows (bytesFor kind blockSize alignment)
  sited : s.Aligned → b.Sited
  record_pos : 0 < b.buffer.record
  whole : b.Whole
  alignment_le : alignment ≤ b.alignment
  size_eq : b.memorySize = wrap (bytesFor kind blockSize alignment)

section Create

variable {kind : BackendKind} {blockSize alignment : Nat} {b : Block} {s s' : AddressSpace}

theorem create_slot_made {b : SlotBlock}
    (h : SlotBlock.create blockSize alignment s = (.ok b, s')) :
    Made .slot blockSize alignment s (.slot b) s' := by
  have hal : b.alignment = max alignment 4 := SlotBlock.create_alignment h
  rcases SlotBlock.create_cases s blockSize alignment with
    ⟨e, t, hrun, -⟩ | ⟨base, hpolicy, hbuffer, hpower, -, c, hcarved, hrun⟩
  · rw [h] at hrun
    cases hrun
  rw [h] at hrun
  cases hrun
  have hmade : c.block.buffer = SlotBlock.sitedBuffer blockSize alignment base :=
    hcarved ▸ (SlotBlock.carved_block ..).1
  have hround : max alignment 4 ∣ wrap (roundUp blockSize (max alignment 4)) :=
    dvd_wrap hpower (dvd_roundUp ..)
  have hsize : (slot c.block).memorySize = wrap (roundUp blockSize (max alignment 4)) := by
    rw [memorySize, Block.buffer, hmade]
    exact Nat.div_mul_cancel (Nat.dvd_trans
      (SlotBlock.four_dvd_of_powerOfTwo hpower (Nat.le_max_right ..)) hround)
  refine ⟨?_, rfl, fun hs => ⟨by rw [hmade]; rfl, by rwa [hal], ?_, ?_⟩, ?_, ?_, ?_, hsize⟩
  · rw [region, Block.buffer, hmade]
    exact Buffer.extended _ (fun h => AddressSpace.overflows_of_overflowed h _) hbuffer hpolicy
  · rw [hal]
    exact Nat.le_max_right ..
  · rw [hal, hmade]
    exact Nat.dvd_trans (dvd_max_sixteen hpower (by decide)) (hs _ _ _ hbuffer hpolicy)
  · rw [Block.buffer, hmade]
    exact Nat.succ_pos 3
  · rw [Whole, hsize, Block.alignment, hal]
    exact hround
  · rw [Block.alignment, hal]
    exact Nat.le_max_left ..

theorem create_segment_made {b : SegmentBlock}
    (h : SegmentBlock.create blockSize alignment s = (.ok b, s')) :
    Made .segment blockSize alignment s (.segment b) s' := by
  rcases SegmentBlock.create_granted s blockSize alignment with
    ⟨e, t, hrun, -⟩ | ⟨base, hpolicy, hbuffer, hpower, -, hrun⟩
  · rw [h] at hrun
    cases hrun
  rw [h] at hrun
  cases hrun
  let b := SegmentBlock.sited blockSize alignment base
  have hsize : (segment b).memorySize = b.buffer.len := Nat.mul_one _
  refine ⟨?_, rfl, fun _ => trivial, Nat.one_pos, ?_, ?_, hsize⟩
  · exact Buffer.extended (b := b.buffer) _
      (fun h => AddressSpace.overflows_of_overflowed h _) hbuffer hpolicy
  · rw [Whole, hsize]
    exact SegmentBlock.sited_whole hpower blockSize base
  · exact Nat.le_trans (Nat.le_max_left ..)
      (Nat.le_of_eq (SegmentBlock.sited_alignment blockSize alignment base).symm)

theorem create_made (kind : BackendKind) (blockSize alignment : Nat) (s : AddressSpace) :
    (∃ e s', create kind blockSize alignment s = (.error e, s') ∧ s.Refused s') ∨
      ∃ b s', create kind blockSize alignment s = (.ok b, s') ∧
        Made kind blockSize alignment s b s' := by
  cases kind with
  | slot =>
      rcases SlotBlock.create_cases s blockSize alignment with
        ⟨e, s', hrun, href, -⟩ | ⟨base, -, -, -, -, c, -, hrun⟩
      · exact .inl ⟨e, s', by rw [create, Obtain.map_apply, hrun], href⟩
      · exact .inr ⟨_, _, by rw [create, Obtain.map_apply, hrun], create_slot_made hrun⟩
  | segment =>
      rcases SegmentBlock.create_granted s blockSize alignment with
        ⟨e, s', hrun, href, -⟩ | ⟨base, -, -, -, -, hrun⟩
      · exact .inl ⟨e, s', by rw [create, Obtain.map_apply, hrun], href⟩
      · exact .inr ⟨_, _, by rw [create, Obtain.map_apply, hrun], create_segment_made hrun⟩

theorem create_refused {e : HeapError} (h : create kind blockSize alignment s = (.error e, s')) :
    s.Refused s' := by
  rcases create_made kind blockSize alignment s with ⟨e, t, hrun, href⟩ | ⟨b, t, hrun, -⟩
  · rw [h] at hrun
    cases hrun
    exact href
  · rw [h] at hrun
    cases hrun

theorem made_of_create (h : create kind blockSize alignment s = (.ok b, s')) :
    Made kind blockSize alignment s b s' := by
  rcases create_made kind blockSize alignment s with ⟨e, t, hrun, -⟩ | ⟨b, t, hrun, hmade⟩
  · rw [h] at hrun
    cases hrun
  · rw [h] at hrun
    cases hrun
    exact hmade

end Create

/-- What a call leaves of a block and of the memory, whatever that held. -/
structure Stays (b : Block) (m : Memory) (b' : Block) (m' : Memory) : Prop extends b.Like b' where
  sited : b.Sited → b'.Sited
  confines : b.Sited → b.region.Confines m m'

theorem stays_slot {α : Type} {x : SlotStep α} (hx : x.Stays) (b : SlotBlock) (m : Memory) :
    (slot b).Stays m (.slot (x ⟨b, m⟩).2.block) (x ⟨b, m⟩).2.memory := by
  have hbuffer := hx.buffer ⟨b, m⟩
  have halignment := hx.alignment ⟨b, m⟩
  refine ⟨⟨hbuffer, halignment⟩, fun hb => ?_, (hx.confined ⟨b, m⟩).confines⟩
  obtain ⟨hrecord, hpower, hfour, hbase⟩ := hb
  simp only at hbuffer halignment
  rw [← hbuffer] at hrecord hbase
  rw [← halignment] at hpower hfour hbase
  exact ⟨hrecord, hpower, hfour, hbase⟩

theorem stays_segment {b b' : SegmentBlock} (hb : b.Like b') (m : Memory) :
    (segment b).Stays m (.segment b') m :=
  ⟨⟨hb.buffer, hb.alignment⟩, id, fun _ _ _ => rfl⟩

theorem allocate_stays (b : Block) (size : Nat) (s : AddressSpace) : ∃ answer b' m,
    b.allocate size s = ((answer, b'), { s with memory := m }) ∧ b.Stays s.memory b' m := by
  cases b with
  | slot b => exact ⟨_, _, _, rfl, stays_slot (SlotStep.stays_allocate size) b s.memory⟩
  | segment b =>
      refine ⟨_, _, s.memory, rfl, stays_segment ?_ s.memory⟩
      show b.Like (b.allocate size).2
      rw [SegmentBlock.allocate]
      split
      · exact ⟨rfl, rfl⟩
      · rename_i hreserve
        rw [Segments.reserve] at hreserve
        split at hreserve
        · cases hreserve
        · cases hreserve
          exact ⟨rfl, rfl⟩

theorem deallocate_stays (b : Block) (address size : Nat) (s : AddressSpace) : ∃ answer b' m,
    b.deallocate address size s = ((answer, b'), { s with memory := m }) ∧
      b.Stays s.memory b' m := by
  cases b with
  | slot b => exact ⟨_, _, _, rfl, stays_slot (SlotStep.stays_deallocate size address) b s.memory⟩
  | segment b =>
      simp only [Block.deallocate]
      cases hrun : b.deallocate address size with
      | error e => exact ⟨_, _, s.memory, rfl, stays_segment ⟨rfl, rfl⟩ s.memory⟩
      | ok b' =>
          refine ⟨_, _, s.memory, rfl, stays_segment ?_ s.memory⟩
          rw [SegmentBlock.deallocate] at hrun
          split at hrun
          · cases hrun
          · split at hrun
            · cases hrun
            · cases hrun
            · rename_i hrelease
              cases hrun
              rw [Segments.release_eq_released] at hrelease
              rw [hrelease.2]
              exact ⟨rfl, rfl⟩

end Block

namespace Pool

/-- What a call can do to the blocks of a pool and to the space, whatever the memory holds. -/
inductive Move : Pool × AddressSpace → Pool × AddressSpace → Prop where
  | revise {p : Pool} {s : AddressSpace} {base : Nat} {b b' : Block} (m : Memory)
      (hfind : p.blocks.find? base = some b) (hbuffer : b'.buffer = b.buffer) :
      Move (p, s) ({ p with blocks := p.blocks.insert base b' }, { s with memory := m })
  | aim {p : Pool} {s : AddressSpace} {base : Nat} {b : Block}
      (hfind : p.blocks.find? base = some b) : Move (p, s) ({ p with cached := some base }, s)
  | refuse {p : Pool} {s s' : AddressSpace} (hrefused : s.Refused s') : Move (p, s) (p, s')
  | grow {p : Pool} {s s' : AddressSpace} {b b' : Block} (size : Nat) (m : Memory)
      (hcreate : Block.create p.backend (p.newBlockSize size) p.alignment s = (.ok b, s'))
      (hbuffer : b'.buffer = b.buffer) :
      Move (p, s) ({ p with blocks := p.blocks.insert b'.base b', cached := some b'.base },
        { s' with memory := m })
  | waste {p : Pool} {s s' : AddressSpace} {b b' : Block} (size : Nat) (m : Memory)
      (hcreate : Block.create p.backend (p.newBlockSize size) p.alignment s = (.ok b, s'))
      (hbuffer : b'.buffer = b.buffer) :
      Move (p, s) (p, (b'.giveBack { s' with memory := m }).2)
  | sweep (p : Pool) (s : AddressSpace) : Move (p, s) ((p.reclaim s).1.2, (p.reclaim s).2)

abbrev Moves : Pool × AddressSpace → Pool × AddressSpace → Prop := Relation.ReflTransGen Move

/-- A pool without its blocks: its settings. -/
def emptied (p : Pool) : Pool := { p with blocks := .empty, cached := none }

theorem emptied_eq_of_moves {x y : Pool × AddressSpace} (h : Moves x y) :
    y.1.emptied = x.1.emptied := by
  induction h with
  | refl => rfl
  | tail _ hmove ih =>
      refine .trans ?_ ih
      cases hmove <;> rfl

variable {p p' : Pool} {s s' : AddressSpace} {size address : Nat} {candidates : List Nat}

/-- A request to one block: the pool does not have it, or it alone changes. -/
theorem allocateIn_eq (p : Pool) (base size : Nat) (s : AddressSpace) :
    (p.blocks.find? base = none ∧ p.allocateIn base size s = ((.ok none, p), s)) ∨
      ∃ b answer b' m, p.blocks.find? base = some b ∧ b.Stays s.memory b' m ∧
        p.allocateIn base size s =
          ((answer, { p with blocks := p.blocks.insert base b' }), { s with memory := m }) := by
  cases hb : p.blocks.find? base with
  | none => exact .inl ⟨rfl, by rw [allocateIn, hb]; rfl⟩
  | some b =>
      obtain ⟨answer, b', m, hrun, hstays⟩ := b.allocate_stays size s
      refine .inr ⟨b, answer, b', m, rfl, hstays, ?_⟩
      simp only [allocateIn, hb, bind, StateT.bind, hrun]
      rfl

/-- A new block is refused, made for nothing or recorded. -/
theorem grow_eq (p : Pool) (size : Nat) (s : AddressSpace) :
    (∃ e s', Block.create p.backend (p.newBlockSize size) p.alignment s = (.error e, s') ∧
        p.grow size s = ((.error e, p), s')) ∨
      ∃ b s' b' m, Block.create p.backend (p.newBlockSize size) p.alignment s = (.ok b, s') ∧
        b.Stays s'.memory b' m ∧
        ((∃ e, p.grow size s =
            ((.error (.corruption e), p), (b'.giveBack { s' with memory := m }).2)) ∨
          ∃ answer, p.grow size s = ((.ok answer,
            { p with blocks := p.blocks.insert b'.base b', cached := some b'.base }),
            { s' with memory := m })) := by
  rcases hcreate : Block.create p.backend (p.newBlockSize size) p.alignment s with ⟨e | b, t⟩
  · refine .inl ⟨e, t, rfl, ?_⟩
    simp only [grow, ExceptT.run, bind, StateT.bind, hcreate]
    rfl
  · obtain ⟨result, b', m, hrun, hstays⟩ := b.allocate_stays size t
    refine .inr ⟨b, t, b', m, rfl, hstays, ?_⟩
    simp only [grow, ExceptT.run, bind, StateT.bind, hcreate, hrun]
    cases result with
    | error e => exact .inl ⟨e, rfl⟩
    | ok answer => exact .inr ⟨answer, rfl⟩

/-- A release: no block owns the address, or the owner alone changes and is named by the cache where
it may serve the pool. -/
theorem deallocate_eq (p : Pool) (address size : Nat) (s : AddressSpace) :
    (p.owner? address = none ∧ p.deallocate address size s = ((.ok false, p), s)) ∨
      ∃ base b answer b' m cached, p.owner? address = some (base, b) ∧
        p.blocks.find? base = some b ∧
        b.deallocate address size s = ((answer, b'), { s with memory := m }) ∧
        b.Stays s.memory b' m ∧
        p.deallocate address size s = ((answer.map fun _ => true,
          { p with blocks := p.blocks.insert base b', cached }), { s with memory := m }) ∧
        (cached = p.cached ∨ answer = .ok () ∧ cached = some base ∧ p.alignment ≤ b'.alignment) := by
  cases howner : p.owner? address with
  | none => exact .inl ⟨rfl, by rw [deallocate, howner]; rfl⟩
  | some x =>
      obtain ⟨base, b⟩ := x
      have hb : p.blocks.find? base = some b :=
        (SortedMap.below?_eq_some (Option.filter_eq_some_iff.1 howner).1).1
      obtain ⟨answer, b', m, hrun, hstays⟩ := b.deallocate_stays address size s
      cases answer with
      | error e =>
          refine .inr ⟨base, b, _, b', m, p.cached, rfl, hb, hrun, hstays, ?_, .inl rfl⟩
          simp only [deallocate, howner, bind, StateT.bind, hrun]
          rfl
      | ok u =>
          refine .inr ⟨base, b, _, b', m, if p.alignment ≤ b'.alignment then some base else p.cached,
            rfl, hb, hrun, hstays, ?_, ?_⟩
          · simp only [deallocate, howner, bind, StateT.bind, hrun]
            rfl
          · -- A block made for a smaller alignment takes its memory back and is not cached.
            split
            · exact .inr ⟨rfl, rfl, ‹_›⟩
            · exact .inl rfl

theorem allocateIn_moves {base : Nat} {answer : Except Corruption (Option Nat)}
    (h : p.allocateIn base size s = ((answer, p'), s')) : Moves (p, s) (p', s') ∧
      (answer = .ok none ∨ ∃ b, p'.blocks.find? base = some b) := by
  rcases p.allocateIn_eq base size s with ⟨-, hrun⟩ | ⟨b, answer, b', m, hb, hstays, hrun⟩
  · rw [hrun] at h
    cases h
    exact ⟨.refl, .inl rfl⟩
  · rw [hrun] at h
    cases h
    exact ⟨.single (.revise m hb hstays.buffer), .inr ⟨b', SortedMap.find?_insert_self ..⟩⟩

theorem allocateAmong_moves {answer : Except Corruption (Option Nat)}
    (h : allocateAmong size candidates p s = ((answer, p'), s')) : Moves (p, s) (p', s') := by
  induction candidates generalizing p s with
  | nil =>
      cases h
      exact .refl
  | cons base rest ih =>
      rcases hrun : p.allocateIn base size s with ⟨⟨first, q⟩, t⟩
      obtain ⟨hmoves, hfind⟩ := allocateIn_moves hrun
      simp only [allocateAmong, bind, StateT.bind, hrun] at h
      rcases first with e | _ | address
      · cases h
        exact hmoves
      · exact hmoves.trans (ih h)
      · cases h
        -- A block that served the request becomes the one tried first.
        rcases hfind with hnone | ⟨b, hb⟩
        · cases hnone
        · exact hmoves.tail (.aim hb)

theorem grow_moves {answer : Except HeapError (Option Nat)}
    (h : p.grow size s = ((answer, p'), s')) : Moves (p, s) (p', s') := by
  rcases p.grow_eq size s with
    ⟨e, t, hcreate, hrun⟩ | ⟨b, t, b', m, hcreate, hstays, ⟨e, hrun⟩ | ⟨address, hrun⟩⟩
  · rw [hrun] at h
    cases h
    exact .single (.refuse (Block.create_refused hcreate))
  · rw [hrun] at h
    cases h
    exact .single (.waste size m hcreate hstays.buffer)
  · rw [hrun] at h
    cases h
    exact .single (.grow size m hcreate hstays.buffer)

theorem allocate_moves {answer : Except HeapError (Option Nat)}
    (h : p.allocate size s = ((answer, p'), s')) : Moves (p, s) (p', s') := by
  rw [allocate] at h
  split at h
  · cases h
    exact .refl
  · rcases hrun : allocateAmong size p.candidates p s with ⟨⟨first, q⟩, t⟩
    have hmoves := allocateAmong_moves hrun
    simp only [bind, StateT.bind, hrun] at h
    rcases first with e | _ | address
    · cases h
      exact hmoves
    · exact hmoves.trans (grow_moves h)
    · cases h
      exact hmoves

theorem deallocate_moves {answer : Except Corruption Bool}
    (h : p.deallocate address size s = ((answer, p'), s')) : Moves (p, s) (p', s') := by
  rcases p.deallocate_eq address size s with
    ⟨-, hrun⟩ | ⟨base, b, result, b', m, cached, -, hb, -, hstays, hrun, hcached⟩
  · rw [hrun] at h
    cases h
    exact .refl
  · rw [hrun] at h
    cases h
    have hrevised : Moves (p, s)
        ({ p with blocks := p.blocks.insert base b' }, { s with memory := m }) :=
      .single (.revise m hb hstays.buffer)
    rcases hcached with rfl | ⟨-, rfl, -⟩
    · exact hrevised
    · exact hrevised.tail (.aim (SortedMap.find?_insert_self ..))

theorem deallocate_false (h : p.deallocate address size s = ((.ok false, p'), s')) :
    p' = p ∧ s' = s := by
  rcases p.deallocate_eq address size s with
    ⟨-, hrun⟩ | ⟨base, b, result, b', m, cached, -, -, -, -, hrun, -⟩
  · rw [hrun] at h
    cases h
    exact ⟨rfl, rfl⟩
  · rw [hrun] at h
    cases result <;> cases h

theorem reclaim_moves {released : Nat} (h : p.reclaim s = ((released, p'), s')) :
    Moves (p, s) (p', s') := by
  have hsweep := Move.sweep p s
  rw [h] at hsweep
  exact .single hsweep

end Pool

namespace LargeAllocations

variable {l l' : LargeAllocations} {s s' : AddressSpace} {size alignment : Nat}

theorem allocate_refused {e : HeapError} (h : l.allocate size alignment s = (.error e, s')) :
    s.Refused s' := by
  rw [allocate, Obtain.bind_apply] at h
  rcases Buffer.zeroed_cases s 1 size alignment with
    ⟨e', t, hrun, href, -⟩ | ⟨base, -, -, -, hrun⟩
  · rw [hrun] at h
    cases h
    exact href
  · rw [hrun] at h
    cases h

theorem allocate_extended {address : Nat}
    (h : l.allocate size alignment s = (.ok (address, l'), s')) :
    ∃ a : LargeAllocation, a.buffer.base = address ∧ a.buffer.record = 1 ∧
      a.requested = a.buffer.len ∧ s.Extended s' a.buffer.region ∧
      l' = ⟨l.entries.insert address a, l.totalBytes + a.memorySize⟩ := by
  rw [allocate, Obtain.bind_apply] at h
  rcases Buffer.zeroed_cases s 1 size alignment with
    ⟨e, t, hrun, -⟩ | ⟨base, hpolicy, hpower, -, hrun⟩
  · rw [hrun] at h
    cases h
  · rw [hrun] at h
    cases h
    exact ⟨⟨⟨base, size, 1, max alignment 1⟩, size⟩, rfl, rfl, rfl,
      Buffer.extended (b := ⟨base, size, 1, max alignment 1⟩) _ id hpower hpolicy, rfl⟩

theorem release_eq {address : Nat} {a : LargeAllocation} (h : l.entries.find? address = some a) :
    l.release address s = ((some a, ⟨l.entries.erase address, l.totalBytes - a.memorySize⟩),
      (a.buffer.giveBack s).2) := by
  rw [release, h]
  rfl

end LargeAllocations

namespace Level

/-- What a request for other settings leaves: it is refused, and then makes the pool at most, or is
recorded. -/
inductive Changed (l : Level) (a : Affinity) : Except HeapError Unit → Level → Prop where
  | refused (e : HeapError) : Changed l a (.error e) l
  | made (e : HeapError) : Changed l a (.error e) (l.withPool (l.poolOf a))
  | recorded (p : Pool) (q : PoolConfig) (haffinity : p.affinity = a)
      (hblocks : p.blocks = (l.poolOf a).blocks) (hsettings : q.affinity = a)
      (hvalid : l.config.validate = .ok () → q.validate = .ok ())
      (hsame : (l.poolOf a).emptied = Pool.ofConfig (l.config.pool a) l.config.backend →
        p.emptied = Pool.ofConfig q l.config.backend) :
      Changed l a (.ok ()) { l.withPool p with config := l.config.record q }

/-- What a call can do to a level and to the space, whatever the memory holds. -/
inductive Move : Level × AddressSpace → Level × AddressSpace → Prop where
  | pool {l : Level} {s s' : AddressSpace} {p : Pool} (affinity : Affinity)
      (hmoves : Pool.Moves (l.poolOf affinity, s) (p, s')) : Move (l, s) (l.withPool p, s')
  | refuse {l : Level} {s s' : AddressSpace} (hrefused : s.Refused s') : Move (l, s) (l, s')
  | enlarge {l : Level} {s s' : AddressSpace} {size alignment address : Nat}
      {large : LargeAllocations}
      (hrun : l.large.allocate size alignment s = (.ok (address, large), s')) :
      Move (l, s) ({ l with large }, s')
  | release (l : Level) (s : AddressSpace) (address : Nat) :
      Move (l, s) ({ l with large := (l.large.release address s).1.2 },
        (l.large.release address s).2)
  | change {l l' : Level} {s : AddressSpace} {answer : Except HeapError Unit} (affinity : Affinity)
      (hchanged : l.Changed affinity answer l') : Move (l, s) (l', s)

abbrev Moves : Level × AddressSpace → Level × AddressSpace → Prop := Relation.ReflTransGen Move

variable {l l' : Level} {p : Pool} {s s' : AddressSpace} {size address : Nat}

namespace Indexed

theorem move {x y : Level × AddressSpace} (hx : x.1.Indexed) (h : Move x y) : y.1.Indexed := by
  cases h with
  | pool affinity hmoves => exact hx.withPool _
  | refuse hrefused => exact hx
  | enlarge hrun => exact hx
  | release l s address => exact hx
  | change affinity hchanged =>
      cases hchanged with
      | refused e => exact hx
      | made e => exact hx.withPool _
      | recorded p q _ _ _ _ _ => exact hx.withPool p

end Indexed

theorem setBlockSize_changed (hl : l.Indexed) (a : Affinity) (blockSize : Nat) :
    l.Changed a (l.setBlockSize a blockSize).1 (l.setBlockSize a blockSize).2 := by
  rw [setBlockSize, Pool.setBlockSize]
  by_cases hzero : blockSize = 0
  · rw [if_pos hzero]
    exact .made _
  · rw [if_neg hzero]
    refine .recorded _ _ (hl.poolOf_affinity a) rfl (l.config.pool_affinity a) (fun hvalid => ?_)
      fun hsame => ?_
    · have hpool := PoolConfig.validate_iff.1 (Config.pool_validate hvalid a)
      exact PoolConfig.validate_iff.2 ⟨hpool.1, hzero⟩
    · exact (congrArg (fun p : Pool => { p with blockSize }) hsame :)

theorem setAlignment_changed (hl : l.Indexed) (a : Affinity) (alignment : Nat) :
    l.Changed a (l.setAlignment a alignment).1 (l.setAlignment a alignment).2 := by
  rw [setAlignment]
  rcases (l.poolOf a).setAlignment_eq alignment with ⟨e, herr⟩ | ⟨hpower, cached, hok⟩
  · rw [herr]
    exact .made e
  · rw [hok]
    refine .recorded _ _ (hl.poolOf_affinity a) rfl (l.config.pool_affinity a) (fun hvalid => ?_)
      fun hsame => ?_
    · have hpool := PoolConfig.validate_iff.1 (Config.pool_validate hvalid a)
      exact PoolConfig.validate_iff.2 ⟨hpower, hpool.2⟩
    · exact (congrArg (fun p : Pool => { p with alignment }) hsame :)

theorem configurePool_changed (hl : l.Indexed) (settings : PoolConfig) :
    l.Changed settings.affinity (l.configurePool settings).1 (l.configurePool settings).2 := by
  have haffinity := hl.poolOf_affinity settings.affinity
  rw [configurePool]
  cases hfind : l.pools.find? settings.affinity.index with
  | some p =>
      rw [poolOf_of_find? hfind] at haffinity
      simp only
      rcases p.reconfigure_eq settings l.config.backend with ⟨e, herr⟩ | ⟨hvalid, cached, hok⟩
      · rw [herr]
        exact .refused e
      · rw [hok]
        refine .recorded _ _ haffinity ?_ rfl (fun _ => hvalid) fun _ => ?_
        · rw [poolOf_of_find? hfind]
        · simp only [Pool.emptied, Pool.ofConfig, haffinity]
  | none =>
      simp only
      rcases Pool.new_cases settings l.config.backend with ⟨e, herr⟩ | ⟨hok, hvalid⟩
      · rw [herr]
        exact .refused e
      · rw [hok]
        refine .recorded _ _ rfl ?_ rfl (fun _ => hvalid) fun _ => rfl
        rw [poolOf, hfind]
        rfl

theorem allocate_moves {affinity : Affinity} {answer : Except Corruption (Option Nat)}
    (h : l.allocate size affinity s = ((answer, l'), s')) : Moves (l, s) (l', s') := by
  rcases hrun : (l.poolOf affinity).allocate size s with ⟨⟨first, p⟩, t⟩
  have hpool : Moves (l, s) (l.withPool p, t) :=
    .single (.pool affinity (Pool.allocate_moves hrun))
  have hlarge : (l.withPool p).allocateLarge size p.alignment t = ((answer, l'), s') →
      Moves (l, s) (l', s') := by
    intro h
    rcases hobtain : (l.withPool p).large.allocate size p.alignment t with ⟨e | x, t'⟩
    · simp only [allocateLarge, ExceptT.run, bind, StateT.bind, hobtain] at h
      cases h
      exact hpool.tail (.refuse (LargeAllocations.allocate_refused hobtain))
    · simp only [allocateLarge, ExceptT.run, bind, StateT.bind, hobtain] at h
      cases h
      exact hpool.tail (.enlarge hobtain)
  simp only [allocate, bind, StateT.bind, hrun] at h
  rcases first with e | _ | address
  · cases e with
    | corruption e =>
        cases h
        exact hpool
    | _ => exact hlarge h
  · exact hlarge h
  · cases h
    exact hpool

theorem deallocateAmong_moves {pools : List Pool} {answer : Except Corruption Bool}
    (hl : l.Indexed) (hpools : ∀ p ∈ pools, p ∈ l.pools.values)
    (h : deallocateAmong address size pools l s = ((answer, l'), s')) : Moves (l, s) (l', s') := by
  induction pools with
  | nil =>
      cases h
      exact .refl
  | cons p rest ih =>
      have hpool := hl.poolOf_of_mem (hpools p (List.mem_cons_self ..))
      rcases hrun : p.deallocate address size s with ⟨⟨first, q⟩, t⟩
      have hmove : Moves (l, s) (l.withPool q, t) := by
        refine .single (.pool p.affinity ?_)
        rw [hpool]
        exact Pool.deallocate_moves hrun
      simp only [deallocateAmong, bind, StateT.bind, hrun] at h
      rcases first with e | _ | _
      · cases h
        exact hmove
      · obtain ⟨rfl, rfl⟩ := Pool.deallocate_false hrun
        exact ih (fun q hq => hpools q (List.mem_cons_of_mem _ hq)) h
      · cases h
        exact hmove

theorem deallocate_moves {answer : Except Corruption Bool} (hl : l.Indexed)
    (h : l.deallocate address size s = ((answer, l'), s')) : Moves (l, s) (l', s') := by
  rcases hrun : deallocateAmong address size l.pools.values l s with ⟨⟨first, k⟩, t⟩
  have hmoves := deallocateAmong_moves hl (fun _ h => h) hrun
  simp only [deallocate, bind, StateT.bind, hrun] at h
  rcases first with e | _ | _
  · cases h
    exact hmoves
  · cases h
    exact hmoves.tail (.release k t address)
  · cases h
    exact hmoves

theorem reclaimAmong_moves {pools : List Pool} {released : Nat}
    (hpools : ∀ p ∈ pools, l.pools.find? p.affinity.index = some p)
    (hdistinct : pools.Pairwise fun p q => p.affinity ≠ q.affinity)
    (h : reclaimAmong pools l s = ((released, l'), s')) : Moves (l, s) (l', s') := by
  induction pools generalizing l s released with
  | nil =>
      cases h
      exact .refl
  | cons p rest ih =>
      obtain ⟨hp, hdistinct⟩ := List.pairwise_cons.1 hdistinct
      have hpool := poolOf_of_find? (hpools p (List.mem_cons_self ..))
      rcases hrun : p.reclaim s with ⟨⟨first, q⟩, t⟩
      have hmoves := Pool.reclaim_moves hrun
      have hq : q.affinity = p.affinity :=
        (congrArg Pool.affinity (Pool.emptied_eq_of_moves hmoves) :)
      rcases hrest : reclaimAmong rest (l.withPool q) t with ⟨⟨more, k⟩, t'⟩
      simp only [reclaimAmong, bind, StateT.bind, hrun, hrest] at h
      cases h
      have hmove : Move (l, s) (l.withPool q, t) := by
        refine .pool p.affinity ?_
        rw [hpool]
        exact hmoves
      refine .head hmove (ih (fun r hr => ?_) hdistinct hrest)
      rw [find?_withPool, if_neg fun heq => ?_]
      · exact hpools r (List.mem_cons_of_mem _ hr)
      · exact hp r hr (hq.symm.trans (Affinity.index_injective heq))

theorem reclaim_moves {released : Nat} (hl : l.Indexed)
    (h : l.reclaim s = ((released, l'), s')) : Moves (l, s) (l', s') :=
  reclaimAmong_moves (fun _ => SortedMap.Keyed.find?_of_mem hl) hl.distinct h

end Level

end AffinityHeap
