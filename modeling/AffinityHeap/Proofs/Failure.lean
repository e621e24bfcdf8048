import AffinityHeap.Proofs.Growth
import AffinityHeap.Proofs.Mirror
import AffinityHeap.Proofs.Quiet

namespace AffinityHeap

namespace AddressSpace

variable {s s' : AddressSpace} {size alignment : Nat}

/-- A region that no layout allows is not asked for; any other is turned down by the system. -/
def Denies (s : AddressSpace) (size alignment : Nat) (s' : AddressSpace) : Prop :=
  0x8000000000000000 - alignment < size ∧ s' = s ∨ request size alignment s = (none, s')

theorem Denies.eq (h : s.Denies size alignment s') : ∃ asked, s' = { s with asked } := by
  rcases h with ⟨-, rfl⟩ | h
  · exact ⟨s'.asked, rfl⟩
  · simp only [request] at h
    split at h
    · cases h
    · cases h
      exact ⟨s.asked + 1, rfl⟩

end AddressSpace

theorem Buffer.zeroed_denied {s s' : AddressSpace} {len alignment : Nat} {e : HeapError}
    (hpower : IsPowerOfTwo alignment) (h : zeroed 1 len alignment s = (.error e, s')) :
    s.Denies (max len 1) alignment s' := by
  have hone : max alignment 1 = alignment := Nat.max_eq_left hpower.pos
  unfold zeroed at h
  by_cases hlarge : UInt64.size ≤ 1 * max len 1
  · cases (Obtain.guard_pos hlarge).symm.trans h
    refine .inl ⟨?_, rfl⟩
    simp only [UInt64.size] at hlarge
    omega
  by_cases hlayout : ¬ IsPowerOfTwo (max alignment 1) ∨
      0x8000000000000000 - max alignment 1 < 1 * max len 1
  · cases ((Obtain.guard_neg hlarge).trans (Obtain.guard_pos hlayout)).symm.trans h
    rw [hone, Nat.one_mul] at hlayout
    exact .inl ⟨hlayout.resolve_left fun hnot => hnot hpower, rfl⟩
  simp only [if_neg hlarge, if_neg hlayout, Obtain.bind_apply, Obtain.lift_apply] at h
  rw [hone, Nat.one_mul] at h
  rcases hrun : AddressSpace.request (max len 1) alignment s with ⟨_ | base, t⟩
  · rw [hrun] at h
    cases h
    exact .inr hrun
  · rw [hrun] at h
    cases h

theorem LargeAllocations.allocate_denied {l : LargeAllocations} {s s' : AddressSpace}
    {size alignment : Nat} {e : HeapError} (hpower : IsPowerOfTwo alignment)
    (h : l.allocate size alignment s = (.error e, s')) : s.Denies (max size 1) alignment s' := by
  rw [allocate, Obtain.bind_apply] at h
  rcases hrun : Buffer.zeroed 1 size alignment s with ⟨e' | buffer, t⟩
  · rw [hrun] at h
    cases h
    exact Buffer.zeroed_denied hpower hrun
  · rw [hrun] at h
    cases h

namespace Level

variable {l l' : Level} {s s' : AddressSpace} {live : List Grant} {C : List Holder} {size : Nat}
  {a : Affinity}

/-- The pool has a new block, which does not serve the request that it was made for. -/
def Hollowed (l : Level) (a : Affinity) (l' : Level) : Prop :=
  ∃ b : Block, (l.poolOf a).blocks.find? b.base = none ∧
    ((l.poolOf a).blockSize < UInt64.size → b.memorySize = 0) ∧
    l' = l.withPool { l.poolOf a with
      blocks := (l.poolOf a).blocks.insert b.base b
      cached := some b.base }

/-- A request that comes to nothing: the system turns it down after the pool did, and all that is
left of it is an empty pool at most, unless a new block for it was rounded up past a word. -/
structure Fails (l : Level) (size : Nat) (a : Affinity) (s : AddressSpace) (l' : Level)
    (s' : AddressSpace) : Prop where
  denied : ((l.poolOf a).allocate size s).2.Denies (max size 1) (l.poolOf a).alignment s'
  clean : ¬ (l.poolOf a).Outsized size → l.Unchanged a l' ∧ ∃ asked, s' = { s with asked }
  changes : l.Unchanged a l' ∨ l.Hollowed a l'

theorem allocateLarge_fails {p : Pool} (hpower : IsPowerOfTwo p.alignment)
    (h : (l.withPool p).allocateLarge size p.alignment s = ((.ok none, l'), s')) :
    s.Denies (max size 1) p.alignment s' ∧ l' = l.withPool p := by
  rcases hrun : (l.withPool p).large.allocate size p.alignment s with ⟨e | x, u⟩
  · simp only [allocateLarge, ExceptT.run, bind, StateT.bind, hrun] at h
    cases h
    exact ⟨LargeAllocations.allocate_denied hpower hrun, rfl⟩
  · simp only [allocateLarge, ExceptT.run, bind, StateT.bind, hrun] at h
    cases h

theorem allocate_fails (hl : l.Proper) (ho : Owned (l.holders ++ C) s live)
    (h : l.allocate size a s = ((.ok none, l'), s')) : l.Fails size a s l' s' := by
  have hpool := owned_poolOf ho a
  have hp := (hl.fit a).1
  have hunchanged : l.Unchanged a (l.withPool (l.poolOf a)) := Indexed.unchanged hl.indexed a
  have hends := Pool.allocate_ends hp hpool size
  generalize hrun : (l.poolOf a).allocate size s = run at hends
  simp only [allocate, bind, StateT.bind, hrun] at h
  cases hends with
  | declined hlarge =>
      obtain ⟨hdenied, rfl⟩ := allocateLarge_fails hp.power h
      refine ⟨by rwa [hrun], fun _ => ⟨hunchanged, hdenied.eq⟩, .inl hunchanged⟩
  | @refused e t hsize hfull hcreate =>
      have hlarge : (l.withPool (l.poolOf a)).allocateLarge size (l.poolOf a).alignment t =
          ((.ok none, l'), s') := by
        cases e with
        -- Corruption is the one error that the level does not answer with a region of its own.
        | corruption c => cases h
        | _ => exact h
      obtain ⟨hdenied, rfl⟩ := allocateLarge_fails hp.power hlarge
      refine ⟨by rwa [hrun], fun hfits => ⟨hunchanged, ?_⟩, .inl hunchanged⟩
      have hflag := Block.create_overflowed hp.power (l.poolOf a).backend
        ((l.poolOf a).newBlockSize size) s
      rw [hcreate, AddressSpace.overflows_of_lt (Nat.not_le.1 hfits)] at hflag
      obtain ⟨asked, overflowed, -, rfl⟩ := (Block.create_refused hcreate).eq
      obtain rfl : overflowed = s.overflowed := hflag
      obtain ⟨asked', rfl⟩ := hdenied.eq
      exact ⟨asked', rfl⟩
  | reused => cases h
  | @grown answer b b' t m hsize hfull hcreate hfresh hserves hlike hserve =>
      cases answer with
      | some address => cases h
      | none =>
          obtain ⟨hout, rfl, rfl⟩ := hserves rfl
          obtain ⟨hdenied, rfl⟩ := allocateLarge_fails (p := { l.poolOf a with
            blocks := (l.poolOf a).blocks.insert b'.base b', cached := some b'.base }) hp.power h
          exact ⟨by rwa [hrun], fun hfits => absurd hout hfits,
            .inr ⟨b', hfresh, fun hp' => hout.memorySize_eq hp.power hp' hcreate, rfl⟩⟩

end Level

namespace HeapSession

variable {s : HeapSession}

/-- Every request is answered, and none comes to nothing but by the system; then it leaves nothing
behind as long as the bytes of a new block for it fit in a word. -/
def Yields (s : HeapSession) : Prop :=
  ∀ level b, s.allocator.inner level = some b → ∀ size affinity, ∃ answer b' space',
    b.allocate size affinity s.space = ((.ok answer, b'), space') ∧
      (answer = none → b.outer.Fails size affinity s.space b'.outer space' ∧ b'.nested = b.nested)

theorem Kept.yields (hk : s.Kept) : s.Yields := by
  intro level b hb size affinity
  obtain ⟨front, -, hc, -⟩ := hk.inner hb
  obtain ⟨hproper, howned⟩ := hc.middle
  obtain ⟨answer, l, space', hrun, -⟩ := hc.allocate size affinity
  refine ⟨answer, { b with outer := l }, space', ?_, ?_⟩
  · simp only [Allocator.allocate, bind, StateT.bind, hrun]
    rfl
  · rintro rfl
    exact ⟨Level.allocate_fails hproper howned hrun, rfl⟩

end HeapSession

end AffinityHeap
