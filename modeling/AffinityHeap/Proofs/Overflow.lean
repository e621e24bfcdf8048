import AffinityHeap.Proofs.Growth
import AffinityHeap.Proofs.HeapSession
import AffinityHeap.Proofs.Quiet

namespace AffinityHeap

/-- The numbers of 64 bits with a sign are below this one. -/
def signedLimit : Nat := 0x8000000000000000

section SignedLimit

variable {n unit alignment : Nat}

theorem roundUp_le_signedLimit (hunit : IsPowerOfTwo unit) (hle : unit ≤ signedLimit)
    (hn : n ≤ signedLimit) : roundUp n unit ≤ signedLimit :=
  roundUp_le_of_dvd hunit.pos hn (powerOfTwo_dvd hunit (isPowerOfTwo_iff.2 ⟨63, rfl⟩) hle)

theorem SegmentBlock.bytesFor_le_signedLimit (hpower : IsPowerOfTwo alignment)
    (hle : alignment ≤ signedLimit) (hn : n ≤ signedLimit) :
    bytesFor n alignment ≤ signedLimit :=
  roundUp_le_signedLimit (powerOfTwo_max hpower (isPowerOfTwo_iff.2 ⟨0, rfl⟩))
    (Nat.max_le.2 ⟨hle, by decide⟩) (Nat.max_le.2 ⟨hn, by decide⟩)

theorem Block.bytesFor_le_signedLimit (hpower : IsPowerOfTwo alignment)
    (hle : alignment ≤ signedLimit) (hn : n ≤ signedLimit) (kind : BackendKind) :
    bytesFor kind n alignment ≤ signedLimit := by
  cases kind with
  | slot =>
      exact roundUp_le_signedLimit (powerOfTwo_max hpower (isPowerOfTwo_iff.2 ⟨2, rfl⟩))
        (Nat.max_le.2 ⟨hle, by decide⟩) hn
  | segment =>
      exact SegmentBlock.bytesFor_le_signedLimit
        (powerOfTwo_max hpower (isPowerOfTwo_iff.2 ⟨0, rfl⟩)) (Nat.max_le.2 ⟨hle, by decide⟩) hn

end SignedLimit

namespace Pool

variable {p : Pool} {s : AddressSpace} {live : List Grant} {C : List Holder}

/-- A request needs a new block whose bytes do not fit in a word. -/
structure Outgrows (p : Pool) (size : Nat) (s : AddressSpace) : Prop where
  size_le : size ≤ p.maximumAllocationSize
  full : p.Full size s
  outsized : p.Outsized size

/-- A request overflows where it outgrows a word, and nowhere else. -/
theorem allocate_overflowed (hp : p.Proper) (ho : Owned (p.holders ++ C) s live) (size : Nat) :
    (p.allocate size s).2.overflowed = true ↔ s.overflowed = true ∨ p.Outgrows size s := by
  have hcreated : size ≤ p.maximumAllocationSize → p.Full size s → ∀ result s',
      Block.create p.backend (p.newBlockSize size) p.alignment s = (result, s') →
        (s'.overflowed = true ↔ s.overflowed = true ∨ p.Outgrows size s) := by
    intro hsize hfull result s' hcreate
    have hoverflowed := Block.create_overflowed hp.power p.backend (p.newBlockSize size) s
    rw [hcreate] at hoverflowed
    have houtgrows : p.Outgrows size s ↔ p.Outsized size := ⟨fun h => h.outsized, .mk hsize hfull⟩
    rw [hoverflowed, AddressSpace.overflows, houtgrows, Bool.or_eq_true, decide_eq_true_iff,
      Outsized]
  have hends := allocate_ends hp ho size
  generalize p.allocate size s = r at hends ⊢
  cases hends with
  | declined hlarge =>
      exact ⟨.inl, fun h => h.resolve_right fun h => Nat.not_le.2 hlarge h.size_le⟩
  | reused hsize hb hle _ hrun =>
      exact ⟨.inl, fun h => h.resolve_right fun h => h.full _ _ hb hle ⟨_, _, _, hrun⟩⟩
  | refused hsize hfull hcreate => exact hcreated hsize hfull _ _ hcreate
  | grown hsize hfull hcreate =>
      have hspace := hcreated hsize hfull _ _ hcreate
      exact hspace

/-- No block outgrows a word whose size and alignment are numbers with a sign. -/
theorem not_outgrows (hp : p.Proper) (hblock : p.blockSize ≤ signedLimit)
    (halignment : p.alignment ≤ signedLimit) (size : Nat) : ¬ p.Outgrows size s := by
  rintro ⟨hsize, -, houtsized⟩
  have hneeded : p.backend.blockSizeFor size p.alignment ≤ signedLimit := by
    have hlimit : size ≤ signedLimit := Nat.le_trans (hp.size_le hsize) (by decide)
    rw [maximumAllocationSize] at hsize
    cases hkind : p.backend with
    | slot =>
        rw [hkind] at hsize
        have hlt := (SlotGeometry.blockSizeFor_eq (hp.narrow hkind) hsize).2
        exact Nat.le_of_lt (Nat.lt_trans hlt (by decide))
    | segment =>
        exact Nat.le_trans (Nat.mod_le ..)
          (SegmentBlock.bytesFor_le_signedLimit hp.power halignment hlimit)
  have hbytes := Block.bytesFor_le_signedLimit hp.power halignment
    (Nat.max_le.2 ⟨hneeded, hblock⟩) p.backend
  exact absurd (Nat.le_trans houtsized hbytes) (by decide)

end Pool

/-- The call is an allocation that needs a block whose bytes do not fit in a word. -/
def AllocatorCall.Outgrows (a : Allocator) (s : AddressSpace) : AllocatorCall → Prop
  | allocate size affinity => (a.outer.poolOf affinity).Outgrows size s
  | _ => False

def HeapRequest.Outgrows (s : HeapSession) : HeapRequest → Prop
  | call level c => ∃ b, s.allocator.inner level = some b ∧ c.Outgrows b s.space
  | _ => False

namespace HeapSession

variable {build : Build} {s t : HeapSession} {r : HeapRequest} {requests : List HeapRequest}

/-- A request in a program that is built as it is. -/
def applyIn (build : Build) (s : HeapSession) (r : HeapRequest) : Except Panic HeapSession :=
  match s.apply r with
  | .ok t => if t.space.Runs build then .ok t else .error (.overflow "multiply")
  | .error e => .error (.corruption e)

def runIn (build : Build) : List HeapRequest → HeapSession → Except Panic HeapSession
  | [], s => .ok s
  | r :: rest, s =>
      match s.applyIn build r with
      | .ok s => runIn build rest s
      | .error p => .error p

/-- A run goes on to its end, or up to a request that outgrows a word if the build checks for it. -/
inductive Reaches (build : Build) (s : HeapSession) (requests : List HeapRequest)
    (t : HeapSession) : Prop where
  | finished (hrun : s.runIn build requests = .ok t)
  | stopped {front rest : List HeapRequest} {r : HeapRequest} (hchecked : build = .checked)
      (hsplit : requests = front ++ r :: rest) (hfront : s.runIn build front = .ok t)
      (houtgrows : r.Outgrows t) (hrun : s.runIn build requests = .error (.overflow "multiply"))

theorem serve_overflowed {level : Nat} {front : List Level}
    (hc : Chain (front ++ s.allocator.levels) s.space s.live) {c : AllocatorCall}
    (ht : s.serve level c = .ok t) :
    t.space.overflowed = true ↔ s.space.overflowed = true ∨ c.Outgrows s.allocator s.space := by
  cases c with
  | allocate size affinity =>
      obtain ⟨hproper, howned⟩ := hc.middle
      have hpool := Pool.allocate_overflowed (hproper.fit affinity).1
        (Level.owned_poolOf howned affinity) size
      rw [← s.allocator.allocate_overflowed size affinity s.space] at hpool
      rw [serve] at ht
      rcases hrun : s.allocator.allocate size affinity s.space with ⟨⟨e | answer, a⟩, space⟩ <;>
        rw [hrun] at ht hpool <;> cases ht
      exact hpool
  | release g =>
      have hquiet := s.allocator.deallocate_quiet g.address g.size s.space
      rw [serve] at ht
      rcases hrun : s.allocator.deallocate g.address g.size s.space with
        ⟨⟨e | _ | _, a⟩, space⟩ <;> rw [hrun] at ht hquiet <;> cases ht <;>
        exact hquiet ▸ (or_iff_left id).symm
  | reclaim =>
      cases ht
      exact s.allocator.reclaim_quiet s.space ▸ (or_iff_left id).symm
  | _ =>
      cases ht
      exact (or_iff_left id).symm

theorem Kept.apply_overflowed (hk : s.Kept) (ht : s.apply r = .ok t) :
    t.space.overflowed = true ↔ s.space.overflowed = true ∨ r.Outgrows s := by
  cases r with
  | call level c =>
      rw [HeapSession.apply] at ht
      cases hb : s.allocator.inner level with
      | none =>
          rw [hb] at ht
          cases ht
          refine (or_iff_left ?_).symm
          rintro ⟨b, hb', -⟩
          cases hb.symm.trans hb'
      | some b =>
          obtain ⟨front, rfl, hc, -⟩ := hk.inner hb
          have houtgrows : (HeapRequest.call front.length c).Outgrows s ↔ c.Outgrows b s.space := by
            refine ⟨?_, fun h => ⟨b, hb, h⟩⟩
            rintro ⟨b', hb', h⟩
            rwa [Option.some.inj (hb.symm.trans hb')]
          rw [houtgrows]
          rcases hserve : serve front.length { s with allocator := b } c with e | u <;>
            simp only [hb, hserve] at ht <;> cases ht
          have hserved := serve_overflowed hc hserve
          exact hserved
  | write g offset bytes =>
      cases ht
      exact (or_iff_left id).symm
  | wrap c =>
      rw [HeapSession.apply] at ht
      split at ht <;> cases ht <;> exact (or_iff_left id).symm

/-- A run of kept sessions reaches one that is kept too. -/
theorem Kept.reaches (hk : s.Kept) (hruns : s.space.Runs build) (hr : s.ProperRun requests) :
    ∃ t : HeapSession, t.Kept ∧ s.Reaches build requests t := by
  induction requests generalizing s with
  | nil => exact ⟨s, hk, .finished rfl⟩
  | cons r rest ih =>
      obtain ⟨s', happly, hk', -⟩ := hk.apply hr.1
      by_cases hruns' : s'.space.Runs build
      · have happlyIn : s.applyIn build r = .ok s' := by simp only [applyIn, happly, if_pos hruns']
        have hcons : ∀ requests, s.runIn build (r :: requests) = s'.runIn build requests :=
          fun requests => by simp only [runIn, happlyIn]
        obtain ⟨t, hkt, hreaches⟩ := ih hk' hruns' (hr.2 s' happly)
        refine ⟨t, hkt, ?_⟩
        cases hreaches with
        | finished hrun => exact .finished ((hcons rest).trans hrun)
        | @stopped front after q hchecked hsplit hfront houtgrows hrun =>
            have hsplit : r :: rest = (r :: front) ++ q :: after := congrArg (r :: ·) hsplit
            exact .stopped hchecked hsplit ((hcons front).trans hfront) houtgrows
              ((hcons rest).trans hrun)
      · obtain ⟨hchecked, hoverflowed⟩ := Classical.not_imp.1 hruns'
        have houtgrows := (hk.apply_overflowed happly).1 (Bool.not_eq_false _ ▸ hoverflowed)
        have happlyIn : s.applyIn build r = .error (.overflow "multiply") := by
          simp only [applyIn, happly, if_neg hruns']
        have hsplit : r :: rest = [] ++ r :: rest := rfl
        refine ⟨s, hk, .stopped hchecked hsplit rfl (houtgrows.resolve_left fun h => ?_)
          (by simp only [runIn, happlyIn])⟩
        rw [hruns hchecked] at h
        cases h

end HeapSession

end AffinityHeap
