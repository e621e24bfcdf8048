import AffinityHeap.Proofs.Holder

namespace AffinityHeap

/-- A block of either kind, the space behind it and the pointers its clients hold. -/
structure BlockSession where
  block : Block
  space : AddressSpace
  live : List Grant

inductive BlockRequest where
  | allocate (size : Nat)
  | release (grant : Grant)
  | write (grant : Grant) (offset : Nat) (bytes : List UInt8)
  deriving DecidableEq

/-- A request can be rounded up within a word; a release names a live pointer and its size; a write
stays inside a live one. -/
def BlockRequest.Proper (b : Block) (live : List Grant) : BlockRequest → Prop
  | allocate size => b.Fits size
  | release g => g ∈ live
  | write g offset bytes => g ∈ live ∧ offset + bytes.length ≤ g.size

namespace BlockSession

def start (b : Block) (space : AddressSpace) : BlockSession := ⟨b, space, []⟩

def apply (s : BlockSession) : BlockRequest → Except Corruption BlockSession
  | .allocate size =>
      match s.block.allocate size s.space with
      | ((.ok answer, block), space) => .ok ⟨block, space, Grant.add s.live size answer⟩
      | ((.error e, _), _) => .error e
  | .release g =>
      match s.block.deallocate g.address g.size s.space with
      | ((.ok (), block), space) => .ok ⟨block, space, s.live.erase g⟩
      | ((.error e, _), _) => .error e
  | .write g offset bytes =>
      .ok { s with space.memory := s.space.memory.setBytes (g.address + offset) bytes }

def run : List BlockRequest → BlockSession → Except Corruption BlockSession
  | [], s => .ok s
  | r :: rest, s =>
      match s.apply r with
      | .ok s => run rest s
      | .error e => .error e

def ProperRun : List BlockRequest → BlockSession → Prop
  | [], _ => True
  | r :: rest, s => r.Proper s.block s.live ∧ ∀ s', s.apply r = .ok s' → ProperRun rest s'

/-- The invariant of every run. -/
def Kept (s : BlockSession) : Prop := s.block.Keeps s.space.memory s.live

variable {s : BlockSession} {r : BlockRequest}

theorem Kept.apply (hk : s.Kept) (hr : r.Proper s.block s.live) : ∃ t, s.apply r = .ok t ∧ t.Kept := by
  cases r with
  | allocate size =>
      obtain ⟨answer, b, m, hrun, hkeeps, -⟩ := Block.Keeps.allocate hk hr
      exact ⟨⟨b, { s.space with memory := m }, Grant.add s.live size answer⟩,
        by rw [BlockSession.apply, hrun], hkeeps⟩
  | release g =>
      obtain ⟨b, m, hrun, hkeeps, -⟩ := Block.Keeps.release hk hr
      exact ⟨⟨b, { s.space with memory := m }, s.live.erase g⟩,
        by rw [BlockSession.apply, hrun], hkeeps⟩
  | write g offset bytes => exact ⟨_, rfl, Block.Keeps.write hk hr.1 hr.2⟩

theorem Kept.run (hk : s.Kept) {requests : List BlockRequest} (hr : s.ProperRun requests) :
    ∃ t, s.run requests = .ok t ∧ t.Kept := by
  induction requests generalizing s with
  | nil => exact ⟨s, rfl, hk⟩
  | cons r rest ih =>
      obtain ⟨s', hs, hk'⟩ := hk.apply hr.1
      obtain ⟨t, ht, hkt⟩ := ih hk' (hr.2 s' hs)
      exact ⟨t, by rw [BlockSession.run, hs]; exact ht, hkt⟩

theorem kept_start {space space' : AddressSpace} {kind : BackendKind} {blockSize alignment : Nat}
    {b : Block} (hs : space.Aligned) (hsmall : kind = .slot → alignment < 131072)
    (hcreate : Block.create kind blockSize alignment space = (.ok b, space')) :
    (start b space').Kept := by
  rcases Block.create_cases hs kind blockSize hsmall with
    ⟨e, s', hrun, -⟩ | ⟨c, s', obtained, hrun, -, hkeeps, -⟩
  · rw [hcreate] at hrun
    cases hrun
  · rw [hcreate] at hrun
    cases hrun
    exact hkeeps

end BlockSession

end AffinityHeap
