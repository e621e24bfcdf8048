import AffinityHeap.Proofs.Growth

namespace AffinityHeap

/-- A pool, the space behind it and the pointers its clients hold. -/
structure PoolSession where
  pool : Pool
  space : AddressSpace
  live : List Grant

inductive PoolRequest where
  | allocate (size : Nat)
  | deallocate (address size : Nat)
  | setBlockSize (blockSize : Nat)
  | setAlignment (alignment : Nat)
  | reconfigure (settings : PoolConfig) (backend : BackendKind)
  | reclaim
  | write (grant : Grant) (offset : Nat) (bytes : List UInt8)
  deriving DecidableEq

namespace PoolSession

/-- Settings that are refused leave the pool as it is. -/
def settle (s : PoolSession) : Except HeapError Pool → PoolSession
  | .ok pool => { s with pool }
  | .error _ => s

/-- A request that fails leaves the pool as the call does, and the next ones are made of it. -/
def apply (s : PoolSession) : PoolRequest → PoolSession
  | .allocate size =>
      let ((answer, pool), space) := s.pool.allocate size s.space
      ⟨pool, space, Grant.add s.live size (answer.toOption.getD none)⟩
  | .deallocate address size =>
      let ((answer, pool), space) := s.pool.deallocate address size s.space
      ⟨pool, space, if answer.toOption = some true then s.live.erase ⟨address, size⟩ else s.live⟩
  | .setBlockSize blockSize => s.settle (s.pool.setBlockSize blockSize)
  | .setAlignment alignment => s.settle (s.pool.setAlignment alignment)
  | .reconfigure settings backend => s.settle (s.pool.reconfigure settings backend)
  | .reclaim =>
      let ((_, pool), space) := s.pool.reclaim s.space
      { s with pool, space }
  | .write g offset bytes =>
      { s with space.memory := s.space.memory.setBytes (g.address + offset) bytes }

def run (requests : List PoolRequest) (s : PoolSession) : PoolSession := requests.foldl apply s

def start (p : Pool) (space : AddressSpace) : PoolSession := ⟨p, space, []⟩

end PoolSession

/-- A release names a live pointer and its size, a write stays inside a live one, and slot blocks
are asked for alignments that their headers can hold. -/
def PoolRequest.Proper (s : PoolSession) : PoolRequest → Prop
  | deallocate address size => ⟨address, size⟩ ∈ s.live
  | setAlignment alignment => s.pool.backend = .slot → alignment < 131072
  | reconfigure settings backend => settings.Narrow backend
  | write g offset bytes => g ∈ s.live ∧ offset + bytes.length ≤ g.size
  | _ => True

namespace PoolSession

def ProperRun : List PoolRequest → PoolSession → Prop
  | [], _ => True
  | r :: rest, s => r.Proper s ∧ ProperRun rest (s.apply r)

variable {s : PoolSession} {p : Pool} {c : PoolConfig} {backend : BackendKind} {policy : Policy}
  {r : PoolRequest} {requests : List PoolRequest}

/-- Every block is where it is looked up, whatever was asked for before. -/
structure Tracked (s : PoolSession) : Prop where
  sized : 0 < s.pool.blockSize
  charted : s.pool.Charted
  keyed : s.pool.blocks.Keyed Block.base
  tally : Tally (s.pool.holders ++ []) s.space

namespace Tracked

theorem moves (hs : s.Tracked) {space : AddressSpace} (live : List Grant)
    (h : Pool.Moves (s.pool, s.space) (p, space)) (hp : p.Charted) : Tracked ⟨p, space, live⟩ := by
  obtain ⟨hkeyed, htally⟩ := Pool.tally_of_moves h hs.sized hs.keyed hs.tally
  have hsame : p.blockSize = s.pool.blockSize :=
    (congrArg Pool.blockSize (Pool.emptied_eq_of_moves h) :)
  exact ⟨hsame ▸ hs.sized, hp, hkeyed, htally⟩

theorem settle (hs : s.Tracked) {result : Except HeapError Pool}
    (h : ∀ p, result = .ok p → p.blocks = s.pool.blocks ∧ 0 < p.blockSize ∧ p.Charted) :
    (s.settle result).Tracked := by
  cases result with
  | error e => exact hs
  | ok p =>
      obtain ⟨hblocks, hsized, hp⟩ := h p rfl
      have hholders : p.holders = s.pool.holders := by rw [Pool.holders, Pool.holders, hblocks]
      exact ⟨hsized, hp, hblocks ▸ hs.keyed, hholders ▸ hs.tally⟩

theorem apply (hs : s.Tracked) (r : PoolRequest) : (s.apply r).Tracked := by
  cases r with
  | allocate size =>
      rcases hrun : s.pool.allocate size s.space with ⟨⟨answer, p⟩, space⟩
      simp only [PoolSession.apply, hrun]
      exact hs.moves _ (Pool.allocate_moves hrun)
        (hs.charted.allocate hs.tally.sound.fair.aligned hrun)
  | deallocate address size =>
      rcases hrun : s.pool.deallocate address size s.space with ⟨⟨answer, p⟩, space⟩
      simp only [PoolSession.apply, hrun]
      exact hs.moves _ (Pool.deallocate_moves hrun) (hs.charted.deallocate hrun)
  | setBlockSize blockSize =>
      refine hs.settle fun p hp => ?_
      obtain ⟨hzero, rfl⟩ := Pool.setBlockSize_eq hp
      exact ⟨rfl, Nat.pos_of_ne_zero hzero, hs.charted.sited, hs.charted.cached⟩
  | setAlignment alignment =>
      refine hs.settle fun p hp => ?_
      have hcharted := hs.charted.setAlignment hp
      rcases s.pool.setAlignment_eq alignment with ⟨e, herr⟩ | ⟨-, cached, hok⟩
      · cases hp.symm.trans herr
      · cases hp.symm.trans hok
        exact ⟨rfl, hs.sized, hcharted⟩
  | reconfigure settings backend =>
      refine hs.settle fun p hp => ?_
      have hcharted := hs.charted.reconfigure hp
      rcases s.pool.reconfigure_eq settings backend with ⟨e, herr⟩ | ⟨hvalid, cached, hok⟩
      · cases hp.symm.trans herr
      · cases hp.symm.trans hok
        exact ⟨rfl, Nat.pos_of_ne_zero (PoolConfig.validate_iff.1 hvalid).2, hcharted⟩
  | reclaim =>
      rcases hrun : s.pool.reclaim s.space with ⟨⟨released, p⟩, space⟩
      simp only [PoolSession.apply, hrun]
      exact hs.moves _ (Pool.reclaim_moves hrun) (hs.charted.reclaim hrun)
  | write g offset bytes => exact ⟨hs.sized, hs.charted, hs.keyed, hs.tally.store _⟩

theorem run (hs : s.Tracked) (requests : List PoolRequest) : (s.run requests).Tracked := by
  induction requests generalizing s with
  | nil => exact hs
  | cons r rest ih => exact ih (hs.apply r)

theorem start (hfair : (AddressSpace.new policy).Fair) (hvalid : c.validate = .ok ())
    (backend : BackendKind) : (start (.ofConfig c backend) (.new policy)).Tracked :=
  ⟨Nat.pos_of_ne_zero (PoolConfig.validate_iff.1 hvalid).2, .ofConfig c backend,
    fun _ _ h => (nomatch h), .start hfair⟩

end Tracked

/-- An address belongs to the block around it and to no other. -/
def Resolved (s : PoolSession) : Prop := s.pool.Resolves s.space

/-- Whatever is asked of a pool, also with pointers that it never handed out, it knows the block of
every address. -/
theorem run_resolved (hfair : (AddressSpace.new policy).Fair) (hnew : Pool.new c backend = .ok p)
    (requests : List PoolRequest) : ((start p (.new policy)).run requests).Resolved := by
  rcases Pool.new_cases c backend with ⟨e, herr⟩ | ⟨hok, hvalid⟩
  · cases hnew.symm.trans herr
  · cases hnew.symm.trans hok
    have hs := (Tracked.start hfair hvalid backend).run requests
    exact hs.charted.resolves hs.keyed hs.tally

theorem run_resolved_small : Pool.new (.new .data) .slot = .ok (.ofConfig (.new .data) .slot) ∧
    ((start (.ofConfig (.new .data) .slot) (.new (.sideBySide true 16 0x100000000))).run
      [.allocate 12, .deallocate 0x1000000010 12, .setAlignment 64, .allocate 200,
        .deallocate 0 0, .reconfigure ((PoolConfig.new .data).withBackend .segment) .slot,
        .reclaim]).Resolved := by
  have hfair := AddressSpace.sideBySide_fair (isPowerOfTwo_iff.2 ⟨4, rfl⟩) true 0x100000000
  have hnew : Pool.new (.new .data) .slot = .ok (.ofConfig (.new .data) .slot) := by decide
  exact ⟨hnew, run_resolved hfair hnew _⟩

/-- The invariant of every proper run. -/
structure Kept (s : PoolSession) : Prop where
  proper : s.pool.Proper
  owned : Owned (s.pool.holders ++ []) s.space s.live

namespace Kept

theorem settle (hs : s.Kept) {result : Except HeapError Pool}
    (h : ∀ p, result = .ok p → p.blocks = s.pool.blocks ∧ p.Proper) : (s.settle result).Kept := by
  cases result with
  | error e => exact hs
  | ok p =>
      obtain ⟨hblocks, hp⟩ := h p rfl
      have hholders : p.holders = s.pool.holders := by rw [Pool.holders, Pool.holders, hblocks]
      exact ⟨hp, hholders ▸ hs.owned⟩

theorem apply (hs : s.Kept) (hr : r.Proper s) : (s.apply r).Kept := by
  obtain ⟨hp, ho⟩ := hs
  cases r with
  | allocate size =>
      rcases Pool.allocate_serves hp ho size with
        ⟨e, p, space, hrun, -, hserves⟩ | ⟨answer, p, space, hrun, hserves⟩
      · simp only [PoolSession.apply, hrun]
        exact ⟨hserves.proper, hserves.owned⟩
      · simp only [PoolSession.apply, hrun]
        exact ⟨hserves.proper, hserves.owned⟩
  | deallocate address size =>
      rcases Pool.deallocate_cases hp ho hr with
        ⟨hrun, -⟩ | ⟨p, space, hrun, -, hreleases⟩
      · simp only [PoolSession.apply, hrun]
        exact ⟨hp, ho⟩
      · simp only [PoolSession.apply, hrun]
        exact ⟨hreleases.proper, hreleases.owned⟩
  | setBlockSize blockSize =>
      refine settle ⟨hp, ho⟩ fun p hok => ?_
      obtain ⟨-, rfl⟩ := Pool.setBlockSize_eq hok
      exact ⟨rfl, hp.power, hp.narrow, hp.keyed⟩
  | setAlignment alignment =>
      refine settle ⟨hp, ho⟩ fun p hok => ?_
      rcases s.pool.setAlignment_eq alignment with ⟨e, herr⟩ | ⟨hpower, cached, hok'⟩
      · cases hok.symm.trans herr
      · cases hok.symm.trans hok'
        exact ⟨rfl, hpower, hr, hp.keyed⟩
  | reconfigure settings backend =>
      refine settle ⟨hp, ho⟩ fun p hok => ?_
      rcases s.pool.reconfigure_eq settings backend with ⟨e, herr⟩ | ⟨hvalid, cached, hok'⟩
      · cases hok.symm.trans herr
      · cases hok.symm.trans hok'
        exact ⟨rfl, (PoolConfig.validate_iff.1 hvalid).1, hr, hp.keyed⟩
  | reclaim =>
      obtain ⟨released, p, space, hrun, hp', -, ho', -⟩ := Pool.reclaim_owned hp ho
      simp only [PoolSession.apply, hrun]
      exact ⟨hp', ho'⟩
  | write g offset bytes => exact ⟨hp, ho.write hr.1 hr.2⟩

theorem run (hs : s.Kept) (hr : s.ProperRun requests) : (s.run requests).Kept := by
  induction requests generalizing s with
  | nil => exact hs
  | cons r rest ih => exact ih (hs.apply hr.1) hr.2

theorem start (hfair : (AddressSpace.new policy).Fair) (hp : p.Proper) (hnone : p.holders = []) :
    (start p (.new policy)).Kept := by
  refine ⟨hp, ?_⟩
  show Owned (p.holders ++ []) (.new policy) []
  rw [hnone]
  refine ⟨AddressSpace.new_sound hfair, ?_, .nil, ?_, ?_⟩
  all_goals exact fun x hx => absurd hx List.not_mem_nil

end Kept

/-- Nothing is obtained that the blocks of the pool have room for, and the cache does not matter. A
new block serves what it was made for unless its size came to nothing in a word. -/
def Frugal (s : PoolSession) : Prop := ∀ size, s.pool.Grows s.space size ∧
  ∀ cached, Pool.outcome { s.pool with cached } s.space size = s.pool.outcome s.space size

theorem Kept.frugal (hs : s.Kept) (hw : s.pool.Whole) : s.Frugal := fun size =>
  ⟨Pool.grows hs.proper hw hs.owned size, fun cached =>
    Pool.outcome_cached hs.proper hw hs.owned cached size⟩

end PoolSession

end AffinityHeap
