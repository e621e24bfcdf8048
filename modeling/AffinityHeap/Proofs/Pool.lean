import AffinityHeap.Pool
import AffinityHeap.Proofs.Config
import AffinityHeap.Proofs.Holder
import AffinityHeap.Proofs.SortedMap

namespace AffinityHeap

namespace Pool

variable {p p' : Pool} {live : List Grant} {g : Grant} {s s' : AddressSpace} {C : List Holder}
  {b b' : Block} {base size : Nat} {candidates : List Nat}

structure Proper (p : Pool) : Prop where
  power : IsPowerOfTwo p.alignment
  narrow : p.backend = .slot → p.alignment < 131072
  keyed : ∀ k b, p.blocks.find? k = some b → b.base = k

structure Like (p p' : Pool) : Prop where
  affinity : p'.affinity = p.affinity
  alignment : p'.alignment = p.alignment
  backend : p'.backend = p.backend

theorem Like.refl (p : Pool) : p.Like p := ⟨rfl, rfl, rfl⟩

theorem Like.trans {q : Pool} (h : p.Like p') (h' : p'.Like q) : p.Like q :=
  ⟨h'.affinity.trans h.affinity, h'.alignment.trans h.alignment, h'.backend.trans h.backend⟩

def holders (p : Pool) : List Holder := p.blocks.values.map .block

/-- What serving a request leaves of a pool, the space and the live grants. -/
structure Serves (p : Pool) (C : List Holder) (s : AddressSpace) (live : List Grant) (size : Nat)
    (answer : Option Nat) (p' : Pool) (s' : AddressSpace) : Prop where
  proper : p'.Proper
  like : p.Like p'
  owned : Owned (p'.holders ++ C) s' (Grant.add live size answer)
  agrees : Memory.Agrees live s.memory s'.memory
  aligned : ∀ address, answer = some address → p.alignment ∣ address

theorem holders_perm (hb : p.blocks.find? base = some b) :
    p.holders.Perm (.block b :: (p.blocks.erase base).values.map .block) :=
  (SortedMap.values_perm hb).map _

theorem holders_insert_perm (p : Pool) (base : Nat) (b : Block) (cached : Option Nat) :
    holders { p with blocks := p.blocks.insert base b, cached } |>.Perm
      (.block b :: (p.blocks.erase base).values.map .block) :=
  (p.blocks.values_insert_perm base b).map _

theorem Proper.blocks_keyed (hp : p.Proper) : p.blocks.Keyed Block.base := hp.keyed

theorem Proper.insert (hp : p.Proper) (hb : b.base = base) (cached : Option Nat) :
    Proper { p with blocks := p.blocks.insert base b, cached } :=
  ⟨hp.power, hp.narrow, hp.blocks_keyed.insert hb⟩

/-- Requests that a pool passes on to its blocks are small. -/
theorem Proper.size_le (hp : p.Proper) (hsize : size ≤ p.maximumAllocationSize) :
    size ≤ Block.sizeLimit := by
  refine Nat.le_trans hsize ?_
  have hnarrow := hp.narrow
  rw [maximumAllocationSize]
  cases hkind : p.backend with
  | slot =>
      have hle : SlotGeometry.maxAlignedSpan (SlotGeometry.unit p.alignment) ≤ maxSpan :=
        Nat.mul_div_le ..
      have hmax : maxSpan = 32767 := rfl
      have hlimit : Block.sizeLimit = 0x4000000000000000 := rfl
      show SlotGeometry.maximumAllocationSize p.alignment ≤ Block.sizeLimit
      rw [SlotBlock.maximumAllocationSize_eq (hnarrow hkind)]
      omega
  | segment => exact (by decide : 0x7fffffffffffffff / 2 ≤ Block.sizeLimit)

theorem mem_holders (hb : p.blocks.find? base = some b) : .block b ∈ p.holders :=
  List.mem_map_of_mem (SortedMap.mem_values.2 ⟨base, hb⟩)

/-- The alignment of a usable block is a multiple of the pool's. -/
theorem dvd_alignment (hp : p.Proper) (hb : IsPowerOfTwo b.alignment)
    (hle : p.alignment ≤ b.alignment) : p.alignment ∣ b.alignment :=
  powerOfTwo_dvd hp.power hb hle

theorem allocateIn_serves (hp : p.Proper) (ho : Owned (p.holders ++ C) s live)
    (hb : p.blocks.find? base = some b) (hle : p.alignment ≤ b.alignment)
    (hsize : size ≤ Block.sizeLimit) :
    ∃ answer b' s', p.allocateIn base size s =
        ((.ok answer, { p with blocks := p.blocks.insert base b' }), s') ∧ b.Like b' ∧
      p.Serves C s live size answer { p with blocks := p.blocks.insert base b' } s' := by
  have hperm := (holders_perm hb).append_right C
  have hpower : IsPowerOfTwo b.alignment := (ho.keeps (.block b)
    (List.mem_append_left C (mem_holders hb))).power
  obtain ⟨answer, b', m', hrun, hlike, ho', hagrees, hdvd⟩ := (ho.perm hperm).allocate hsize
  refine ⟨answer, b', _, ?_, hlike, hp.insert (hlike.base.trans (hp.keyed _ _ hb)) p.cached,
    ⟨rfl, rfl, rfl⟩, ho'.perm ?_, hagrees, fun address ha =>
      Nat.dvd_trans (dvd_alignment hp hpower hle) (hdvd address ha)⟩
  · simp only [allocateIn, hb, bind, StateT.bind, hrun]
    rfl
  · exact ((holders_insert_perm p base b' p.cached).append_right C).symm

theorem allocateAmong_serves (hp : p.Proper) (ho : Owned (p.holders ++ C) s live)
    (hc : ∀ base ∈ candidates, ∃ b, p.blocks.find? base = some b ∧ p.alignment ≤ b.alignment)
    (hsize : size ≤ Block.sizeLimit) :
    ∃ answer p' s', allocateAmong size candidates p s = ((.ok answer, p'), s') ∧
      p.Serves C s live size answer p' s' := by
  induction candidates generalizing p s with
  | nil => exact ⟨none, p, s, rfl, hp, .refl p, ho, fun _ _ _ _ => rfl, fun _ h => nomatch h⟩
  | cons base rest ih =>
      obtain ⟨b, hb, hle⟩ := hc base (List.mem_cons_self ..)
      obtain ⟨answer, b', s', hrun, hlike, hserves⟩ := allocateIn_serves hp ho hb hle hsize
      cases answer with
      | some address =>
          refine ⟨some address, _, s', ?_, hp.insert ?_ (some base), ⟨rfl, rfl, rfl⟩,
            hserves.owned, hserves.agrees, hserves.aligned⟩
          · simp only [allocateAmong, bind, StateT.bind, hrun]
            rfl
          · exact hlike.base.trans (hp.keyed _ _ hb)
      | none =>
          obtain ⟨answer, p', t, hrest, hserves'⟩ := ih hserves.proper hserves.owned fun c hmem => by
            obtain ⟨d, hd, hdle⟩ := hc c (List.mem_cons_of_mem _ hmem)
            by_cases hbc : base = c
            · subst hbc
              refine ⟨b', SortedMap.find?_insert_self .., ?_⟩
              rw [hlike.alignment]
              exact hle
            · exact ⟨d, by rw [SortedMap.find?_insert, if_neg hbc]; exact hd, hdle⟩
          refine ⟨answer, p', t, ?_, hserves'.proper, hserves.like.trans hserves'.like,
            hserves'.owned, hserves.agrees.trans hserves'.agrees, hserves'.aligned⟩
          simp only [allocateAmong, bind, StateT.bind, hrun]
          exact hrest

/-- No block of the pool is written over by a new one. -/
theorem Proper.fresh (hp : p.Proper) (ho : Owned (.block b :: (p.holders ++ C)) s live) :
    p.blocks.find? b.base = none := by
  refine Option.eq_none_iff_forall_ne_some.2 fun c hc => ?_
  exact ho.base_ne (List.mem_append_left C (mem_holders hc)) (hp.keyed _ _ hc)

theorem grow_serves (hp : p.Proper) (ho : Owned (p.holders ++ C) s live)
    (hsize : size ≤ Block.sizeLimit) :
    (∃ e s', p.grow size s = ((.error e, p), s') ∧ (∀ c, e ≠ .corruption c) ∧
        p.Serves C s live size none p s') ∨
      ∃ answer p' s', p.grow size s = ((.ok answer, p'), s') ∧
        p.Serves C s live size answer p' s' := by
  rcases ho.create (p.newBlockSize size) hp.narrow with
    ⟨e, s', hrun, ho', hagrees, hne⟩ | ⟨b, s', hrun, hle, ho', hagrees⟩
  · refine .inl ⟨e, s', ?_, hne, hp, .refl p, ho', hagrees, fun _ h => nomatch h⟩
    simp only [grow, ExceptT.run, bind, StateT.bind, hrun]
    rfl
  · have hpower : IsPowerOfTwo b.alignment :=
      (ho'.keeps (.block b) (List.mem_cons_self ..)).power
    obtain ⟨answer, b', m', hserve, hlike, ho'', hagrees', hdvd⟩ := ho'.allocate hsize
    have hfresh : p.blocks.find? b'.base = none := hlike.base ▸ hp.fresh ho'
    refine .inr ⟨answer, _, _, ?_, hp.insert (b := b') rfl (some b'.base), ⟨rfl, rfl, rfl⟩,
      ho''.perm ?_, hagrees.trans hagrees', fun address ha =>
        Nat.dvd_trans (dvd_alignment hp hpower hle) (hdvd address ha)⟩
    · simp only [grow, ExceptT.run, bind, StateT.bind, hrun, hserve]
      rfl
    · refine .trans ?_ ((holders_insert_perm p b'.base b' (some b'.base)).append_right C).symm
      rw [SortedMap.erase_of_find?_none hfresh]
      exact .refl _

theorem usable_iff : p.usable base = true ↔
    ∃ b, p.blocks.find? base = some b ∧ p.alignment ≤ b.alignment := by
  rw [usable]
  cases p.blocks.find? base with
  | none => simp
  | some b => simp

theorem usable_of_mem (h : base ∈ p.candidates) :
    ∃ b, p.blocks.find? base = some b ∧ p.alignment ≤ b.alignment :=
  usable_iff.1 (List.mem_filter.1 h).2

theorem allocate_large (hlarge : p.maximumAllocationSize < size) (s : AddressSpace) :
    p.allocate size s = ((.ok none, p), s) := by
  rw [allocate, if_pos hlarge]
  rfl

theorem allocate_serves (hp : p.Proper) (ho : Owned (p.holders ++ C) s live) (size : Nat) :
    (∃ e p' s', p.allocate size s = ((.error e, p'), s') ∧ (∀ c, e ≠ .corruption c) ∧
        p.Serves C s live size none p' s') ∨
      ∃ answer p' s', p.allocate size s = ((.ok answer, p'), s') ∧
        p.Serves C s live size answer p' s' := by
  by_cases hmax : p.maximumAllocationSize < size
  · exact .inr ⟨none, p, s, allocate_large hmax s, hp, .refl p, ho, fun _ _ _ _ => rfl,
      fun _ h => nomatch h⟩
  have hsize := hp.size_le (Nat.not_lt.1 hmax)
  obtain ⟨answer, p', s', hrun, hserves⟩ :=
    allocateAmong_serves hp ho (fun _ h => usable_of_mem h) hsize
  have hstart : p.allocate size s = match allocateAmong size p.candidates p s with
      | ((.error e, p), s) => ((.error (.corruption e), p), s)
      | ((.ok (some address), p), s) => ((.ok (some address), p), s)
      | ((.ok none, p), s) => p.grow size s := by
    rw [allocate, if_neg hmax]
    simp only [bind, StateT.bind, hrun]
    cases answer <;> rfl
  rw [hrun] at hstart
  cases answer with
  | some address => exact .inr ⟨some address, p', s', hstart, hserves⟩
  | none =>
      rcases grow_serves hserves.proper hserves.owned hsize with
        ⟨e, t, hgrow, hne, hserves'⟩ | ⟨answer, q, t, hgrow, hserves'⟩
      · exact .inl ⟨e, p', t, hstart.trans hgrow, hne, hserves'.proper, hserves.like,
          hserves'.owned, hserves.agrees.trans hserves'.agrees, fun _ h => nomatch h⟩
      · exact .inr ⟨answer, q, t, hstart.trans hgrow, hserves'.proper,
          hserves.like.trans hserves'.like, hserves'.owned,
          hserves.agrees.trans hserves'.agrees,
          fun address ha => hserves.like.alignment ▸ hserves'.aligned address ha⟩

structure Releases (p : Pool) (C : List Holder) (s : AddressSpace) (live : List Grant) (g : Grant)
    (p' : Pool) (s' : AddressSpace) : Prop where
  proper : p'.Proper
  like : p.Like p'
  owned : Owned (p'.holders ++ C) s' (live.erase g)
  agrees : Memory.Agrees (live.erase g) s.memory s'.memory

/-- The block with the greatest base that is not above an address is the only one that can hold
it. -/
theorem owner?_of_contains (hk : p.blocks.Keyed Block.base) (hs : s.Sound)
    (hheld : ∀ b ∈ p.blocks.values, b.region ∈ s.held) (hb : b ∈ p.blocks.values) {address : Nat}
    (hc : b.contains address = true) : p.owner? address = some (b.base, b) := by
  have hfind := hk.find?_of_mem hb
  have hholds : b.region.Holds address := Buffer.holds_of_contains hc
  have hle : b.base < address + 1 := Nat.lt_succ_of_le hholds.1
  cases hfloor : p.blocks.floor? address with
  | none => exact absurd (SortedMap.below?_eq_none hfloor hfind) (Nat.not_le.2 hle)
  | some x =>
      obtain ⟨j, c⟩ := x
      obtain ⟨hj, hjle, hmost⟩ := SortedMap.below?_eq_some hfloor
      obtain rfl : c.base = j := hk j c hj
      have hle := hmost b.base b hfind hle
      have hcheld := hheld c (SortedMap.mem_values.2 ⟨_, hj⟩)
      have hstart : b.region.Holds c.region.base := by
        have hstop : address < b.region.stop := hholds.2
        have hbbase : b.region.base = b.base := rfl
        have hcbase : c.region.base = c.base := rfl
        exact ⟨by omega, by omega⟩
      have hregion := hs.eq_of_holds (hheld b hb) hcheld hstart (hs.holds_base hcheld)
      have hbase : b.base = c.base := (congrArg Region.base hregion :)
      rw [hbase, hj] at hfind
      obtain rfl := Option.some.inj hfind
      rw [owner?, hfloor, Option.filter_some, if_pos hc]

theorem owner?_of_holds (hp : p.Proper) (ho : Owned (p.holders ++ C) s live) (hg : g ∈ live)
    {h : Holder} (hh : h ∈ p.holders) (hgh : h.region.Holds g.address) :
    ∃ base b, p.owner? g.address = some (base, b) ∧ p.blocks.find? base = some b ∧
      b.region.Holds g.address := by
  obtain ⟨b, hb, rfl⟩ := List.mem_map.1 hh
  have hcontains : b.contains g.address = true :=
    Block.Keeps.contains (ho.keeps _ (List.mem_append_left C hh)) (Grant.mem_within.2 ⟨hg, hgh⟩)
  have hheld : ∀ c ∈ p.blocks.values, c.region ∈ s.held := fun c hc =>
    ho.held (.block c) (List.mem_append_left C (List.mem_map_of_mem hc))
  exact ⟨b.base, b, owner?_of_contains hp.blocks_keyed ho.sound hheld hb hcontains,
    hp.blocks_keyed.find?_of_mem hb, hgh⟩

theorem deallocate_cases (hp : p.Proper) (ho : Owned (p.holders ++ C) s live) (hg : g ∈ live) :
    (p.deallocate g.address g.size s = ((.ok false, p), s) ∧
        ∀ h ∈ p.holders, ¬ h.region.Holds g.address) ∨
      ∃ p' s', p.deallocate g.address g.size s = ((.ok true, p'), s') ∧
        (∃ h ∈ p.holders, h.region.Holds g.address) ∧ p.Releases C s live g p' s' := by
  by_cases hholds : ∃ h ∈ p.holders, h.region.Holds g.address
  · obtain ⟨h, hh, hgh⟩ := hholds
    obtain ⟨base, b, howner, hb, hgb⟩ := owner?_of_holds hp ho hg hh hgh
    have hperm := (holders_perm hb).append_right C
    obtain ⟨b', m', hrun, hlike, ho', hagrees⟩ := (ho.perm hperm).release hg hgb
    let cached := if p.alignment ≤ b'.alignment then some base else p.cached
    refine .inr ⟨{ p with blocks := p.blocks.insert base b', cached }, { s with memory := m' }, ?_,
      ⟨h, hh, hgh⟩, hp.insert (hlike.base.trans (hp.keyed _ _ hb)) cached, ⟨rfl, rfl, rfl⟩,
      ho'.perm ?_, hagrees⟩
    · simp only [deallocate, howner, bind, StateT.bind, hrun]
      rfl
    · exact ((holders_insert_perm p base b' cached).append_right C).symm
  · refine .inl ⟨?_, fun h hh hgh => hholds ⟨h, hh, hgh⟩⟩
    have hnone : p.owner? g.address = none := by
      refine Option.eq_none_iff_forall_ne_some.2 fun x hx => ?_
      obtain ⟨hfloor, hcontains⟩ := Option.filter_eq_some_iff.1 hx
      exact hholds ⟨.block x.2, mem_holders (SortedMap.below?_eq_some hfloor).1,
        Buffer.holds_of_contains hcontains⟩
    rw [deallocate, hnone]
    rfl

/-- A sweep parts the blocks. -/
theorem holders_swept (p : Pool) : p.holders.Perm (p.emptyBlocks.map .block ++
    (p.blocks.filter fun _ b => !b.isEmpty).values.map .block) := by
  rw [SortedMap.values_filter, ← List.map_append]
  exact ((List.filter_append_perm _ _).symm).map _

theorem reclaim_owned (hp : p.Proper) (ho : Owned (p.holders ++ C) s live) :
    ∃ n p' s', p.reclaim s = ((n, p'), s') ∧ p'.Proper ∧ p.Like p' ∧
      Owned (p'.holders ++ C) s' live ∧ s'.memory = s.memory := by
  let kept := p.blocks.filter fun _ b => !b.isEmpty
  have ho' : Owned (p.emptyBlocks.map .block ++ (kept.values.map .block ++ C)) s live := by
    rw [← List.append_assoc]
    exact ho.perm (p.holders_swept.append_right C)
  have hempty : ∀ b ∈ p.emptyBlocks, b.isEmpty = true := fun b hb => (List.mem_filter.1 hb).2
  obtain ⟨s', hrun, howned, hmemory⟩ := Owned.giveBackAll hempty ho'
  refine ⟨sumOf (p.emptyBlocks.map (·.memorySize)),
    { p with blocks := kept, cached := p.cached.filter kept.contains }, s',
    ?_, ⟨hp.power, hp.narrow, hp.blocks_keyed.filter _⟩,
    ⟨rfl, rfl, rfl⟩, howned, hmemory⟩
  simp only [reclaim, bind, StateT.bind, hrun]
  rfl

theorem stats_allocations (m : Memory) (p : Pool) :
    (p.stats m).allocations = sumOf (p.holders.map Holder.allocations) := by
  simp only [PoolStats.allocations, stats, holders, List.map_map, Function.comp_def,
    Block.stats_allocations, Holder.allocations]

theorem setBlockSize_eq {blockSize : Nat} (h : p.setBlockSize blockSize = .ok p') :
    blockSize ≠ 0 ∧ p' = { p with blockSize } := by
  rw [setBlockSize] at h
  split at h
  · cases h
  · rename_i hzero
    cases h
    exact ⟨hzero, rfl⟩

theorem setAlignment_eq (p : Pool) (alignment : Nat) :
    (∃ e, p.setAlignment alignment = .error e) ∨ IsPowerOfTwo alignment ∧
      ∃ cached, p.setAlignment alignment = .ok { p with alignment, cached } := by
  by_cases hpower : IsPowerOfTwo alignment
  · refine .inr ⟨hpower, if alignment = p.alignment then p.cached else none, ?_⟩
    simp only [setAlignment, checkAlignment, if_pos hpower]
    by_cases hsame : alignment = p.alignment
    · subst hsame
      simp only [if_pos]
      rfl
    · simp only [if_neg hsame]
      rfl
  · exact .inl ⟨_, by simp only [setAlignment, checkAlignment, if_neg hpower]; rfl⟩

theorem ofConfig_proper {c : PoolConfig} {backend : BackendKind}
    (hpower : IsPowerOfTwo c.alignment) (hnarrow : c.Narrow backend) :
    (ofConfig c backend).Proper :=
  ⟨hpower, hnarrow, fun _ _ h => nomatch h⟩

theorem new_cases (c : PoolConfig) (backend : BackendKind) :
    (∃ e, new c backend = .error e) ∨
      new c backend = .ok (ofConfig c backend) ∧ c.validate = .ok () := by
  rw [new]
  cases c.validate with
  | error e => exact .inl ⟨e, rfl⟩
  | ok u => exact .inr ⟨rfl, rfl⟩

theorem reconfigure_eq (p : Pool) (c : PoolConfig) (backend : BackendKind) :
    (∃ e, p.reconfigure c backend = .error e) ∨ c.validate = .ok () ∧
      ∃ cached, p.reconfigure c backend =
        .ok { ofConfig c backend with affinity := p.affinity, blocks := p.blocks, cached } := by
  rw [reconfigure]
  cases c.validate with
  | error e => exact .inl ⟨e, rfl⟩
  | ok u =>
      refine (setAlignment_eq _ c.alignment).imp id ?_
      rintro ⟨-, cached, hok⟩
      exact ⟨rfl, cached, hok⟩

end Pool

end AffinityHeap
