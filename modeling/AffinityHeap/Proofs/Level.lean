import AffinityHeap.Allocator
import AffinityHeap.Proofs.Pool

namespace AffinityHeap

def LevelStats.allocations (l : LevelStats) : Nat :=
  sumOf (l.pools.map (·.allocations)) + l.largeCount

namespace Level

variable {l l' : Level} {p p' : Pool} {c : Config} {k : Nat} {a : Affinity} {live : List Grant} {g : Grant}
  {s s' : AddressSpace} {C : List Holder} {size : Nat} {settings : PoolConfig}

structure Proper (l : Level) : Prop where
  indexed : ∀ k p, l.pools.find? k = some p → p.affinity.index = k
  fit : ∀ a, (l.poolOf a).Proper ∧ (l.poolOf a).affinity = a
  based : ∀ k a, l.large.entries.find? k = some a → a.buffer.base = k
  valid : l.config.validate = .ok ()

def largeHolders (l : Level) : List Holder := l.large.entries.values.map .large

def holders (l : Level) : List Holder := l.pools.values.flatMap Pool.holders ++ l.largeHolders

theorem stats_allocations (m : Memory) (l : Level) :
    (l.stats m).allocations = sumOf (l.holders.map Holder.allocations) := by
  have hlarge : l.largeHolders.map Holder.allocations = l.large.entries.values.map fun _ => 1 :=
    List.map_map ..
  rw [holders, List.map_append, sumOf_append, hlarge, sumOf_map_one, List.map_flatMap,
    sumOf_flatMap]
  simp only [LevelStats.allocations, stats, List.map_map, Function.comp_def,
    Pool.stats_allocations, SortedMap.values, List.length_map]
  rfl

/-- The holders outside the pool of an affinity. -/
def rest (l : Level) (a : Affinity) : List Holder :=
  (l.pools.erase a.index).values.flatMap Pool.holders ++ l.largeHolders

theorem holders_poolOf (l : Level) (a : Affinity) :
    l.holders.Perm ((l.poolOf a).holders ++ l.rest a) := by
  rw [holders, rest, poolOf, ← List.append_assoc]
  refine List.Perm.append_right _ ?_
  cases hp : l.pools.find? a.index with
  | none =>
      rw [SortedMap.erase_of_find?_none hp]
      exact .refl _
  | some p => exact (SortedMap.values_perm hp).flatMap_right Pool.holders

theorem owned_poolOf {l : Level} {C : List Holder} {s : AddressSpace} {live : List Grant}
    (ho : Owned (l.holders ++ C) s live) (a : Affinity) :
    Owned ((l.poolOf a).holders ++ (l.rest a ++ C)) s live := by
  rw [← List.append_assoc]
  exact ho.perm ((l.holders_poolOf a).append_right C)

theorem holders_withPool (l : Level) (p : Pool) :
    (l.withPool p).holders.Perm (p.holders ++ l.rest p.affinity) := by
  rw [holders, rest, ← List.append_assoc]
  refine List.Perm.append_right _ ?_
  exact (l.pools.values_insert_perm p.affinity.index p).flatMap_right Pool.holders

theorem find?_withPool (l : Level) (p : Pool) (k : Nat) :
    (l.withPool p).pools.find? k = if p.affinity.index = k then some p else l.pools.find? k :=
  l.pools.find?_insert ..

theorem poolOf_withPool (l : Level) (p : Pool) (a : Affinity) :
    (l.withPool p).poolOf a = if p.affinity = a then p else l.poolOf a := by
  rw [poolOf, find?_withPool]
  by_cases h : p.affinity = a
  · rw [if_pos (congrArg Affinity.index h), if_pos h]
    rfl
  · rw [if_neg fun heq => h (Affinity.index_injective heq), if_neg h]
    rfl

theorem poolOf_of_find? (hp : l.pools.find? a.index = some p) : l.poolOf a = p := by
  rw [poolOf, hp]
  rfl

/-- Every pool is found under the index of its affinity. -/
def Indexed (l : Level) : Prop := l.pools.Keyed fun p => p.affinity.index

namespace Indexed

theorem withPool (hl : l.Indexed) (p : Pool) : (l.withPool p).Indexed :=
  SortedMap.Keyed.insert hl rfl

theorem poolOf_of_mem (hl : l.Indexed) (hp : p ∈ l.pools.values) : l.poolOf p.affinity = p :=
  poolOf_of_find? (SortedMap.Keyed.find?_of_mem hl hp)

theorem poolOf_affinity (hl : l.Indexed) (a : Affinity) : (l.poolOf a).affinity = a := by
  cases hfind : l.pools.find? a.index with
  | some p =>
      rw [poolOf_of_find? hfind]
      exact Affinity.index_injective (hl _ p hfind)
  | none =>
      rw [poolOf, hfind]
      exact l.config.pool_affinity a

theorem distinct (hl : l.Indexed) :
    l.pools.values.Pairwise fun p q => p.affinity ≠ q.affinity := by
  rw [SortedMap.values, List.pairwise_map]
  refine l.pools.sorted.imp_of_mem fun {x y} hx hy hlt heq => ?_
  have hxk : x.2.affinity.index = x.1 := hl x.1 x.2 (SortedMap.mem_entries.1 hx)
  have hyk : y.2.affinity.index = y.1 := hl y.1 y.2 (SortedMap.mem_entries.1 hy)
  rw [← hxk, ← hyk, heq] at hlt
  exact absurd hlt (Nat.lt_irrefl _)

end Indexed

namespace Proper

theorem withPool (hl : l.Proper) (hp : p.Proper) : (l.withPool p).Proper := by
  refine ⟨Indexed.withPool hl.indexed p, fun a => ?_, hl.based, hl.valid⟩
  rw [poolOf_withPool]
  split
  · rename_i ha
    exact ⟨hp, ha⟩
  · exact hl.fit a

theorem large_keyed (hl : l.Proper) : l.large.entries.Keyed fun a => a.buffer.base := hl.based

theorem record (hl : l.Proper) (hp : l.pools.find? settings.affinity.index = some p)
    (hvalid : settings.validate = .ok ()) :
    Proper { l with config := l.config.record settings } := by
  refine ⟨hl.indexed, fun a => ?_, hl.based, Config.record_validate hl.valid hvalid⟩
  have hsame : Level.poolOf { l with config := l.config.record settings } a = l.poolOf a := by
    by_cases h : settings.affinity = a
    · subst h
      rw [poolOf_of_find? hp]
      exact poolOf_of_find? hp
    · simp only [poolOf, Config.pool_record h]
      rfl
  rw [hsame]
  exact hl.fit a

end Proper

theorem Proper.setPool (hl : l.Proper) (hp : p.Proper) (ha : p.affinity = a)
    (hb : p.blocks = (l.poolOf a).blocks) :
    (l.withPool p).Proper ∧ (l.withPool p).holders.Perm l.holders := by
  refine ⟨hl.withPool hp, (l.holders_withPool p).trans ?_⟩
  rw [Pool.holders, hb, ha]
  exact (l.holders_poolOf a).symm

/-- A change of settings keeps the blocks and is recorded. -/
theorem Proper.recordPool (hl : l.Proper) (hp : p.Proper) (ha : p.affinity = settings.affinity)
    (hb : p.blocks = (l.poolOf settings.affinity).blocks) (hvalid : settings.validate = .ok ()) :
    Proper { l.withPool p with config := l.config.record settings } ∧
      (holders { l.withPool p with config := l.config.record settings }).Perm l.holders := by
  obtain ⟨hproper, hholders⟩ := hl.setPool hp ha hb
  refine ⟨hproper.record (p := p) ?_ hvalid, hholders⟩
  rw [find?_withPool, if_pos (congrArg Affinity.index ha)]

theorem setBlockSize_proper (hl : l.Proper) (a : Affinity) (blockSize : Nat) :
    (l.setBlockSize a blockSize).2.Proper ∧
      (l.setBlockSize a blockSize).2.holders.Perm l.holders := by
  obtain ⟨hp, ha⟩ := hl.fit a
  rw [setBlockSize, Pool.setBlockSize]
  by_cases hzero : blockSize = 0
  · rw [if_pos hzero]
    exact hl.setPool hp ha rfl
  · have hsettings : ((l.config.pool a).withBlockSize blockSize).affinity = a :=
      l.config.pool_affinity a
    have hpool := PoolConfig.validate_iff.1 (Config.pool_validate hl.valid a)
    rw [if_neg hzero]
    exact hl.recordPool ⟨hp.power, hp.narrow, hp.keyed⟩ (ha.trans hsettings.symm)
      (by rw [hsettings]) (PoolConfig.validate_iff.2 ⟨hpool.1, hzero⟩)

theorem setAlignment_proper (hl : l.Proper) (a : Affinity) {alignment : Nat}
    (hnarrow : (l.poolOf a).backend = .slot → alignment < 131072) :
    (l.setAlignment a alignment).2.Proper ∧
      (l.setAlignment a alignment).2.holders.Perm l.holders := by
  obtain ⟨hp, ha⟩ := hl.fit a
  rw [setAlignment]
  rcases (l.poolOf a).setAlignment_eq alignment with ⟨e, herr⟩ | ⟨hpower, cached, hok⟩
  · rw [herr]
    exact hl.setPool hp ha rfl
  · have hsettings : ((l.config.pool a).withAlignment alignment).affinity = a :=
      l.config.pool_affinity a
    have hpool := PoolConfig.validate_iff.1 (Config.pool_validate hl.valid a)
    rw [hok]
    exact hl.recordPool ⟨hpower, hnarrow, hp.keyed⟩ (ha.trans hsettings.symm)
      (by rw [hsettings]) (PoolConfig.validate_iff.2 ⟨hpower, hpool.2⟩)

theorem configurePool_proper (hl : l.Proper) (settings : PoolConfig)
    (hnarrow : settings.Narrow l.config.backend) :
    (l.configurePool settings).2.Proper ∧
      (l.configurePool settings).2.holders.Perm l.holders := by
  rw [configurePool]
  cases hfind : l.pools.find? settings.affinity.index with
  | some p =>
      have hpool := poolOf_of_find? hfind
      obtain ⟨hp, ha⟩ := hl.fit settings.affinity
      rw [hpool] at hp ha
      simp only
      rcases p.reconfigure_eq settings l.config.backend with
        ⟨e, herr⟩ | ⟨hvalid, cached, hok⟩
      · rw [herr]
        exact ⟨hl, .refl _⟩
      · have hpower := (PoolConfig.validate_iff.1 hvalid).1
        rw [hok]
        exact hl.recordPool ⟨hpower, hnarrow, hp.keyed⟩ ha (by rw [hpool]) hvalid
  | none =>
      have hblocks : (l.poolOf settings.affinity).blocks = .empty := by
        rw [poolOf, hfind]
        rfl
      simp only
      rcases Pool.new_cases settings l.config.backend with ⟨e, herr⟩ | ⟨hok, hvalid⟩
      · rw [herr]
        exact ⟨hl, .refl _⟩
      · rw [hok]
        have hpower := (PoolConfig.validate_iff.1 hvalid).1
        refine hl.recordPool ⟨hpower, hnarrow, fun k b hb => ?_⟩ rfl hblocks.symm
          hvalid
        cases hb

/-- What a request for memory leaves of a level, the space and the live grants. -/
structure Serves (C : List Holder) (s : AddressSpace) (live : List Grant) (size alignment : Nat)
    (answer : Option Nat) (l' : Level) (s' : AddressSpace) : Prop where
  proper : l'.Proper
  owned : Owned (l'.holders ++ C) s' (Grant.add live size answer)
  agrees : Memory.Agrees live s.memory s'.memory
  aligned : ∀ address, answer = some address → alignment ∣ address

/-- The request made of the system where no pool serves it. -/
def allocateLarge (l : Level) (size alignment : Nat) :
    StateM AddressSpace (Except Corruption (Option Nat) × Level) := do
  match ← (l.large.allocate size alignment).run with
  | .ok (address, large) => return (.ok (some address), { l with large })
  | .error _ => return (.ok none, l)

theorem holders_insertLarge {a : LargeAllocation} (total : Nat)
    (ha : l.large.entries.find? a.buffer.base = none) :
    (holders { l with large := ⟨l.large.entries.insert a.buffer.base a, total⟩ }).Perm
      (.large a :: l.holders) := by
  have hvalues := l.large.entries.values_insert_perm a.buffer.base a
  rw [SortedMap.erase_of_find?_none ha] at hvalues
  exact ((hvalues.map Holder.large).append_left _).trans List.perm_middle

theorem mem_largeHolders {a : LargeAllocation} {k : Nat}
    (ha : l.large.entries.find? k = some a) : .large a ∈ l.holders :=
  List.mem_append_right _ (List.mem_map_of_mem (SortedMap.mem_values.2 ⟨k, ha⟩))

theorem allocateLarge_serves (hl : l.Proper) (ho : Owned (l.holders ++ C) s live)
    {alignment : Nat} (hal : IsPowerOfTwo alignment) (size : Nat) :
    ∃ answer l' s', l.allocateLarge size alignment s = ((.ok answer, l'), s') ∧
      Serves C s live size alignment answer l' s' := by
  rcases ho.allocateLarge l.large hal size with
    ⟨e, s', hrun, ho', hagrees⟩ | ⟨a, total, s', hrun, hdvd, ho', hagrees⟩
  · refine ⟨none, l, s', ?_, hl, ho', hagrees, fun _ h => nomatch h⟩
    simp only [allocateLarge, ExceptT.run, bind, StateT.bind, hrun]
    rfl
  · have hfresh : l.large.entries.find? a.buffer.base = none := by
      refine Option.eq_none_iff_forall_ne_some.2 fun c hc => ?_
      exact ho'.base_ne (List.mem_append_left C (mem_largeHolders hc)) (hl.based _ _ hc)
    refine ⟨some a.buffer.base,
      { l with large := ⟨l.large.entries.insert a.buffer.base a, total⟩ }, s', ?_,
      ⟨hl.indexed, hl.fit, hl.large_keyed.insert rfl, hl.valid⟩,
      ?_, hagrees, ?_⟩
    · simp only [allocateLarge, ExceptT.run, bind, StateT.bind, hrun]
      rfl
    · exact ho'.perm ((holders_insertLarge total hfresh).append_right C).symm
    · rintro _ ⟨⟩
      exact hdvd

theorem allocate_serves (hl : l.Proper) (ho : Owned (l.holders ++ C) s live) (size : Nat)
    (a : Affinity) : ∃ answer l' s', l.allocate size a s = ((.ok answer, l'), s') ∧
      Serves C s live size (l.poolOf a).alignment answer l' s' := by
  obtain ⟨hp, ha⟩ := hl.fit a
  have ho' := owned_poolOf ho a
  have hback : ∀ {p' : Pool} {s' : AddressSpace} {answer : Option Nat},
      (l.poolOf a).Serves (l.rest a ++ C) s live size answer p' s' →
        (l.withPool p').Proper ∧
          Owned ((l.withPool p').holders ++ C) s' (Grant.add live size answer) := by
    intro p' s' answer h
    refine ⟨hl.withPool h.proper, h.owned.perm ?_⟩
    rw [← List.append_assoc]
    have hperm := l.holders_withPool p'
    rw [h.like.affinity, ha] at hperm
    exact hperm.symm.append_right C
  have hlarge : ∀ {p' : Pool} {s' : AddressSpace},
      (l.poolOf a).Serves (l.rest a ++ C) s live size none p' s' →
        l.allocate size a s = (l.withPool p').allocateLarge size p'.alignment s' →
        ∃ answer l' t, l.allocate size a s = ((.ok answer, l'), t) ∧
          Serves C s live size (l.poolOf a).alignment answer l' t := by
    intro p' s' h hrun
    obtain ⟨hproper, howned⟩ := hback h
    obtain ⟨answer, l', t, hrun', hserves⟩ :=
      allocateLarge_serves hproper howned h.proper.power size
    exact ⟨answer, l', t, hrun.trans hrun', hserves.proper, hserves.owned,
      h.agrees.trans hserves.agrees, h.like.alignment ▸ hserves.aligned⟩
  rcases Pool.allocate_serves hp ho' size with
    ⟨e, p', s', hrun, hne, hserves⟩ | ⟨answer, p', s', hrun, hserves⟩
  · refine hlarge hserves ?_
    simp only [allocate, bind, StateT.bind, hrun]
    cases e with
    | corruption c => exact absurd rfl (hne c)
    | _ => rfl
  · cases answer with
    | none =>
        refine hlarge hserves ?_
        simp only [allocate, bind, StateT.bind, hrun]
        rfl
    | some address =>
        obtain ⟨hproper, howned⟩ := hback hserves
        refine ⟨some address, l.withPool p', s', ?_, hproper, howned, hserves.agrees,
          hserves.aligned⟩
        simp only [allocate, bind, StateT.bind, hrun]
        rfl

structure Releases (C : List Holder) (s : AddressSpace) (live : List Grant) (g : Grant)
    (l' : Level) (s' : AddressSpace) : Prop where
  proper : l'.Proper
  owned : Owned (l'.holders ++ C) s' (live.erase g)
  agrees : Memory.Agrees (live.erase g) s.memory s'.memory

theorem Proper.withPool_holders (hl : l.Proper) (hp : p ∈ l.pools.values)
    (hlike : p.Like p') : (l.withPool p').holders.Perm (p'.holders ++ l.rest p.affinity) ∧
      l.holders.Perm (p.holders ++ l.rest p.affinity) := by
  constructor
  · rw [← hlike.affinity]
    exact l.holders_withPool p'
  · have hperm := l.holders_poolOf p.affinity
    rwa [Indexed.poolOf_of_mem hl.indexed hp] at hperm

theorem Proper.pool_proper (hl : l.Proper) (hp : p ∈ l.pools.values) : p.Proper := by
  have h := (hl.fit p.affinity).1
  rwa [Indexed.poolOf_of_mem hl.indexed hp] at h

theorem deallocateAmong_cases (hl : l.Proper) (ho : Owned (l.holders ++ C) s live) (hg : g ∈ live)
    {pools : List Pool} (hpools : ∀ p ∈ pools, p ∈ l.pools.values) :
    (deallocateAmong g.address g.size pools l s = ((.ok false, l), s) ∧
        ∀ p ∈ pools, ∀ h ∈ p.holders, ¬ h.region.Holds g.address) ∨
      ∃ l' s', deallocateAmong g.address g.size pools l s = ((.ok true, l'), s') ∧
        (∃ p ∈ pools, ∃ h ∈ p.holders, h.region.Holds g.address) ∧ Releases C s live g l' s' := by
  induction pools with
  | nil => exact .inl ⟨rfl, fun p hp => absurd hp List.not_mem_nil⟩
  | cons p rest ih =>
      have hp := hpools p (List.mem_cons_self ..)
      have ho' : Owned (p.holders ++ (l.rest p.affinity ++ C)) s live := by
        rw [← List.append_assoc]
        exact ho.perm ((hl.withPool_holders hp (.refl p)).2.append_right C)
      rcases Pool.deallocate_cases (hl.pool_proper hp) ho' hg with
        ⟨hrun, hnone⟩ | ⟨p', s', hrun, hholds, hreleases⟩
      · have hstart : deallocateAmong g.address g.size (p :: rest) l s =
            deallocateAmong g.address g.size rest l s := by
          simp only [deallocateAmong, bind, StateT.bind, hrun]
        rw [hstart]
        rcases ih fun q hq => hpools q (List.mem_cons_of_mem _ hq) with
          ⟨hrest, hall⟩ | ⟨l', s', hrest, ⟨q, hq, hholds⟩, hreleases⟩
        · refine .inl ⟨hrest, fun q hq => ?_⟩
          rcases List.mem_cons.1 hq with rfl | hq
          · exact hnone
          · exact hall q hq
        · exact .inr ⟨l', s', hrest, ⟨q, List.mem_cons_of_mem _ hq, hholds⟩, hreleases⟩
      · refine .inr ⟨l.withPool p', s', ?_, ⟨p, List.mem_cons_self .., hholds⟩,
          hl.withPool hreleases.proper,
          hreleases.owned.perm ?_, hreleases.agrees⟩
        · simp only [deallocateAmong, bind, StateT.bind, hrun]
          rfl
        · rw [← List.append_assoc]
          exact ((hl.withPool_holders hp hreleases.like).1.append_right C).symm

theorem holders_eraseLarge {a : LargeAllocation} {k : Nat} (total : Nat)
    (ha : l.large.entries.find? k = some a) :
    l.holders.Perm
      (.large a :: holders { l with large := ⟨l.large.entries.erase k, total⟩ }) :=
  (((SortedMap.values_perm ha).map Holder.large).append_left _).trans List.perm_middle

theorem deallocate_cases (hl : l.Proper) (ho : Owned (l.holders ++ C) s live) (hg : g ∈ live) :
    (l.deallocate g.address g.size s = ((.ok false, l), s) ∧
        ∀ h ∈ l.holders, ¬ h.region.Holds g.address) ∨
      ∃ l' s', l.deallocate g.address g.size s = ((.ok true, l'), s') ∧
        (∃ h ∈ l.holders, h.region.Holds g.address) ∧ Releases C s live g l' s' := by
  rcases deallocateAmong_cases hl ho hg (fun _ h => h) with
    ⟨hrun, hnone⟩ | ⟨l', s', hrun, ⟨p, hp, h, hh, hgh⟩, hreleases⟩
  · have hstart : l.deallocate g.address g.size s = match l.large.release g.address s with
        | ((released, large), s) => ((.ok released.isSome, { l with large }), s) := by
      simp only [deallocate, bind, StateT.bind, hrun]
      rfl
    -- No pool owns the pointer; a large allocation does if it starts there.
    cases hfind : l.large.entries.find? g.address with
    | none =>
        refine .inl ⟨?_, fun h hh hgh => ?_⟩
        · simp only [hstart, LargeAllocations.release, hfind]
          rfl
        · rcases List.mem_append.1 hh with hh | hh
          · obtain ⟨p, hp, hh⟩ := List.mem_flatMap.1 hh
            exact hnone p hp h hh hgh
          · obtain ⟨a, ha, rfl⟩ := List.mem_map.1 hh
            obtain ⟨k, hk⟩ := SortedMap.mem_values.1 ha
            have ho' := ho.perm ((holders_eraseLarge 0 hk).append_right C)
            have hbase := (ho'.releaseLarge hg hgh).1
            rw [hbase, hl.based k a hk, hk] at hfind
            cases hfind
    | some a =>
        let total := l.large.totalBytes - a.memorySize
        have hperm := (holders_eraseLarge total hfind).append_right C
        have hmem : Holder.large a ∈ l.holders ++ C :=
          List.mem_append_left C (mem_largeHolders hfind)
        have hholds : a.buffer.region.Holds g.address := by
          have hbase : a.buffer.region.base = g.address := hl.based _ _ hfind
          exact hbase ▸ ho.sound.holds_base (ho.held _ hmem)
        obtain ⟨-, howned⟩ := (ho.perm hperm).releaseLarge hg hholds
        refine .inr ⟨{ l with large := ⟨l.large.entries.erase g.address, total⟩ },
          (a.buffer.giveBack s).2, ?_, ⟨_, mem_largeHolders hfind, hholds⟩,
          ⟨hl.indexed, hl.fit, hl.large_keyed.erase _, hl.valid⟩,
          howned, fun _ _ _ _ => rfl⟩
        simp only [hstart, LargeAllocations.release, hfind]
        rfl
  · refine .inr ⟨l', s', ?_, ⟨h, List.mem_append_left _ (List.mem_flatMap.2 ⟨p, hp, hh⟩), hgh⟩,
      hreleases⟩
    simp only [deallocate, bind, StateT.bind, hrun]
    rfl

theorem reclaimAmong_owned {pools : List Pool} (hl : l.Proper)
    (ho : Owned (l.holders ++ C) s live) (hpools : ∀ p ∈ pools, p ∈ l.pools.values)
    (hdistinct : pools.Pairwise fun p q => p.affinity ≠ q.affinity) :
    ∃ n l' s', reclaimAmong pools l s = ((n, l'), s') ∧ l'.Proper ∧
      Owned (l'.holders ++ C) s' live ∧ s'.memory = s.memory := by
  induction pools generalizing l s with
  | nil => exact ⟨0, l, s, rfl, hl, ho, rfl⟩
  | cons p rest ih =>
      obtain ⟨hp, hdistinct⟩ := List.pairwise_cons.1 hdistinct
      have hmem := hpools p (List.mem_cons_self ..)
      have ho' : Owned (p.holders ++ (l.rest p.affinity ++ C)) s live := by
        rw [← List.append_assoc]
        exact ho.perm ((hl.withPool_holders hmem (.refl p)).2.append_right C)
      obtain ⟨n, p', t, hrun, hp', hlike, howned, hmemory⟩ :=
        Pool.reclaim_owned (hl.pool_proper hmem) ho'
      have hback : Owned ((l.withPool p').holders ++ C) t live := by
        refine howned.perm ?_
        rw [← List.append_assoc]
        exact ((hl.withPool_holders hmem hlike).1.append_right C).symm
      obtain ⟨k, l', s', hrest, hl', howned', hmemory'⟩ := ih (hl.withPool hp') hback
        -- No two pools have one affinity, so that those to come are still in the level.
        (fun q hq => by
          refine SortedMap.mem_values.2 ⟨q.affinity.index, ?_⟩
          have hne : p'.affinity.index ≠ q.affinity.index := fun heq =>
            hp q hq (hlike.affinity.symm.trans (Affinity.index_injective heq))
          rw [find?_withPool, if_neg hne]
          exact SortedMap.Keyed.find?_of_mem hl.indexed (hpools q (List.mem_cons_of_mem _ hq)))
        hdistinct
      refine ⟨n + k, l', s', ?_, hl', howned', hmemory'.trans hmemory⟩
      simp only [reclaimAmong, bind, StateT.bind, hrun, hrest]
      rfl

theorem reclaim_owned (hl : l.Proper) (ho : Owned (l.holders ++ C) s live) :
    ∃ n l' s', l.reclaim s = ((n, l'), s') ∧ l'.Proper ∧
      Owned (l'.holders ++ C) s' live ∧ s'.memory = s.memory :=
  reclaimAmong_owned hl ho (fun _ h => h) (Indexed.distinct hl.indexed)

theorem find?_ofConfig (h : (ofConfig c).pools.find? k = some p) :
    ∃ q ∈ c.pools, q.affinity.index = k ∧ Pool.ofConfig q c.backend = p := by
  obtain ⟨q, hq, heq⟩ := List.mem_map.1 (SortedMap.mem_of_find?_ofList h)
  obtain ⟨hk, hp⟩ := Prod.mk.inj heq
  exact ⟨q, hq, hk, hp⟩

theorem indexed_ofConfig (c : Config) : (ofConfig c).Indexed := by
  intro k p hp
  obtain ⟨q, -, hk, rfl⟩ := find?_ofConfig hp
  exact hk

theorem ofConfig_proper (hvalid : c.validate = .ok ()) (hnarrow : c.Narrow) :
    (ofConfig c).Proper := by
  obtain ⟨hdefault, hpools⟩ := Config.power_of_validate hvalid
  refine ⟨indexed_ofConfig c, fun a => ⟨?_, (indexed_ofConfig c).poolOf_affinity a⟩,
    fun k a ha => (nomatch ha), hvalid⟩
  cases hp : (ofConfig c).pools.find? a.index with
  | some p =>
      rw [poolOf_of_find? hp]
      obtain ⟨q, hq, -, rfl⟩ := find?_ofConfig hp
      exact Pool.ofConfig_proper (hpools q hq) (hnarrow.pools q hq)
  | none =>
      have hpool : (ofConfig c).poolOf a = Pool.ofConfig (c.pool a) c.backend := by
        rw [poolOf, hp]
        rfl
      rw [hpool]
      rcases c.pool_cases a with hmem | ⟨hbackend, hal⟩
      · exact Pool.ofConfig_proper (hpools _ hmem) (hnarrow.pools _ hmem)
      · refine Pool.ofConfig_proper (hal ▸ hdefault) ?_
        rw [PoolConfig.Narrow, hbackend, hal]
        exact hnarrow.defaults

theorem holders_ofConfig (c : Config) : (ofConfig c).holders = [] := by
  refine List.append_eq_nil_iff.2 ⟨List.flatMap_eq_nil_iff.2 fun p hp => ?_, rfl⟩
  obtain ⟨k, hk⟩ := SortedMap.mem_values.1 hp
  obtain ⟨q, -, -, rfl⟩ := find?_ofConfig hk
  rfl

end Level

end AffinityHeap
