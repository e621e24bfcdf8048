import AffinityHeap.Proofs.Usage
import Mathlib.Data.List.Forall2

namespace AffinityHeap

variable {s : AddressSpace} {m : Memory} {live : List Grant}

/-- Gives all the blocks of a list back. -/
def AddressSpace.unmap (blocks : List Block) (s : AddressSpace) : AddressSpace :=
  (blocks.forM (·.giveBack) s).2

theorem AddressSpace.unmap_append (blocks more : List Block) (s : AddressSpace) :
    unmap (blocks ++ more) s = unmap more (unmap blocks s) := by
  induction blocks generalizing s with
  | nil => rfl
  | cons b blocks ih => exact ih (b.giveBack s).2

namespace Pool

variable {p : Pool}

def swept (p : Pool) : Pool :=
  let blocks := p.blocks.filter fun _ b => !b.isEmpty
  { p with blocks, cached := p.cached.filter blocks.contains }

theorem reclaim_eq (p : Pool) (s : AddressSpace) : p.reclaim s =
    ((sumOf (p.emptyBlocks.map (·.memorySize)), p.swept), s.unmap p.emptyBlocks) := rfl

theorem swept_values (p : Pool) : p.swept.blocks.values = p.blocks.values.filter (!·.isEmpty) :=
  p.blocks.values_filter _

theorem swept_emptyBlocks (p : Pool) : p.swept.emptyBlocks = [] := by
  rw [emptyBlocks, swept_values, List.filter_filter, List.filter_eq_nil_iff]
  intro b _
  cases b.isEmpty <;> decide

theorem swept_swept (p : Pool) : p.swept.swept = p.swept := by
  have hblocks : p.swept.swept.blocks = p.swept.blocks := SortedMap.ext_find? fun k => by
    refine Option.ext fun b => ?_
    simp only [swept, SortedMap.find?_filter, and_assoc, and_self]
  have hcached : p.swept.swept.cached = p.swept.cached := by
    show p.swept.cached.filter p.swept.swept.blocks.contains = p.swept.cached
    rw [hblocks]
    show (p.cached.filter p.swept.blocks.contains).filter p.swept.blocks.contains =
      p.cached.filter p.swept.blocks.contains
    rw [Option.filter_filter]
    simp only [Bool.and_self]
  show { p.swept with blocks := p.swept.swept.blocks, cached := p.swept.swept.cached } = p.swept
  rw [hblocks, hcached]

theorem swept_memorySize (m : Memory) (p : Pool) :
    sumOf (p.emptyBlocks.map (·.memorySize)) + (p.swept.stats m).memorySize =
      (p.stats m).memorySize := by
  simp only [PoolStats.memorySize, stats, List.map_map, Function.comp_def, Block.stats_memorySize,
    swept_values]
  exact sumOf_filter_add (·.isEmpty) (·.memorySize) p.blocks.values

theorem swept_reservedSize (hp : ∀ b ∈ p.emptyBlocks, (b.stats m).reservedSize = 0) :
    (p.swept.stats m).reservedSize = (p.stats m).reservedSize := by
  have hempty : sumOf (p.emptyBlocks.map fun b => (b.stats m).reservedSize) = 0 := by
    refine sumOf_eq_zero fun n hn => ?_
    obtain ⟨b, hb, rfl⟩ := List.mem_map.1 hn
    exact hp b hb
  have hparts := sumOf_filter_add (·.isEmpty) (fun b : Block => (b.stats m).reservedSize)
    p.blocks.values
  rw [emptyBlocks] at hempty
  rw [hempty, Nat.zero_add] at hparts
  simpa only [PoolStats.reservedSize, stats, List.map_map, Function.comp_def, swept_values]
    using hparts

/-- The blocks with a live grant are left, and the cache names none of the others. -/
structure SweptTo (live : List Grant) (p p' : Pool) : Prop where
  settings : p'.emptied = p.emptied
  blocks : ∀ base b, p'.blocks.find? base = some b ↔
    p.blocks.find? base = some b ∧ Grant.within live b.region ≠ []
  cached : ∀ base, p'.cached = some base → ∃ b, p'.blocks.find? base = some b

theorem sweptTo (hp : ∀ b ∈ p.blocks.values, b.isEmpty = true ↔ Grant.within live b.region = []) :
    SweptTo live p p.swept := by
  refine ⟨rfl, fun base b => ?_, fun base hbase => ?_⟩
  · refine SortedMap.find?_filter.trans (and_congr_right fun hb => ?_)
    rw [Bool.not_eq_true', ← Bool.not_eq_true, hp b (SortedMap.mem_values.2 ⟨base, hb⟩)]
  · exact Option.isSome_iff_exists.1 (Option.filter_eq_some_iff.1 hbase).2

end Pool

namespace Level

variable {l : Level} {p : Pool} {pools : List Pool}

def emptyBlocks (l : Level) : List Block := l.pools.values.flatMap Pool.emptyBlocks

def swept (l : Level) : Level := { l with pools := l.pools.map Pool.swept }

def sweepAll (pools : List Pool) (l : Level) : Level :=
  pools.foldl (fun l p => l.withPool p.swept) l

theorem reclaimAmong_eq (pools : List Pool) (l : Level) (s : AddressSpace) :
    reclaimAmong pools l s = ((sumOf ((pools.flatMap Pool.emptyBlocks).map (·.memorySize)),
      l.sweepAll pools), s.unmap (pools.flatMap Pool.emptyBlocks)) := by
  induction pools generalizing l s with
  | nil => rfl
  | cons p rest ih =>
      simp only [reclaimAmong, bind, StateT.bind, p.reclaim_eq, ih, List.flatMap_cons,
        List.map_append, sumOf_append, AddressSpace.unmap_append]
      rfl

theorem sweepAll_settings (pools : List Pool) (l : Level) :
    l.sweepAll pools = { l with pools := (l.sweepAll pools).pools } := by
  induction pools generalizing l with
  | nil => rfl
  | cons p rest ih => exact ih (l.withPool p.swept)

theorem find?_sweepAll {k : Nat} (hk : ∀ p ∈ pools, p.affinity.index ≠ k) :
    (l.sweepAll pools).pools.find? k = l.pools.find? k := by
  induction pools generalizing l with
  | nil => rfl
  | cons p rest ih =>
      refine (ih fun q hq => hk q (List.mem_cons_of_mem p hq)).trans ?_
      rw [find?_withPool]
      exact if_neg (hk p (List.mem_cons_self ..))

theorem find?_sweepAll_of_mem (hdistinct : pools.Pairwise fun p q => p.affinity ≠ q.affinity)
    (hp : p ∈ pools) : (l.sweepAll pools).pools.find? p.affinity.index = some p.swept := by
  induction pools generalizing l with
  | nil => cases hp
  | cons q rest ih =>
      obtain ⟨hq, hdistinct⟩ := List.pairwise_cons.1 hdistinct
      rcases List.mem_cons.1 hp with rfl | hp
      · show ((l.withPool p.swept).sweepAll rest).pools.find? _ = _
        rw [find?_sweepAll fun r hr heq => hq r hr (Affinity.index_injective heq).symm,
          find?_withPool]
        exact if_pos rfl
      · exact ih hdistinct hp

theorem sweepAll_values (hl : l.Indexed) : l.sweepAll l.pools.values = l.swept := by
  rw [sweepAll_settings, swept]
  congr 1
  refine SortedMap.ext_find? fun k => ?_
  rw [SortedMap.find?_map]
  cases hfind : l.pools.find? k with
  | some p =>
      have hindex : p.affinity.index = k := hl k p hfind
      have hp : p ∈ l.pools.values := SortedMap.mem_values.2 ⟨k, hfind⟩
      rw [← hindex, find?_sweepAll_of_mem hl.distinct hp]
      rfl
  | none =>
      refine (find?_sweepAll fun p hp heq => ?_).trans hfind
      have hfound := SortedMap.Keyed.find?_of_mem hl hp
      rw [heq, hfind] at hfound
      cases hfound

theorem reclaim_eq (hl : l.Indexed) (s : AddressSpace) : l.reclaim s =
    ((sumOf (l.emptyBlocks.map (·.memorySize)), l.swept), s.unmap l.emptyBlocks) := by
  rw [reclaim, reclaimAmong_eq, sweepAll_values hl]
  rfl

theorem swept_pools (l : Level) : l.swept.pools.values = l.pools.values.map Pool.swept :=
  SortedMap.values_map ..

theorem swept_emptyBlocks (l : Level) : l.swept.emptyBlocks = [] := by
  rw [emptyBlocks, swept_pools, List.flatMap_eq_nil_iff]
  intro p hp
  obtain ⟨q, -, rfl⟩ := List.mem_map.1 hp
  exact q.swept_emptyBlocks

theorem swept_swept (l : Level) : l.swept.swept = l.swept := by
  have hpools : l.swept.swept.pools = l.swept.pools := SortedMap.ext_find? fun k => by
    simp only [swept, SortedMap.find?_map, Option.map_map, Function.comp_def, Pool.swept_swept]
  show { l.swept with pools := l.swept.swept.pools } = l.swept
  rw [hpools]

theorem Indexed.swept (hl : l.Indexed) : l.swept.Indexed := by
  intro k p hp
  rw [Level.swept, SortedMap.find?_map] at hp
  obtain ⟨q, hq, rfl⟩ := Option.map_eq_some_iff.1 hp
  exact hl k q hq

theorem swept_memorySize (m : Memory) (l : Level) :
    sumOf (l.emptyBlocks.map (·.memorySize)) + (l.swept.stats m).memorySize =
      (l.stats m).memorySize := by
  simp only [LevelStats.memorySize, stats, swept_pools, emptyBlocks, List.map_flatMap,
    sumOf_flatMap, List.map_map, Function.comp_def]
  rw [← Nat.add_assoc, ← sumOf_map_add]
  simp only [Pool.swept_memorySize]
  rfl

theorem swept_reservedSize (hl : ∀ b ∈ l.emptyBlocks, (b.stats m).reservedSize = 0) :
    (l.swept.stats m).reservedSize = (l.stats m).reservedSize := by
  have hpools : ∀ p ∈ l.pools.values,
      (p.swept.stats m).reservedSize = (p.stats m).reservedSize := fun p hp =>
    Pool.swept_reservedSize fun b hb => hl b (List.mem_flatMap.2 ⟨p, hp, hb⟩)
  simp only [LevelStats.reservedSize, stats, swept_pools, List.map_map, Function.comp_def]
  rw [List.map_congr_left hpools]
  rfl

/-- Every pool is swept and nothing else of the level changes. -/
structure SweptTo (live : List Grant) (l l' : Level) : Prop where
  config : l'.config = l.config
  backend : l'.backend = l.backend
  large : l'.large = l.large
  keys : l'.pools.keys = l.pools.keys
  pools : ∀ k p', l'.pools.find? k = some p' →
    ∃ p, l.pools.find? k = some p ∧ Pool.SweptTo live p p'

theorem sweptTo (hl : ∀ p ∈ l.pools.values, ∀ b ∈ p.blocks.values,
    b.isEmpty = true ↔ Grant.within live b.region = []) : SweptTo live l l.swept := by
  refine ⟨rfl, rfl, rfl, SortedMap.keys_map .., fun k p' hp' => ?_⟩
  rw [swept, SortedMap.find?_map] at hp'
  obtain ⟨p, hp, rfl⟩ := Option.map_eq_some_iff.1 hp'
  exact ⟨p, hp, Pool.sweptTo (hl p (SortedMap.mem_values.2 ⟨k, hp⟩))⟩

/-- Where nothing is live a sweep leaves nothing. -/
theorem Booked.swept_memorySize_eq_zero (hl : l.Booked) (hnone : ∀ h ∈ l.holders, h.Keeps m []) :
    (l.swept.stats m).memorySize = 0 := by
  have hpools : sumOf (l.pools.values.map fun p => (p.swept.stats m).memorySize) = 0 := by
    refine sumOf_eq_zero fun n hn => ?_
    obtain ⟨p, hp, rfl⟩ := List.mem_map.1 hn
    have hswept : p.swept.blocks.values = [] := by
      rw [Pool.swept_values, List.filter_eq_nil_iff]
      intro b hb
      have hempty : b.isEmpty = true :=
        (Block.Keeps.accounted (hnone _ (mem_holders hp hb))).empty.2 rfl
      simp [hempty]
    simp only [PoolStats.memorySize, Pool.stats, hswept]
    rfl
  simp only [LevelStats.memorySize, stats, swept_pools, List.map_map, Function.comp_def, hpools]
  exact (Nat.zero_add _).trans (hl.largeBytes_eq_zero hnone)

end Level

namespace Allocator

variable {a : Allocator} {levels : List Level}

def emptyBlocks (a : Allocator) : List Block := a.levels.flatMap Level.emptyBlocks

def swept (a : Allocator) : Allocator := ⟨a.outer.swept, a.nested.map Level.swept⟩

theorem reclaimIn_eq (hl : ∀ l ∈ levels, l.Indexed) (s : AddressSpace) : reclaimIn levels s =
    ((sumOf ((levels.flatMap Level.emptyBlocks).map (·.memorySize)), levels.map Level.swept),
      s.unmap (levels.flatMap Level.emptyBlocks)) := by
  induction levels generalizing s with
  | nil => rfl
  | cons l rest ih =>
      have hrest := ih fun k hk => hl k (List.mem_cons_of_mem l hk)
      simp only [reclaimIn, bind, StateT.bind, Level.reclaim_eq (hl l (List.mem_cons_self ..)),
        hrest, List.flatMap_cons, List.map_append, sumOf_append, AddressSpace.unmap_append]
      rfl

theorem reclaim_eq (ha : ∀ l ∈ a.levels, l.Indexed) (s : AddressSpace) : a.reclaim s =
    ((sumOf (a.emptyBlocks.map (·.memorySize)), a.swept), s.unmap a.emptyBlocks) :=
  reclaim_of_levels (reclaimIn_eq ha s)

theorem swept_levels (a : Allocator) : a.swept.levels = a.levels.map Level.swept := rfl

theorem swept_emptyBlocks (a : Allocator) : a.swept.emptyBlocks = [] := by
  rw [emptyBlocks, swept_levels, List.flatMap_eq_nil_iff]
  intro l hl
  obtain ⟨k, -, rfl⟩ := List.mem_map.1 hl
  exact k.swept_emptyBlocks

theorem swept_memorySize (m : Memory) (a : Allocator) :
    sumOf (a.emptyBlocks.map (·.memorySize)) + (a.swept.stats m).memorySize =
      (a.stats m).memorySize := by
  simp only [HeapStats.memorySize, stats_levels, swept_levels, emptyBlocks, List.map_flatMap,
    sumOf_flatMap, List.map_map, Function.comp_def]
  rw [← sumOf_map_add]
  simp only [Level.swept_memorySize]

theorem swept_reservedSize (ha : ∀ b ∈ a.emptyBlocks, (b.stats m).reservedSize = 0) :
    (a.swept.stats m).reservedSize = (a.stats m).reservedSize := by
  have hsame : ∀ l ∈ a.levels, (l.swept.stats m).reservedSize = (l.stats m).reservedSize :=
    fun l hl => Level.swept_reservedSize fun b hb => ha b (List.mem_flatMap.2 ⟨l, hl, hb⟩)
  simp only [HeapStats.reservedSize, stats_levels, swept_levels, List.map_map, Function.comp_def]
  rw [List.map_congr_left hsame]

theorem swept_swept (a : Allocator) : a.swept.swept = a.swept := by
  simp only [swept, Level.swept_swept, List.map_map, Function.comp_def]

/-- A second sweep finds nothing. -/
theorem swept_reclaim (ha : ∀ l ∈ a.levels, l.Indexed) (s : AddressSpace) :
    a.swept.reclaim s = ((0, a.swept), s) := by
  have hindexed : ∀ l ∈ a.swept.levels, l.Indexed := fun l hl => by
    obtain ⟨k, hk, rfl⟩ := List.mem_map.1 (a.swept_levels ▸ hl)
    exact (ha k hk).swept
  rw [reclaim_eq hindexed, swept_emptyBlocks, swept_swept]
  rfl

end Allocator

namespace Chain

variable {front levels : List Level} {l : Level} {p : Pool} {b : Block} {live : List Issued}
  {i : Issued} {h : Holder}

/-- What a level holds was issued by no level in front of it. -/
theorem level_ge (hc : Chain (front ++ levels) s live) (hi : i ∈ live) (hl : l ∈ levels)
    (hh : h ∈ l.holders) (hih : h.region.Holds i.address) : front.length ≤ i.level := by
  obtain ⟨k, hk, h', hh', hih'⟩ := hc.issued i hi
  obtain ⟨near, far, rfl⟩ := List.append_of_mem hl
  rw [← List.append_assoc] at hc hk
  refine Nat.not_lt.1 fun hlt => ?_
  have hne : i.level ≠ (front ++ near).length := by
    rw [List.length_append]
    omega
  exact hc.not_holds_others ⟨h, hh, hih⟩ k (mem_others hne hk) h' hh' hih'

theorem keeps (hc : Chain (front ++ levels) s live) (hl : l ∈ levels) (hh : h ∈ l.holders) :
    h.Keeps s.memory (Grant.within (Issued.grants live) h.region) :=
  hc.owned.keeps h (List.mem_flatMap.2 ⟨l, List.mem_append_right front hl, hh⟩)

theorem keeps_nil (hc : Chain (front ++ levels) s live) (hnone : ∀ i ∈ live, i.level < front.length)
    (hl : l ∈ levels) (hh : h ∈ l.holders) : h.Keeps s.memory [] := by
  have hempty : Grant.within (Issued.grants live) h.region = [] := by
    refine List.eq_nil_iff_forall_not_mem.2 fun g hg => ?_
    obtain ⟨hlive, hgh⟩ := Grant.mem_within.1 hg
    obtain ⟨i, hi, rfl⟩ := Issued.mem_grants.1 hlive
    exact absurd (hnone i hi) (Nat.not_lt.2 (hc.level_ge hi hl hh hgh))
  rw [← hempty]
  exact hc.keeps hl hh

theorem isEmpty_iff (hc : Chain (front ++ levels) s live) (hl : l ∈ levels)
    (hp : p ∈ l.pools.values) (hb : b ∈ p.blocks.values) :
    b.isEmpty = true ↔ Grant.within (Issued.grants live) b.region = [] :=
  (Block.Keeps.accounted (hc.keeps hl (Level.mem_holders hp hb))).empty

theorem reservedSize_eq_zero (hc : Chain (front ++ levels) s live)
    (hb : b ∈ levels.flatMap Level.emptyBlocks) : (b.stats s.memory).reservedSize = 0 := by
  obtain ⟨l, hl, hb⟩ := List.mem_flatMap.1 hb
  obtain ⟨p, hp, hb⟩ := List.mem_flatMap.1 hb
  obtain ⟨hb, hempty⟩ := List.mem_filter.1 hb
  have hkeeps : b.Keeps s.memory (Grant.within (Issued.grants live) b.region) :=
    hc.keeps hl (Level.mem_holders hp hb)
  rw [hkeeps.eq_nil_of_isEmpty hempty] at hkeeps
  exact hkeeps.reservedSize_eq_zero

end Chain

namespace HeapSession

variable {s : HeapSession} {a : Allocator} {level : Nat}

/-- A sweep of an allocator that has `level` others in front of it. -/
structure Sweep (s : HeapSession) (level : Nat) (a : Allocator) (released : Nat) (a' : Allocator)
    (space : AddressSpace) : Prop where
  run : a.reclaim s.space = ((released, a'), space)
  memory : space.memory = s.space.memory
  released : released + (a'.stats s.space.memory).memorySize = (a.stats s.space.memory).memorySize
  reserved : (a'.stats s.space.memory).reservedSize = (a.stats s.space.memory).reservedSize
  levels : List.Forall₂ (Level.SweptTo s.grants) a.levels a'.levels
  again : a'.reclaim space = ((0, a'), space)
  idle : (∀ i ∈ s.live, i.level < level) → (a'.stats s.space.memory).memorySize = 0
  applied : s.apply (.call level .reclaim) = .ok ⟨s.allocator.replaceInner level a', space, s.live⟩
  safe : Promises ⟨s.allocator.replaceInner level a', space, s.live⟩

/-- The allocator can be swept at every nesting level. -/
def Sweeps (s : HeapSession) : Prop := ∀ level a, s.allocator.inner level = some a →
  ∃ released a' space, s.Sweep level a released a' space

theorem Kept.sweeps (hk : s.Kept) (hl : ∀ l ∈ s.allocator.levels, l.Booked) : s.Sweeps := by
  intro level a ha
  obtain ⟨front', -, hlevels, -⟩ := Allocator.levels_inner ha
  obtain ⟨front, rfl, hc, hreplace⟩ := hk.inner ha
  have hbooked : ∀ l ∈ a.levels, l.Booked := fun l hmem =>
    hl l (hlevels ▸ List.mem_append_right front' hmem)
  have hindexed : ∀ l ∈ a.levels, l.Indexed := fun l hmem => (hbooked l hmem).indexed
  obtain ⟨n, a', space, hrun, hc', hmemory⟩ := exists_reclaim (s := { s with allocator := a }) hc
  -- The chain says that the sweep keeps the invariant; the equation, what is left of each level.
  have hswept := (Allocator.reclaim_eq hindexed s.space).symm.trans hrun
  obtain ⟨rfl, rfl⟩ := Prod.mk.inj (Prod.mk.inj hswept).1
  refine ⟨_, _, space, hrun, hmemory, a.swept_memorySize _,
    Allocator.swept_reservedSize fun b hb => hc.reservedSize_eq_zero hb, ?_,
    Allocator.swept_reclaim hindexed space, fun hnone => sumOf_eq_zero fun n hn => ?_, ?_,
    Kept.promises ?_⟩
  · rw [Allocator.swept_levels, List.forall₂_map_right_iff, List.forall₂_same]
    exact fun l hmem => Level.sweptTo fun p hp b hb => hc.isEmpty_iff hmem hp hb
  · rw [Allocator.stats_levels, Allocator.swept_levels, List.map_map, List.map_map] at hn
    obtain ⟨l, hmem, rfl⟩ := List.mem_map.1 hn
    exact (hbooked l hmem).swept_memorySize_eq_zero fun h hh => hc.keeps_nil hnone hmem hh
  · simp only [HeapSession.apply, ha, serve, hrun]
  · rw [Kept, hreplace]
    exact hc'

theorem run_sweeps {policy : Policy} (hfair : (AddressSpace.new policy).Fair) {c : Config}
    (hvalid : c.validate = .ok ()) (hnarrow : c.Narrow) {requests : List HeapRequest}
    (hr : (start c (.new policy)).ProperRun requests) :
    ∃ s, (start c (.new policy)).run requests = .ok s ∧ s.Sweeps := by
  obtain ⟨s, hrun, hk, hl⟩ := run_booked hfair hvalid hnarrow hr
  exact ⟨s, hrun, hk.sweeps hl⟩

theorem run_sweeps_small :
    ∃ s, (start .default (.new (.sideBySide false 16 0x100000000))).run
      [.call 0 (.allocate 48 .nodes), .wrap (.withBackend .segment), .call 1 (.allocate 0 .data),
        .call 0 (.allocate 200000 .data), .call 0 (.setAlignment .data 64)] = .ok s ∧ s.Sweeps := by
  refine run_sweeps (AddressSpace.sideBySide_fair (isPowerOfTwo_iff.2 ⟨4, rfl⟩) false _)
    (by decide) ⟨by decide, by decide⟩ ?_
  refine ⟨fun _ _ => trivial, fun _ _ => ⟨⟨by decide, by decide, by decide⟩, fun _ _ => ?_⟩⟩
  exact ⟨fun _ _ => trivial, fun _ _ => ⟨fun _ _ => trivial, fun _ _ => ⟨fun _ _ _ => by decide,
    fun _ _ => trivial⟩⟩⟩

end HeapSession

end AffinityHeap
