import AffinityHeap.Proofs.Allocator

namespace AffinityHeap

/-- A chain of allocators, the memory behind it and the pointers its clients hold. -/
structure HeapSession where
  allocator : Allocator
  space : AddressSpace
  live : List Issued

inductive AllocatorCall where
  | allocate (size : Nat) (affinity : Affinity)
  | release (grant : Grant)
  | setBlockSize (affinity : Affinity) (blockSize : Nat)
  | setAlignment (affinity : Affinity) (alignment : Nat)
  | configurePool (settings : PoolConfig)
  | reclaim
  deriving DecidableEq

/-- A call names the allocator it is made on by the number of allocators in front of it. -/
inductive HeapRequest where
  | call (level : Nat) (c : AllocatorCall)
  | write (grant : Grant) (offset : Nat) (bytes : List UInt8)
  | wrap (c : Config)
  deriving DecidableEq

namespace AllocatorCall

/-- A release is made on the allocator that issued the pointer or on one in front of it, and slot
blocks are asked for alignments that their headers can hold. -/
def Proper (level : Nat) (b : Allocator) (live : List Issued) : AllocatorCall → Prop
  | release g => ∃ i ∈ live, i.toGrant = g ∧ level ≤ i.level
  | setAlignment affinity alignment =>
      (b.outer.poolOf affinity).backend = .slot → alignment < 131072
  | configurePool settings => settings.Narrow b.outer.config.backend
  | _ => True

end AllocatorCall

namespace HeapSession

/-- A call on the allocator of a session, with `level` allocators in front of it. -/
def serve (level : Nat) (s : HeapSession) : AllocatorCall → Except Corruption HeapSession
  | .allocate size affinity =>
      match s.allocator.allocate size affinity s.space with
      | ((.ok answer, allocator), space) =>
          .ok ⟨allocator, space, Issued.add s.live size level answer⟩
      | ((.error e, _), _) => .error e
  | .release g =>
      match s.allocator.deallocate g.address g.size s.space with
      | ((.ok true, allocator), space) => .ok ⟨allocator, space, Issued.withdraw s.live g⟩
      | ((.ok false, allocator), space) => .ok { s with allocator, space }
      | ((.error e, _), _) => .error e
  | .setBlockSize affinity blockSize =>
      .ok { s with allocator := (s.allocator.setBlockSize affinity blockSize).2 }
  | .setAlignment affinity alignment =>
      .ok { s with allocator := (s.allocator.setAlignment affinity alignment).2 }
  | .configurePool settings => .ok { s with allocator := (s.allocator.configurePool settings).2 }
  | .reclaim =>
      match s.allocator.reclaim s.space with
      | ((_, allocator), space) => .ok { s with allocator, space }

def apply (s : HeapSession) : HeapRequest → Except Corruption HeapSession
  | .call level c =>
      match s.allocator.inner level with
      | some b =>
          match serve level { s with allocator := b } c with
          | .ok t => .ok { t with allocator := s.allocator.replaceInner level t.allocator }
          | .error e => .error e
      | none => .ok s
  | .write g offset bytes =>
      .ok { s with space.memory := s.space.memory.setBytes (g.address + offset) bytes }
  | .wrap c =>
      match Allocator.wrap c s.allocator with
      | .ok allocator => .ok { s with allocator, live := s.live.map Issued.deeper }
      | .error _ => .ok s

def grants (s : HeapSession) : List Grant := Issued.grants s.live

end HeapSession

namespace HeapRequest

/-- A call is proper for its allocator, a write stays inside a live grant, and a new allocator has
valid settings. -/
def Proper (s : HeapSession) : HeapRequest → Prop
  | call level c => ∀ b, s.allocator.inner level = some b → c.Proper level b s.live
  | write g offset bytes => g ∈ s.grants ∧ offset + bytes.length ≤ g.size
  | wrap c => c.validate = .ok () ∧ c.Narrow

def Releases (g : Grant) : HeapRequest → Prop
  | call _ (.release k) => k = g
  | _ => False

def IsWrite : HeapRequest → Prop
  | write .. => True
  | _ => False

/-- Byte `i` of the grant after its owner's write, if this is one. -/
def overwrite (g : Grant) (i : Nat) (old : UInt8) : HeapRequest → UInt8
  | write k offset bytes => if k = g ∧ offset ≤ i then bytes.getD (i - offset) old else old
  | _ => old

end HeapRequest

namespace HeapSession

def run : List HeapRequest → HeapSession → Except Corruption HeapSession
  | [], s => .ok s
  | r :: rest, s =>
      match s.apply r with
      | .ok s => run rest s
      | .error e => .error e

def ProperRun : List HeapRequest → HeapSession → Prop
  | [], _ => True
  | r :: rest, s => r.Proper s ∧ ∀ s', s.apply r = .ok s' → ProperRun rest s'

/-- A chain of one allocator, of which nothing has been asked. -/
def start (c : Config) (space : AddressSpace) : HeapSession := ⟨⟨.ofConfig c, []⟩, space, []⟩

/-- The invariant of every run. -/
def Kept (s : HeapSession) : Prop := Chain s.allocator.levels s.space s.live

/-- The grants that two sessions share have the same bytes in both. -/
def Spares (s t : HeapSession) : Prop :=
  Memory.Agrees (s.grants.filter (· ∈ t.grants)) s.space.memory t.space.memory

variable {s t : HeapSession} {front : List Level} {b : Allocator} {level : Nat} {g : Grant}
  {c : AllocatorCall} {r : HeapRequest}

/-- What a call leaves of a session whose allocator has others in front of it. -/
structure Serves (front : List Level) (s : HeapSession) (c : AllocatorCall) (t : HeapSession) :
    Prop where
  run : s.serve front.length c = .ok t
  chain : Chain (front ++ t.allocator.levels) t.space t.live
  spares : s.Spares t
  lasts : ∀ g ∈ s.grants, ¬ (HeapRequest.call front.length c).Releases g → g ∈ t.grants

theorem spares_of_memory (h : t.space.memory = s.space.memory) : s.Spares t := by
  intro g _ i _
  rw [h]

theorem exists_allocate (hc : Chain (front ++ s.allocator.levels) s.space s.live) (size : Nat)
    (affinity : Affinity) : ∃ answer a' space', s.allocator.allocate size affinity s.space =
        ((.ok answer, a'), space') ∧
      Chain (front ++ a'.levels) space' (Issued.add s.live size front.length answer) ∧
      Memory.Agrees s.grants s.space.memory space'.memory ∧ ∀ address,
        answer = some address → (s.allocator.outer.poolOf affinity).alignment ∣ address := by
  obtain ⟨answer, l, space', hrun, hc', hagrees, haligned⟩ := hc.allocate size affinity
  refine ⟨answer, { s.allocator with outer := l }, space', ?_, hc', hagrees, haligned⟩
  simp only [Allocator.allocate, bind, StateT.bind, hrun]
  rfl

theorem exists_reclaim (hc : Chain (front ++ s.allocator.levels) s.space s.live) :
    ∃ n a' space', s.allocator.reclaim s.space = ((n, a'), space') ∧
      Chain (front ++ a'.levels) space' s.live ∧ space'.memory = s.space.memory := by
  obtain ⟨n, levels, space', hrun, hlength, hc', hmemory⟩ := hc.reclaimIn
  cases levels with
  | nil => cases hlength
  | cons outer nested =>
      refine ⟨n, ⟨outer, nested⟩, space', ?_, hc', hmemory⟩
      exact Allocator.reclaim_of_levels hrun

/-- A change of settings keeps every holder. -/
theorem serves_settings (hc : Chain (front ++ s.allocator.levels) s.space s.live) {l : Level}
    (hl : l.Proper ∧ l.holders.Perm s.allocator.outer.holders)
    (hrun : s.serve front.length c = .ok { s with allocator.outer := l }) :
    Serves front s c { s with allocator.outer := l } :=
  ⟨hrun, hc.configure hl, spares_of_memory rfl, fun _ hg _ => hg⟩

/-- One call: it is served, keeps the invariant and spares what it does not release. -/
theorem exists_serves (hc : Chain (front ++ s.allocator.levels) s.space s.live)
    (hp : c.Proper front.length s.allocator s.live) : ∃ t, Serves front s c t := by
  have hproper : s.allocator.outer.Proper := hc.middle.1
  cases c with
  | allocate size affinity =>
      obtain ⟨answer, a', space', hrun, hc', hagrees, -⟩ := exists_allocate hc size affinity
      refine ⟨⟨a', space', Issued.add s.live size front.length answer⟩, ?_, hc', ?_, ?_⟩
      · rw [serve, hrun]
      · exact fun g hg => hagrees g (List.mem_filter.1 hg).1
      · intro g hg _
        rw [grants, Issued.grants_add]
        cases answer with
        | none => exact hg
        | some address => exact List.mem_cons_of_mem _ hg
  | release g =>
      obtain ⟨i, hi, rfl, hlevel⟩ := hp
      obtain ⟨a', space', hsole, hc', hagrees⟩ := hc.deallocate hi hlevel
      have hgrants : grants ⟨a', space', Issued.withdraw s.live i.toGrant⟩ =
          s.grants.erase i.toGrant := Issued.grants_withdraw ..
      refine ⟨⟨a', space', Issued.withdraw s.live i.toGrant⟩, ?_, hc', ?_, ?_⟩
      · rw [serve, hsole.run]
      · intro k hk
        rw [hgrants] at hk
        exact hagrees k (of_decide_eq_true (List.mem_filter.1 hk).2)
      · intro k hk hkeep
        rw [hgrants]
        exact (List.mem_erase_of_ne fun h => hkeep h.symm).2 hk
  | setBlockSize affinity blockSize =>
      exact ⟨_, serves_settings hc (Level.setBlockSize_proper hproper affinity blockSize) rfl⟩
  | setAlignment affinity alignment =>
      exact ⟨_, serves_settings hc (Level.setAlignment_proper hproper affinity hp) rfl⟩
  | configurePool settings =>
      exact ⟨_, serves_settings hc (Level.configurePool_proper hproper settings hp) rfl⟩
  | reclaim =>
      obtain ⟨n, a', space', hrun, hc', hmemory⟩ := exists_reclaim hc
      refine ⟨{ s with allocator := a', space := space' }, ?_, hc', spares_of_memory hmemory,
        fun _ hg _ => hg⟩
      rw [serve, hrun]

namespace Kept

theorem inside (hk : s.Kept) (hg : g ∈ s.grants) :
    ∃ r ∈ s.space.held, r.base ≤ g.address ∧ g.region.stop ≤ r.stop := hk.owned.inside hg

theorem apart (hk : s.Kept) : s.grants.Pairwise fun g k => g.region.Disjoint k.region :=
  hk.owned.apart

theorem disjoint (hk : s.Kept) {k : Grant} (hg : g ∈ s.grants) (hkg : k ∈ s.grants)
    (hne : k ≠ g) : k.region.Disjoint g.region := by
  have : Std.Symm fun g k : Grant => g.region.Disjoint k.region := ⟨fun _ _ => Or.symm⟩
  exact hk.apart.forall hkg hg hne

/-- An inner allocator and the levels in front of it. -/
theorem inner (hk : s.Kept) (hb : s.allocator.inner level = some b) :
    ∃ front : List Level, front.length = level ∧ Chain (front ++ b.levels) s.space s.live ∧
      ∀ b', (s.allocator.replaceInner level b').levels = front ++ b'.levels := by
  obtain ⟨front, hlength, hlevels, hreplace⟩ := Allocator.levels_inner hb
  rw [Kept, hlevels] at hk
  exact ⟨front, hlength, hk, hreplace⟩

/-- One request: it is served, keeps the invariant and every grant it does not release. -/
theorem apply (hk : s.Kept) (hr : r.Proper s) : ∃ t, s.apply r = .ok t ∧ t.Kept ∧
    (¬ r.IsWrite → s.Spares t) ∧ ∀ g ∈ s.grants, ¬ r.Releases g → g ∈ t.grants := by
  cases r with
  | call level c =>
      cases hb : s.allocator.inner level with
      | none =>
          refine ⟨s, ?_, hk, fun _ => spares_of_memory rfl, fun _ hg _ => hg⟩
          simp only [HeapSession.apply, hb]
      | some b =>
          obtain ⟨front, rfl, hc, hreplace⟩ := hk.inner hb
          obtain ⟨t, hserves⟩ := exists_serves (s := { s with allocator := b }) hc (hr b hb)
          refine ⟨{ t with allocator := s.allocator.replaceInner front.length t.allocator }, ?_, ?_,
            fun _ => hserves.spares, hserves.lasts⟩
          · simp only [HeapSession.apply, hb, hserves.run]
          · rw [Kept, hreplace]
            exact hserves.chain
  | write g offset bytes =>
      exact ⟨_, rfl, hk.write hr.1 hr.2, fun h => absurd trivial h, fun _ h _ => h⟩
  | wrap c =>
      obtain ⟨hvalid, hnarrow⟩ := hr
      refine ⟨⟨⟨.ofConfig c, s.allocator.levels⟩, s.space, s.live.map Issued.deeper⟩, ?_,
        hk.wrap hvalid hnarrow, fun _ => spares_of_memory rfl, fun g hg _ => ?_⟩
      · simp only [HeapSession.apply, Allocator.wrap, hvalid]
        rfl
      · rw [grants, Issued.grants_deeper]
        exact hg

/-- What a request leaves of the bytes of a grant. -/
theorem overwrite (hk : s.Kept) (hr : r.Proper s) (hg : g ∈ s.grants) (hkeep : ¬ r.Releases g)
    (hs : s.apply r = .ok t) : g ∈ t.grants ∧ ∀ i < g.size,
      t.space.memory.byte (g.address + i) =
        r.overwrite g i (s.space.memory.byte (g.address + i)) := by
  obtain ⟨t, ht, -, hspares, hlasts⟩ := hk.apply hr
  obtain rfl := Except.ok.inj (hs.symm.trans ht)
  have hgt := hlasts g hg hkeep
  refine ⟨hgt, fun i hi => ?_⟩
  cases r with
  | call level c => exact hspares id g (List.mem_filter.2 ⟨hg, decide_eq_true hgt⟩) i hi
  | wrap c => exact hspares id g (List.mem_filter.2 ⟨hg, decide_eq_true hgt⟩) i hi
  | write k offset bytes =>
      obtain rfl := Except.ok.inj hs
      obtain ⟨hkg, hfit⟩ := hr
      by_cases heq : k = g
      · subst heq
        rw [HeapRequest.overwrite]
        simpa only [true_and] using Memory.byte_setBytes_getD ..
      · have hdis := hk.disjoint hg hkg heq
        simp only [Region.Disjoint, Region.stop, Grant.region] at hdis
        rw [HeapRequest.overwrite, if_neg fun h => heq h.1]
        exact Memory.byte_setBytes_of_outside (by omega)

theorem run (hk : s.Kept) {requests : List HeapRequest} (hr : s.ProperRun requests) :
    ∃ t, s.run requests = .ok t ∧ t.Kept := by
  induction requests generalizing s with
  | nil => exact ⟨s, rfl, hk⟩
  | cons r rest ih =>
      obtain ⟨s', hs, hk', -⟩ := hk.apply hr.1
      obtain ⟨t, ht, hkt⟩ := ih hk' (hr.2 s' hs)
      exact ⟨t, by rw [HeapSession.run, hs]; exact ht, hkt⟩

theorem replay (hk : s.Kept) (hg : g ∈ s.grants) {requests : List HeapRequest}
    (hr : s.ProperRun requests) (hkeep : ∀ r ∈ requests, ¬ r.Releases g) :
    ∃ t, s.run requests = .ok t ∧ g ∈ t.grants ∧ ∀ i < g.size,
      t.space.memory.byte (g.address + i) = requests.foldl (fun old r => r.overwrite g i old)
        (s.space.memory.byte (g.address + i)) := by
  induction requests generalizing s with
  | nil => exact ⟨s, rfl, hg, fun _ _ => rfl⟩
  | cons r rest ih =>
      obtain ⟨s', hs, hk', -⟩ := hk.apply hr.1
      obtain ⟨hg', hbytes⟩ := hk.overwrite hr.1 hg (hkeep r (List.mem_cons_self ..)) hs
      obtain ⟨t, ht, hgt, hbytes'⟩ := ih hk' hg' (hr.2 s' hs) fun q hq =>
        hkeep q (List.mem_cons_of_mem _ hq)
      refine ⟨t, by rw [HeapSession.run, hs]; exact ht, hgt, fun i hi => ?_⟩
      rw [hbytes' i hi, hbytes i hi, List.foldl_cons]

end Kept

/-- What the clients of a session are promised. A pointer is released through the allocator that
issued it or through one in front of it. -/
structure Promises (s : HeapSession) : Prop where
  inside : ∀ g ∈ s.grants, ∃ r ∈ s.space.held, r.base ≤ g.address ∧ g.region.stop ≤ r.stop
  apart : s.grants.Pairwise fun g k => g.region.Disjoint k.region
  counted : (s.allocator.stats s.space.memory).allocations = s.grants.length
  allocates : ∀ level b, s.allocator.inner level = some b → ∀ size affinity,
    ∃ answer b' space', b.allocate size affinity s.space = ((.ok answer, b'), space') ∧
      ∀ address, answer = some address → (b.outer.poolOf affinity).alignment ∣ address
  releases : ∀ i ∈ s.live, ∀ level ≤ i.level, ∃ b b' space' t,
    s.allocator.inner level = some b ∧
      b.SoleRelease (i.level - level) i.toGrant s.space b' space' ∧
      s.apply (.call level (.release i.toGrant)) = .ok t ∧
      t.grants = s.grants.erase i.toGrant
  answers : ∀ r, r.Proper s → ∃ t, s.apply r = .ok t ∧ (¬ r.IsWrite → s.Spares t)
  replays : ∀ g ∈ s.grants, ∀ rest, s.ProperRun rest → (∀ r ∈ rest, ¬ r.Releases g) →
    ∃ t, s.run rest = .ok t ∧ g ∈ t.grants ∧ ∀ i < g.size,
      t.space.memory.byte (g.address + i) = rest.foldl (fun old r => r.overwrite g i old)
        (s.space.memory.byte (g.address + i))

theorem Kept.releases (hk : s.Kept) {i : Issued} (hi : i ∈ s.live) (hlevel : level ≤ i.level) :
    ∃ b b' space' t, s.allocator.inner level = some b ∧
      b.SoleRelease (i.level - level) i.toGrant s.space b' space' ∧
      s.apply (.call level (.release i.toGrant)) = .ok t ∧
      t.grants = s.grants.erase i.toGrant := by
  obtain ⟨l, hl, -⟩ := hk.issued i hi
  have hlt : i.level < s.allocator.levels.length := (List.getElem?_eq_some_iff.1 hl).1
  obtain ⟨b, hb⟩ := Allocator.exists_inner (Nat.lt_of_le_of_lt hlevel hlt)
  obtain ⟨front, rfl, hc, -⟩ := hk.inner hb
  obtain ⟨b', space', hsole, -⟩ := hc.deallocate hi hlevel
  let t : HeapSession := ⟨s.allocator.replaceInner front.length b', space',
    Issued.withdraw s.live i.toGrant⟩
  refine ⟨b, b', space', t, hb, hsole, ?_, Issued.grants_withdraw ..⟩
  simp only [HeapSession.apply, hb, serve, hsole.run, t]

theorem Kept.promises (hk : s.Kept) : s.Promises where
  inside _ hg := hk.inside hg
  apart := hk.apart
  counted := by
    rw [Chain.counted hk, grants, Issued.grants, List.length_map]
  allocates level b hb size affinity := by
    obtain ⟨front, -, hc, -⟩ := hk.inner hb
    obtain ⟨answer, b', space', hrun, -, -, haligned⟩ :=
      exists_allocate (s := { s with allocator := b }) hc size affinity
    exact ⟨answer, b', space', hrun, haligned⟩
  releases _ hi _ hlevel := hk.releases hi hlevel
  answers r hr := by
    obtain ⟨t, ht, -, hspares, -⟩ := hk.apply hr
    exact ⟨t, ht, hspares⟩
  replays _ hg _ hr hkeep := hk.replay hg hr hkeep

end HeapSession

end AffinityHeap
