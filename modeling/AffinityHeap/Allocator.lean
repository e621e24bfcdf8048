import AffinityHeap.Config.Environment
import AffinityHeap.Large
import AffinityHeap.Pool

namespace AffinityHeap

/-- One allocator without the ones behind it. `config` holds every setting changed since it was
made, so that pools not met yet can be made from it. -/
structure Level where
  backend : BackendKind
  config : Config
  pools : SortedMap Pool
  large : LargeAllocations
  deriving DecidableEq

namespace Level

/-- A level for settings that have been validated. -/
def ofConfig (c : Config) : Level where
  backend := c.backend
  config := c
  pools := .ofList (c.pools.map (fun p => (p.affinity.index, Pool.ofConfig p c.backend)))
  large := .empty

def poolOf (l : Level) (affinity : Affinity) : Pool :=
  (l.pools.find? affinity.index).getD (Pool.ofConfig (l.config.pool affinity) l.config.backend)

def withPool (l : Level) (p : Pool) : Level :=
  { l with pools := l.pools.insert p.affinity.index p }

/-- From the affinity's pool if it can, else straight from the system. -/
def allocate (l : Level) (size : Nat) (affinity : Affinity) :
    StateM AddressSpace (Except Corruption (Option Nat) × Level) := do
  let (result, pool) ← (l.poolOf affinity).allocate size
  let l := l.withPool pool
  match result with
  | .ok (some address) => return (.ok (some address), l)
  | .error (.corruption e) => return (.error e, l)
  | _ =>
      match ← (l.large.allocate size pool.alignment).run with
      | .ok (address, large) => return (.ok (some address), { l with large })
      | .error _ => return (.ok none, l)

def deallocateAmong (address size : Nat) : List Pool → Level →
    StateM AddressSpace (Except Corruption Bool × Level)
  | [], l => return (.ok false, l)
  | p :: rest, l => do
      match ← p.deallocate address size with
      | (.ok false, _) => deallocateAmong address size rest l
      | (result, p) => return (result, l.withPool p)

/-- `false` says that the address was not handed out by this level. -/
def deallocate (l : Level) (address size : Nat) :
    StateM AddressSpace (Except Corruption Bool × Level) := do
  match ← deallocateAmong address size l.pools.values l with
  | (.ok false, l) =>
      let (released, large) ← l.large.release address
      return (.ok released.isSome, { l with large })
  | answer => return answer

def setBlockSize (l : Level) (affinity : Affinity) (blockSize : Nat) :
    Except HeapError Unit × Level :=
  let pool := l.poolOf affinity
  match pool.setBlockSize blockSize with
  | .error e => (.error e, l.withPool pool)
  | .ok pool =>
      let settings := (l.config.pool affinity).withBlockSize blockSize
      (.ok (), { l.withPool pool with config := l.config.record settings })

def setAlignment (l : Level) (affinity : Affinity) (alignment : Nat) :
    Except HeapError Unit × Level :=
  let pool := l.poolOf affinity
  match pool.setAlignment alignment with
  | .error e => (.error e, l.withPool pool)
  | .ok pool =>
      let settings := (l.config.pool affinity).withAlignment alignment
      (.ok (), { l.withPool pool with config := l.config.record settings })

def configurePool (l : Level) (settings : PoolConfig) : Except HeapError Unit × Level :=
  let pool :=
    match l.pools.find? settings.affinity.index with
    | some p => p.reconfigure settings l.config.backend
    | none => Pool.new settings l.config.backend
  match pool with
  | .error e => (.error e, l)
  | .ok pool => (.ok (), { l.withPool pool with config := l.config.record settings })

def reclaimAmong : List Pool → Level → StateM AddressSpace (Nat × Level)
  | [], l => return (0, l)
  | p :: rest, l => do
      let (released, p) ← p.reclaim
      let (more, l) ← reclaimAmong rest (l.withPool p)
      return (released + more, l)

def reclaim (l : Level) : StateM AddressSpace (Nat × Level) := reclaimAmong l.pools.values l

def giveBack (l : Level) : StateM AddressSpace Unit := do
  l.pools.values.forM (·.giveBack)
  l.large.giveBack

def stats (m : Memory) (l : Level) : LevelStats where
  backend := l.backend
  pools := l.pools.values.map (·.stats m)
  largeCount := l.large.size
  largeBytes := l.large.totalBytes

def validate (m : Memory) (l : Level) : Except Corruption Unit :=
  l.pools.values.forM (·.validate m)

def report (m : Memory) (l : Level) : Printer Unit := do
  HeapStats.print ⟨l.stats m, []⟩
  l.pools.values.forM (·.report m)
  l.large.entries.entries.forM fun (address, a) =>
    .line <| s!"  large allocation {Text.address address}: {a.requested} bytes " ++
      s!"(alignment {a.alignment})"

end Level

/-- A chain of levels. Requests go to the outermost; a release goes to the first level that knows
the address. -/
structure Allocator where
  outer : Level
  nested : List Level
  deriving DecidableEq

namespace Allocator

def levels (a : Allocator) : List Level := a.outer :: a.nested

def ofLevels? : List Level → Option Allocator
  | [] => none
  | outer :: nested => some ⟨outer, nested⟩

def inner? (a : Allocator) : Option Allocator := ofLevels? a.nested

/-- The chain from the `n`-th nested allocator on. -/
def inner (a : Allocator) (n : Nat) : Option Allocator := ofLevels? (a.levels.drop n)

/-- The chain with everything from the `n`-th nested allocator on replaced. -/
def replaceInner (a : Allocator) (n : Nat) (b : Allocator) : Allocator :=
  (ofLevels? (a.levels.take n ++ b.levels)).getD b

def default : Allocator := ⟨.ofConfig .default, []⟩

def new (c : Config) : Except HeapError Allocator := do
  c.validate
  return ⟨.ofConfig c, []⟩

def wrap (c : Config) (a : Allocator) : Except HeapError Allocator := do
  c.validate
  return ⟨.ofConfig c, a.levels⟩

def ofEnvironment [TomlReader] (e : Environment) : Except HeapError Allocator := do
  new (← Config.ofEnvironment e)

def config (a : Allocator) : Config := a.outer.config

def allocate (a : Allocator) (size : Nat) (affinity : Affinity) :
    StateM AddressSpace (Except Corruption (Option Nat) × Allocator) := do
  let (result, outer) ← a.outer.allocate size affinity
  return (result, { a with outer })

def deallocateIn (address size : Nat) : List Level →
    StateM AddressSpace (Except Corruption Bool × List Level)
  | [] => return (.ok false, [])
  | l :: rest => do
      match ← l.deallocate address size with
      | (.ok false, l) =>
          let (result, rest) ← deallocateIn address size rest
          return (result, l :: rest)
      | (result, l) => return (result, l :: rest)

def deallocate (a : Allocator) (address size : Nat) :
    StateM AddressSpace (Except Corruption Bool × Allocator) := do
  match ← a.outer.deallocate address size with
  | (.ok false, outer) =>
      let (result, nested) ← deallocateIn address size a.nested
      return (result, ⟨outer, nested⟩)
  | (result, outer) => return (result, { a with outer })

def onOuter {α : Type} (f : Level → α × Level) (a : Allocator) : α × Allocator :=
  let (result, outer) := f a.outer
  (result, { a with outer })

def setBlockSize (a : Allocator) (affinity : Affinity) (blockSize : Nat) :
    Except HeapError Unit × Allocator := a.onOuter (·.setBlockSize affinity blockSize)

def setAlignment (a : Allocator) (affinity : Affinity) (alignment : Nat) :
    Except HeapError Unit × Allocator := a.onOuter (·.setAlignment affinity alignment)

def configurePool (a : Allocator) (settings : PoolConfig) : Except HeapError Unit × Allocator :=
  a.onOuter (·.configurePool settings)

def reclaimIn : List Level → StateM AddressSpace (Nat × List Level)
  | [] => return (0, [])
  | l :: rest => do
      let (released, l) ← l.reclaim
      let (more, rest) ← reclaimIn rest
      return (released + more, l :: rest)

def reclaim (a : Allocator) : StateM AddressSpace (Nat × Allocator) := do
  let (released, outer) ← a.outer.reclaim
  let (more, nested) ← reclaimIn a.nested
  return (released + more, ⟨outer, nested⟩)

def giveBack (a : Allocator) : StateM AddressSpace Unit := a.levels.forM (·.giveBack)

def stats (m : Memory) (a : Allocator) : HeapStats :=
  ⟨a.outer.stats m, a.nested.map (·.stats m)⟩

def poolStats? (m : Memory) (affinity : Affinity) (a : Allocator) : Option PoolStats :=
  (a.outer.pools.find? affinity.index).map (·.stats m)

def validate (m : Memory) (a : Allocator) : Except Corruption Unit :=
  a.levels.forM (·.validate m)

def report (m : Memory) (a : Allocator) : Printer Unit := do
  a.outer.report m
  a.nested.forM fun l => do
    .line "Nested allocator:"
    l.report m

end Allocator

end AffinityHeap
