import AffinityHeap.Block
import AffinityHeap.Config.Basic

namespace AffinityHeap

/-- The blocks of one affinity by base address. The block that last had room is tried first. -/
structure Pool where
  name : String
  affinity : Affinity
  backend : BackendKind
  blockSize : Nat
  alignment : Nat
  blocks : SortedMap Block
  cached : Option Nat
  deriving DecidableEq

namespace Pool

/-- An empty pool for settings that have been validated. -/
def ofConfig (c : PoolConfig) (backend : BackendKind) : Pool where
  name := c.displayName
  affinity := c.affinity
  backend := c.backend.getD backend
  blockSize := c.blockSize
  alignment := c.alignment
  blocks := .empty
  cached := none

def new (c : PoolConfig) (backend : BackendKind) : Except HeapError Pool := do
  c.validate
  return ofConfig c backend

def setBlockSize (p : Pool) (blockSize : Nat) : Except HeapError Pool :=
  if blockSize = 0 then .error (.invalidConfig (.zeroNewBlockSize p.name))
  else .ok { p with blockSize }

/-- Blocks keep the alignment they were made with, so a new one clears the cache. -/
def setAlignment (p : Pool) (alignment : Nat) : Except HeapError Pool := do
  checkAlignment alignment
  return if alignment = p.alignment then p else { p with alignment, cached := none }

def reconfigure (p : Pool) (c : PoolConfig) (backend : BackendKind) : Except HeapError Pool := do
  c.validate
  setAlignment
    { p with
      name := c.displayName
      backend := c.backend.getD backend
      blockSize := c.blockSize }
    c.alignment

def blockCount (p : Pool) : Nat := p.blocks.size

def maximumAllocationSize (p : Pool) : Nat := p.backend.maximumAllocationSize p.alignment

def usable (p : Pool) (base : Nat) : Bool :=
  match p.blocks.find? base with
  | some b => p.alignment ≤ b.alignment
  | none => false

/-- The blocks a request may be served from: the cached one, then from the highest address down. -/
def candidates (p : Pool) : List Nat :=
  (p.cached.toList ++ p.blocks.keys.reverse.filter (fun base => some base != p.cached)).filter
    p.usable

def allocateIn (p : Pool) (base size : Nat) :
    StateM AddressSpace (Except Corruption (Option Nat) × Pool) :=
  match p.blocks.find? base with
  | none => return (.ok none, p)
  | some b => do
      let (result, b) ← b.allocate size
      return (result, { p with blocks := p.blocks.insert base b })

def allocateAmong (size : Nat) : List Nat → Pool →
    StateM AddressSpace (Except Corruption (Option Nat) × Pool)
  | [], p => return (.ok none, p)
  | base :: rest, p => do
      match ← p.allocateIn base size with
      | (.ok none, p) => allocateAmong size rest p
      | (.ok (some address), p) => return (.ok (some address), { p with cached := some base })
      | (.error e, p) => return (.error e, p)

def newBlockSize (p : Pool) (size : Nat) : Nat :=
  max (p.backend.blockSizeFor size p.alignment) p.blockSize

def grow (p : Pool) (size : Nat) :
    StateM AddressSpace (Except HeapError (Option Nat) × Pool) := do
  match ← (Block.create p.backend (p.newBlockSize size) p.alignment).run with
  | .error e => return (.error e, p)
  | .ok b =>
      match ← b.allocate size with
      | (.error e, b) =>
          b.giveBack
          return (.error (.corruption e), p)
      | (.ok address, b) =>
          return (.ok address,
            { p with blocks := p.blocks.insert b.base b, cached := some b.base })

/-- `none` says that the request is too large for any block of the pool. -/
def allocate (p : Pool) (size : Nat) :
    StateM AddressSpace (Except HeapError (Option Nat) × Pool) := do
  if p.maximumAllocationSize < size then return (.ok none, p)
  match ← allocateAmong size p.candidates p with
  | (.error e, p) => return (.error (.corruption e), p)
  | (.ok (some address), p) => return (.ok (some address), p)
  | (.ok none, p) => p.grow size

def owner? (p : Pool) (address : Nat) : Option (Nat × Block) :=
  (p.blocks.floor? address).filter (fun x => x.2.contains address)

def owns (p : Pool) (address : Nat) : Bool := (p.owner? address).isSome

/-- `false` says that no block of the pool holds the address. -/
def deallocate (p : Pool) (address size : Nat) :
    StateM AddressSpace (Except Corruption Bool × Pool) :=
  match p.owner? address with
  | none => return (.ok false, p)
  | some (base, b) => do
      let (result, b) ← b.deallocate address size
      let p := { p with blocks := p.blocks.insert base b }
      match result with
      | .error e => return (.error e, p)
      | .ok () =>
          let cached := if p.alignment ≤ b.alignment then some base else p.cached
          return (.ok true, { p with cached })

def emptyBlocks (p : Pool) : List Block := p.blocks.values.filter (·.isEmpty)

/-- Gives the blocks without an allocation back and counts their bytes. -/
def reclaim (p : Pool) : StateM AddressSpace (Nat × Pool) := do
  p.emptyBlocks.forM (·.giveBack)
  let blocks := p.blocks.filter (fun _ b => !b.isEmpty)
  return (sumOf (p.emptyBlocks.map (·.memorySize)),
    { p with blocks, cached := p.cached.filter blocks.contains })

def giveBack (p : Pool) : StateM AddressSpace Unit := p.blocks.values.forM (·.giveBack)

def stats (m : Memory) (p : Pool) : PoolStats where
  name := p.name
  affinity := p.affinity
  backend := p.backend
  blockSize := p.blockSize
  alignment := p.alignment
  blocks := p.blocks.values.map (·.stats m)

def validate (m : Memory) (p : Pool) : Except Corruption Unit :=
  p.blocks.values.forM (·.validate m)

def report (m : Memory) (p : Pool) : Printer Unit := do
  .line <| s!"  BlockPool '{p.name}' ({p.affinity.label}): backend {p.backend.name}, " ++
    s!"block size {p.blockSize}, alignment {p.alignment}, {p.blockCount} blocks"
  p.blocks.values.forM (·.report m)

end Pool

end AffinityHeap
