import AffinityHeap.Alignment
import AffinityHeap.Backend

namespace AffinityHeap

def defaultBlockSize : Nat := 1024 * 1024

def defaultAlignment : Nat := 4

structure PoolConfig where
  affinity : Affinity
  name : String := ""
  blockSize : Nat := defaultBlockSize
  alignment : Nat := defaultAlignment
  backend : Option BackendKind := none
  deriving DecidableEq, Repr

namespace PoolConfig

def new (affinity : Affinity) : PoolConfig := { affinity, name := affinity.poolName }

def withBlockSize (p : PoolConfig) (blockSize : Nat) : PoolConfig := { p with blockSize }

def withAlignment (p : PoolConfig) (alignment : Nat) : PoolConfig := { p with alignment }

def withBackend (p : PoolConfig) (kind : BackendKind) : PoolConfig :=
  { p with backend := some kind }

def displayName (p : PoolConfig) : String :=
  if p.name.isEmpty then p.affinity.poolName else p.name

def validate (p : PoolConfig) : Except HeapError Unit := do
  checkAlignment p.alignment
  if p.blockSize = 0 then throw (.invalidConfig (.zeroBlockSize p.displayName))

end PoolConfig

structure Config where
  backend : BackendKind
  defaultBlockSize : Nat
  defaultAlignment : Nat
  pools : List PoolConfig
  deriving DecidableEq, Repr

namespace Config

def default : Config where
  backend := .slot
  defaultBlockSize := AffinityHeap.defaultBlockSize
  defaultAlignment := AffinityHeap.defaultAlignment
  pools := [
    .new .objects,
    (PoolConfig.new .data).withBlockSize (16 * AffinityHeap.defaultBlockSize),
    .new .nodes,
    (PoolConfig.new .physics).withAlignment 16]

def withBackend (kind : BackendKind) : Config := { default with backend := kind }

def validatePools (seen : List Affinity) : List PoolConfig → Except HeapError Unit
  | [] => .ok ()
  | p :: rest => do
      p.validate
      if p.affinity ∈ seen then throw (.invalidConfig (.repeated p.affinity))
      validatePools (p.affinity :: seen) rest

def validate (c : Config) : Except HeapError Unit := do
  checkAlignment c.defaultAlignment
  if c.defaultBlockSize = 0 then throw (.invalidConfig .zeroDefaultBlockSize)
  validatePools [] c.pools

/-- The settings of an affinity: its own if it has any, else the defaults. -/
def pool (c : Config) (affinity : Affinity) : PoolConfig :=
  match c.pools.find? (fun p => p.affinity == affinity) with
  | some p => p
  | none =>
      ((PoolConfig.new affinity).withBlockSize c.defaultBlockSize).withAlignment c.defaultAlignment

def recordIn (p : PoolConfig) : List PoolConfig → List PoolConfig
  | [] => [p]
  | q :: rest => if q.affinity = p.affinity then p :: rest else q :: recordIn p rest

def record (c : Config) (p : PoolConfig) : Config := { c with pools := recordIn p c.pools }

end Config

end AffinityHeap
