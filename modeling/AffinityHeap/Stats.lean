import AffinityHeap.Backend
import AffinityHeap.Decimal.Fixed
import AffinityHeap.Sink
import AffinityHeap.Sum

namespace AffinityHeap

structure BlockStats where
  backend : BackendKind
  base : Nat
  memorySize : Nat
  reservedSize : Nat
  availableSize : Nat
  allocations : Nat
  freeRegions : Nat
  largestFree : Nat
  deriving DecidableEq, Repr

structure PoolStats where
  name : String
  affinity : Affinity
  backend : BackendKind
  blockSize : Nat
  alignment : Nat
  blocks : List BlockStats
  deriving DecidableEq, Repr

namespace PoolStats

def memorySize (p : PoolStats) : Nat := sumOf (p.blocks.map (·.memorySize))

def reservedSize (p : PoolStats) : Nat := sumOf (p.blocks.map (·.reservedSize))

def availableSize (p : PoolStats) : Nat := sumOf (p.blocks.map (·.availableSize))

def allocations (p : PoolStats) : Nat := sumOf (p.blocks.map (·.allocations))

def print (p : PoolStats) : Printer Unit :=
  .line <| s!"  pool '{p.name}' ({p.affinity.label}, {p.backend.name}): " ++
    s!"{p.blocks.length} blocks, {p.allocations} allocations, " ++
    s!"reserved {p.reservedSize} / {p.memorySize} bytes"

end PoolStats

structure LevelStats where
  backend : BackendKind
  pools : List PoolStats
  largeCount : Nat
  largeBytes : Nat
  deriving DecidableEq, Repr

namespace LevelStats

def availableSize (l : LevelStats) : Nat := sumOf (l.pools.map (·.availableSize))

def reservedSize (l : LevelStats) : Nat := sumOf (l.pools.map (·.reservedSize)) + l.largeBytes

def memorySize (l : LevelStats) : Nat := sumOf (l.pools.map (·.memorySize)) + l.largeBytes

def blockCount (l : LevelStats) : Nat := sumOf (l.pools.map (·.blocks.length))

end LevelStats

/-- The outermost level and the levels behind it, from the nearest on. -/
structure HeapStats where
  outer : LevelStats
  nested : List LevelStats
  deriving DecidableEq, Repr

namespace HeapStats

def levels (h : HeapStats) : List LevelStats := h.outer :: h.nested

def inner? (h : HeapStats) : Option HeapStats :=
  match h.nested with
  | [] => none
  | level :: rest => some ⟨level, rest⟩

def availableSize (h : HeapStats) : Nat := sumOf (h.levels.map (·.availableSize))

def reservedSize (h : HeapStats) : Nat := sumOf (h.levels.map (·.reservedSize))

def memorySize (h : HeapStats) : Nat := sumOf (h.levels.map (·.memorySize))

def blockCount (h : HeapStats) : Nat := sumOf (h.levels.map (·.blockCount))

/-- The reserved share of the memory in percent, rounded to a double at each step. -/
def utilization (h : HeapStats) : Float :=
  if h.memorySize = 0 then 0
  else h.reservedSize.toUInt64.toFloat / h.memorySize.toUInt64.toFloat * 100

def headline (h : HeapStats) : String :=
  s!"Allocator ({h.outer.backend.name}): total_available_size = {h.availableSize}, " ++
    s!"total_reserved_size = {h.reservedSize}, total_memory_size = {h.memorySize} (" ++
    Decimal.ofFloat 1 h.utilization ++ "% used)"

def printOuter (h : HeapStats) : Printer Unit := do
  .line h.headline
  h.outer.pools.forM (·.print)
  if 0 < h.outer.largeCount then
    .line s!"  large allocations: {h.outer.largeCount} ({h.outer.largeBytes} bytes)"

def printFrom (outer : LevelStats) : List LevelStats → Printer Unit
  | [] => printOuter ⟨outer, []⟩
  | level :: rest => do
      printOuter ⟨outer, level :: rest⟩
      .put "  nested: "
      printFrom level rest

def print (h : HeapStats) : Printer Unit := printFrom h.outer h.nested

def text (h : HeapStats) : String := h.print.render

end HeapStats

end AffinityHeap
