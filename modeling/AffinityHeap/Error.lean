import AffinityHeap.Affinity

namespace AffinityHeap

inductive Corruption where
  | zeroSpan (position : Nat)
  | doubleFree (position : Nat)
  | invalidStatus (position status : Nat)
  | positionOutOfRange (position capacity : Nat)
  | misalignedPointer (offset : Nat)
  | sizeExceedsSlot (position size payload : Nat)
  | allocatedSlotInFreeList (position : Nat)
  | backSpanMismatch (position expected found : Nat)
  | coverageMismatch (reached capacity : Nat)
  | freeLinkMismatch (position expected found : Nat)
  | duplicateFreeSlot (position : Nat)
  | freeSetMismatch (physical listed : Nat)
  | freeCountMismatch (count walked : Nat)
  | unknownReservation (offset : Nat)
  | reservationSizeMismatch (offset reserved requested : Nat)
  | segmentOverlap (offset expected : Nat)
  deriving DecidableEq, Repr

def Corruption.message : Corruption → String
  | .zeroSpan p => s!"zero-length span at position {p}"
  | .doubleFree p => s!"double free of slot at position {p}"
  | .invalidStatus p s => s!"invalid status {s} at position {p}"
  | .positionOutOfRange p c => s!"position {p} outside block capacity {c}"
  | .misalignedPointer o => s!"pointer at byte offset {o} is not a payload start"
  | .sizeExceedsSlot p s n =>
      s!"deallocating {s} bytes from slot at position {p} holding {n} bytes"
  | .allocatedSlotInFreeList p => s!"allocated slot at position {p} found in free list"
  | .backSpanMismatch p e f =>
      s!"slot at position {p} points back to {f}, previous slot is {e}"
  | .coverageMismatch r c => s!"slot chain reaches {r}, block capacity is {c}"
  | .freeLinkMismatch p e f => s!"free slot at position {p} links back to {f}, expected {e}"
  | .duplicateFreeSlot p => s!"free slot at position {p} appears twice in free list"
  | .freeSetMismatch p l => s!"{p} free slots in block, {l} reachable from free list"
  | .freeCountMismatch c w => s!"free list counts {c} slots, walk found {w}"
  | .unknownReservation o => s!"no reservation at offset {o}"
  | .reservationSizeMismatch o r q =>
      s!"reservation at offset {o} is {r} bytes, release asked for {q}"
  | .segmentOverlap o e => s!"segment at offset {o} does not start at {e}"

/-- What is wrong with a setting. A `stated` fault carries the wording of whoever found it. -/
inductive SettingFault where
  | unknownBackend (name : String)
  | alignment (value : Nat)
  | zeroDefaultBlockSize
  | zeroBlockSize (pool : String)
  | zeroNewBlockSize (pool : String)
  | repeated (affinity : Affinity)
  | stated (text : String)
  deriving DecidableEq, Repr

def SettingFault.message : SettingFault → String
  | .unknownBackend name => s!"unknown allocator backend '{name}'"
  | .alignment value => s!"alignment {value} is not a power of two"
  | .zeroDefaultBlockSize => "default block size is zero"
  | .zeroBlockSize pool => s!"pool '{pool}' has a zero block size"
  | .zeroNewBlockSize pool => s!"pool '{pool}': zero block size"
  | .repeated affinity => s!"{affinity.label} is configured more than once"
  | .stated text => text

inductive HeapError where
  | outOfMemory (size alignment : Nat)
  | invalidLayout (size alignment : Nat)
  | blockTooLarge (size : Nat)
  | invalidConfig (fault : SettingFault)
  | malformedConfig (detail : String)
  | unreadableConfig (detail : String)
  | corruption (cause : Corruption)
  deriving DecidableEq, Repr

def HeapError.message : HeapError → String
  | .outOfMemory s a => s!"system allocation failed: {s} bytes aligned to {a}"
  | .invalidLayout s a => s!"invalid layout: size {s}, alignment {a}"
  | .blockTooLarge s => s!"block of {s} bytes exceeds the addressable element range"
  | .invalidConfig fault => s!"invalid configuration: {fault.message}"
  | .malformedConfig detail => s!"failed to parse configuration: {detail}"
  | .unreadableConfig detail => s!"failed to read configuration: {detail}"
  | .corruption cause => s!"heap corruption: {cause.message}"

/-- What ends a program on the spot. -/
inductive Panic where
  | corruption (e : Corruption)
  | overflow (operation : String)
  deriving DecidableEq, Repr

def Panic.message : Panic → String
  | .corruption e => (HeapError.corruption e).message
  | .overflow operation => s!"attempt to {operation} with overflow"

end AffinityHeap
