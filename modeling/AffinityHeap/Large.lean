import AffinityHeap.Buffer
import AffinityHeap.SortedMap

namespace AffinityHeap

structure LargeAllocation where
  buffer : Buffer
  requested : Nat
  deriving DecidableEq, Repr

namespace LargeAllocation

def memorySize (a : LargeAllocation) : Nat := a.buffer.byteLen

def alignment (a : LargeAllocation) : Nat := a.buffer.alignment

end LargeAllocation

structure LargeAllocations where
  entries : SortedMap LargeAllocation
  totalBytes : Nat
  deriving DecidableEq

namespace LargeAllocations

def empty : LargeAllocations := ⟨.empty, 0⟩

def size (l : LargeAllocations) : Nat := l.entries.size

def allocate (l : LargeAllocations) (size alignment : Nat) :
    Obtain (Nat × LargeAllocations) := do
  let buffer ← Buffer.zeroed 1 size alignment
  return (buffer.base,
    ⟨l.entries.insert buffer.base ⟨buffer, size⟩, l.totalBytes + buffer.byteLen⟩)

/-- Takes the allocation that starts at `address` out of the register and gives its region back. -/
def release (l : LargeAllocations) (address : Nat) :
    StateM AddressSpace (Option LargeAllocation × LargeAllocations) :=
  match l.entries.find? address with
  | none => return (none, l)
  | some a => do
      a.buffer.giveBack
      return (some a, ⟨l.entries.erase address, l.totalBytes - a.memorySize⟩)

def giveBack (l : LargeAllocations) : StateM AddressSpace Unit :=
  l.entries.values.forM (·.buffer.giveBack)

end LargeAllocations

end AffinityHeap
