import AffinityHeap.Alignment
import AffinityHeap.Slot.Header
import AffinityHeap.Word

namespace AffinityHeap.SlotGeometry

/-- The alignment of payloads in words. -/
def unit (alignment : Nat) : Nat := max (alignment / 4) 1

/-- The first slot's payload is aligned, and position 0 stays free to mean "no slot". -/
def first (unit : Nat) : Nat := max unit 2 - 1

/-- The greatest span that leaves the payload of the next slot aligned. There is none for an
alignment of 131072 or more. -/
def maxAlignedSpan (unit : Nat) : Nat := unit * (maxSpan / unit)

def neededWords (size : Nat) : Nat := max (ceilDiv size 4) minPayloadWords

def maximumAllocationSize (alignment : Nat) : Nat :=
  wrap (wrapSub (maxAlignedSpan (unit alignment)) 1 * 4)

def blockSizeFor (size alignment : Nat) : Nat :=
  let alignment := max alignment 4
  wrap (roundUp (wrap ((first (unit alignment) + 1 + neededWords size) * 4)) alignment)

end AffinityHeap.SlotGeometry
