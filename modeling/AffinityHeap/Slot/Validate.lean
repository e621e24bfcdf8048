import AffinityHeap.Slot.Block
import Std.Data.HashSet

namespace AffinityHeap

namespace SlotHeap

/-- The free slots met on the way from one slot to the next, and where the way ends. -/
structure Chain where
  reached : Nat
  free : List Nat
  deriving DecidableEq, Repr

def backPosition (position : Nat) (slot : SlotHeader) : Nat :=
  if slot.back = 0 then 0 else position - slot.back

end SlotHeap

namespace SlotStep

/-- The walk along the spans of a block whose capacity is `stop`, behind the free slots met before,
the latest first. -/
def walkChain (stop position previous : Nat) (free : List Nat) : SlotStep SlotHeap.Chain :=
  if _ : position < stop then do
    look .chain position
    let slot ← header position
    if _ : slot.span = 0 then fail (.zeroSpan position)
    else if stop < position + slot.span then
      fail (.positionOutOfRange (position + slot.span) stop)
    else if SlotHeap.backPosition position slot ≠ previous then
      fail (.backSpanMismatch position previous (SlotHeap.backPosition position slot))
    else
      let free := if slot.isFree then position :: free else free
      walkChain stop (position + slot.span) position free
  else return ⟨position, free.reverse⟩
termination_by stop - position

/-- The positions on the free list in order, behind those listed before, the latest first. A list
that does not end comes back to a position it has visited before the fuel, one for each position of
the block, is used up. -/
def walkFree (visited : Std.HashSet Nat) (listed : List Nat) :
    Nat → Nat → Nat → SlotStep (List Nat)
  | _, 0, _ => return listed.reverse
  | 0, p + 1, _ => fail (.duplicateFreeSlot (p + 1))
  | fuel + 1, p + 1, previous => do
      let position := p + 1
      look .list position
      let slot ← header position
      if !slot.isFree then fail (.allocatedSlotInFreeList position)
      if visited.contains position then fail (.duplicateFreeSlot position)
      let back ← previousFree position
      if back ≠ previous then fail (.freeLinkMismatch position previous back)
      let next ← nextFree position
      walkFree (visited.insert position) (position :: listed) fuel next position

def validate : SlotStep Unit := do
  let b ← ask
  let chain ← walkChain b.capacity b.first 0 []
  if chain.reached ≠ b.capacity then
    fail (.coverageMismatch chain.reached b.capacity)
  let listed ← walkFree ∅ [] b.capacity b.freeHead 0
  if listed.length ≠ b.freeCount then
    fail (.freeCountMismatch b.freeCount listed.length)
  let members : Std.HashSet Nat := .ofList listed
  if listed.length ≠ chain.free.length ∨ !chain.free.all members.contains then
    fail (.freeSetMismatch chain.free.length listed.length)

end SlotStep

def SlotHeap.validate (h : SlotHeap) : Except Corruption Unit := (SlotStep.validate h).1

end AffinityHeap
