import AffinityHeap.Slot.Block

namespace AffinityHeap.SlotStep

/-- Cuts the free slot at `position` in front of `remainder`; the rest becomes a free slot that
takes over its place in the free list. -/
def split (position : Nat) (slot : SlotHeader) (remainder previous next : Nat) :
    SlotStep SlotHeader := do
  let stop := position + slot.span
  let kept : SlotHeader := { slot with span := remainder - position }
  setHeader remainder ⟨kept.span, stop - remainder, .free⟩
  setPreviousFree remainder previous
  setNextFree remainder next
  if previous ≠ 0 then setNextFree previous remainder
  if next ≠ 0 then setPreviousFree next remainder
  if stop < (← ask).capacity then setBackSpan stop (stop - remainder)
  updateBlock fun b => if b.freeHead = position then { b with freeHead := remainder } else b
  return kept

def unlink (position previous next : Nat) : SlotStep Unit := do
  if previous ≠ 0 then setNextFree previous next
  if next ≠ 0 then setPreviousFree next previous
  updateBlock fun b =>
    { b with
      freeHead := if b.freeHead = position then next else b.freeHead
      freeCount := wrapSub b.freeCount 1 }

/-- The first position past a payload of `needed` words behind `position` whose slot would have an
aligned payload. -/
def remainderAfter (unit position needed : Nat) : Nat :=
  (position + 1 + needed + unit) / unit * unit - 1

/-- Hands out the free slot at `position`, cutting it if the rest makes a slot. -/
def take (size position : Nat) (slot : SlotHeader) (previous next : Nat) : SlotStep Nat := do
  let unit := (← ask).unit
  let remainder := remainderAfter unit position (SlotGeometry.neededWords size)
  let kept ←
    if remainder + 1 + minPayloadWords < position + slot.span then
      split position slot remainder previous next
    else do
      unlink position previous next
      pure slot
  setHeader position { kept with status := .allocated }
  updateBlock fun b => b.charged kept.span
  return (← ask).addressOf (position + 1)

/-- First fit over the free list, at most `remaining` slots of it. A count of 2^64 - 1 is as far as
slots can be counted: a build that checks its arithmetic ends where one more would be. -/
def allocateFrom (size : Nat) : Nat → Nat → SlotStep (Option Nat)
  | _, 0 => return none
  | 0, _ + 1 => do
      let count := (← ask).freeCount
      fail (.freeCountMismatch count (count + 1))
  | remaining + 1, p + 1 => do
      let position := p + 1
      look .list position
      let slot ← header position
      if !slot.isFree then fail (.allocatedSlotInFreeList position)
      if slot.span = 0 then fail (.zeroSpan position)
      let previous ← previousFree position
      let next ← nextFree position
      if size ≤ slot.payloadBytes then some <$> take size position slot previous next
      else allocateFrom size remaining next

def allocate (size : Nat) : SlotStep (Option Nat) := do
  let block ← ask
  if block.maximumAllocationSize < size then return none
  allocateFrom size block.freeCount block.freeHead

end AffinityHeap.SlotStep
