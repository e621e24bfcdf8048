import AffinityHeap.Sink
import AffinityHeap.Slot.Block
import AffinityHeap.Stats

namespace AffinityHeap

namespace SlotHeap

def largestFree (h : SlotHeap) : Nat :=
  match h.freeSlots with
  | .ok slots => (slots.map (fun s => (s.2 - 1) * 4)).foldl max 0
  | .error _ => 0

def stats (h : SlotHeap) : BlockStats where
  backend := .slot
  base := h.block.buffer.base
  memorySize := h.block.buffer.byteLen
  reservedSize := wrap (h.block.reserved * 4)
  availableSize :=
    wrapSub ((h.block.capacity - h.block.first) * 4) (wrap (h.block.reserved * 4))
  allocations := h.block.allocations
  freeRegions := h.block.freeCount
  largestFree := h.largestFree

def linkOrZero : Except Corruption Nat → Nat
  | .ok n => n
  | .error _ => 0

end SlotHeap

namespace SlotStep

def slotLine (position : Nat) (slot : SlotHeader) : SlotStep String :=
  match slot.status with
  | .free => do
      let previous ← attempt (previousFree position)
      let next ← attempt (nextFree position)
      return s!"      [{position}] \x7b {slot.back}, {slot.span}, free \x7d links " ++
        s!"{SlotHeap.linkOrZero previous} <-> {SlotHeap.linkOrZero next}"
  | .allocated =>
      return s!"      [{position}] \x7b {slot.back}, {slot.span}, allocated \x7d"

/-- The lines a report of a block whose capacity is `stop` has on its slots, behind the lines it had
before, the latest first. -/
def slotLines (stop position : Nat) (lines : List String) : SlotStep (List String) :=
  if _ : position < stop then do
    look .chain position
    match ← attempt (header position) with
    | .error _ => return (s!"      [{position}] unreadable header" :: lines).reverse
    | .ok slot =>
        let line ← slotLine position slot
        if _ : slot.span = 0 then return (line :: lines).reverse
        else slotLines stop (position + slot.span) (line :: lines)
  else return lines.reverse
termination_by stop - position

end SlotStep

namespace SlotHeap

def slotLines (h : SlotHeap) : List String :=
  match (SlotStep.slotLines h.block.capacity h.block.first [] h).1 with
  | .ok lines => lines
  | .error _ => []

def report (h : SlotHeap) : Printer Unit := do
  .line <| s!"    SlotAllocator {Text.address h.block.buffer.base}: " ++
    s!"{h.block.buffer.byteLen} bytes, alignment {h.block.alignment}, " ++
    s!"capacity {h.block.capacity} elements, " ++
    s!"max allocation {h.block.maximumAllocationSize}"
  h.slotLines.forM .line
  .line s!"      free list: count = {h.block.freeCount}, head = {h.block.freeHead}"

end SlotHeap

namespace SlotBlock

def isEmpty (b : SlotBlock) : Bool := b.allocations == 0

def describe (b : SlotBlock) : String :=
  s!"SlotAllocator \x7b memory: {b.buffer.describe}, capacity: {b.capacity}, " ++
    s!"free_list: FreeList \x7b head: {b.freeHead}, count: {b.freeCount} \x7d, " ++
    s!"allocations: {b.allocations} \x7d"

end SlotBlock

end AffinityHeap
