import AffinityHeap.Slot.Block

namespace AffinityHeap.SlotStep

def slotOf (address : Nat) (b : SlotBlock) : Except Corruption Nat :=
  match b.buffer.offsetOf? address with
  | none => .error (.misalignedPointer (b.buffer.wrappedOffset address))
  | some offset =>
      let payload := offset / 4
      if offset % 4 ≠ 0 ∨ payload ≤ b.first ∨ payload % b.unit ≠ 0 then
        .error (.misalignedPointer offset)
      else .ok (payload - 1)

/-- The position of the slot in front of `position`, 0 for the first slot. -/
def precedingOf (position : Nat) (slot : SlotHeader) (b : SlotBlock) : Except Corruption Nat :=
  if slot.back = 0 then .ok 0
  else if slot.back ≤ position ∧ b.first ≤ position - slot.back then .ok (position - slot.back)
  else .error (.backSpanMismatch position b.first ((position + UInt64.size - slot.back) % UInt64.size))

def checkRelease (position size : Nat) (slot : SlotHeader) (b : SlotBlock) :
    Except Corruption Unit :=
  if slot.span = 0 then .error (.zeroSpan position)
  else if slot.isFree then .error (.doubleFree position)
  else if slot.payloadBytes < size then
    .error (.sizeExceedsSlot position size slot.payloadBytes)
  else if b.capacity < position + slot.span then
    .error (.positionOutOfRange (position + slot.span) b.capacity)
  else .ok ()

/-- The slot at `position` if there is one and it is free. -/
def freeAt? (position : Nat) : SlotStep (Option SlotHeader) := do
  if position = 0 then return none
  let slot ← header position
  return if slot.isFree then some slot else none

def clearHeader (position : Nat) : SlotStep Unit := setElement position 0

/-- Joins three slots into the first. The last leaves the free list: where the first one stands
right before it or right behind it, the first takes over its outer link. -/
def mergeAll (p : Nat) (prev : SlotHeader) (c : Nat) (current : SlotHeader) (n : Nat)
    (next : SlotHeader) : SlotStep Unit := do
  let ppf ← previousFree p
  let pnf ← nextFree p
  let npf ← previousFree n
  let nnf ← nextFree n
  let nn := (← ask).following n next
  let span := prev.span + (current.span + next.span)
  setHeader p { prev with span }
  if nn ≠ 0 then setBackSpan nn span
  if pnf = n then
    setNextFree p nnf
    if nnf ≠ 0 then setPreviousFree nnf p
  else if ppf = n then
    setPreviousFree p npf
    if npf = 0 then updateBlock fun b => { b with freeHead := p }
    else setNextFree npf p
  else
    if npf ≠ 0 then setNextFree npf nnf
    if nnf ≠ 0 then setPreviousFree nnf npf
    updateBlock fun b => if b.freeHead = n then { b with freeHead := nnf } else b
  clearHeader c
  clearHeader n
  updateBlock fun b => { b with freeCount := wrapSub b.freeCount 1 }

/-- Joins the slot at `c` to the free slot in front of it, which keeps its place in the list. -/
def mergePrevious (p : Nat) (prev : SlotHeader) (c : Nat) (current : SlotHeader) (n : Nat) :
    SlotStep Unit := do
  let span := prev.span + current.span
  setHeader p { prev with span }
  if n ≠ 0 then setBackSpan n span
  clearHeader c

/-- Joins the free slot behind to the slot at `c`, which takes its place in the list. -/
def mergeNext (c : Nat) (current : SlotHeader) (n : Nat) (next : SlotHeader) :
    SlotStep Unit := do
  let npf ← previousFree n
  let nnf ← nextFree n
  let nn := (← ask).following n next
  let span := current.span + next.span
  setHeader c { current with span, status := .free }
  if nn ≠ 0 then setBackSpan nn span
  if npf ≠ 0 then setNextFree npf c
  if nnf ≠ 0 then setPreviousFree nnf c
  setPreviousFree c npf
  setNextFree c nnf
  updateBlock fun b => if b.freeHead = n then { b with freeHead := c } else b
  clearHeader n

def pushFront (c : Nat) (current : SlotHeader) : SlotStep Unit := do
  setHeader c { current with status := .free }
  let head := (← ask).freeHead
  setPreviousFree c 0
  setNextFree c head
  if head ≠ 0 then setPreviousFree head c
  updateBlock fun b => { b with freeHead := c, freeCount := wrap (b.freeCount + 1) }

/-- Joins with the free neighbours as far as the span can still be written in a header: with both,
else with the one in front, else with the one behind. -/
def absorb (p : Nat) (prev : Option SlotHeader) (c : Nat) (current : SlotHeader) (n : Nat)
    (next : Option SlotHeader) : SlotStep Unit :=
  match prev, next with
  | some prev, some next =>
      if prev.span + current.span + next.span ≤ maxSpan then mergeAll p prev c current n next
      else if prev.span + current.span ≤ maxSpan then mergePrevious p prev c current n
      else if current.span + next.span ≤ maxSpan then mergeNext c current n next
      else pushFront c current
  | some prev, none =>
      if prev.span + current.span ≤ maxSpan then mergePrevious p prev c current n
      else pushFront c current
  | none, some next =>
      if current.span + next.span ≤ maxSpan then mergeNext c current n next
      else pushFront c current
  | none, none => pushFront c current

def deallocate (address size : Nat) : SlotStep Unit := do
  let b ← ask
  let c ← answer (slotOf address b)
  let current ← header c
  answer (checkRelease c size current b)
  let p ← answer (precedingOf c current b)
  let n := b.following c current
  let prev ← freeAt? p
  let next ← freeAt? n
  updateBlock fun b => b.discharged current.span
  absorb p prev c current n next

end AffinityHeap.SlotStep
