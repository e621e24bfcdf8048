import AffinityHeap.Buffer
import AffinityHeap.Slot.Geometry

namespace AffinityHeap

/-- Slots lie side by side from `first` to `capacity`; positions count words from the base.
Free slots are linked through their first two payload words, 0 meaning "none". -/
structure SlotBlock where
  buffer : Buffer
  alignment : Nat
  capacity : Nat
  maximumAllocationSize : Nat
  freeHead : Nat
  freeCount : Nat
  allocations : Nat
  reserved : Nat
  deriving DecidableEq, Repr

namespace SlotBlock

def unit (b : SlotBlock) : Nat := SlotGeometry.unit b.alignment

def first (b : SlotBlock) : Nat := SlotGeometry.first b.unit

def wordIndex (b : SlotBlock) (position : Nat) : Nat := b.buffer.base / 4 + position

def addressOf (b : SlotBlock) (position : Nat) : Nat := b.buffer.base + position * 4

def InRange (b : SlotBlock) (position : Nat) : Prop :=
  0 < position ∧ position < b.capacity ∧ position < b.buffer.len

instance (b : SlotBlock) (position : Nat) : Decidable (b.InRange position) :=
  inferInstanceAs (Decidable (_ ∧ _))

/-- The position behind a slot, 0 at the end of the chain. -/
def following (b : SlotBlock) (position : Nat) (slot : SlotHeader) : Nat :=
  if b.capacity ≤ position + slot.span then 0 else position + slot.span

/-- The most pairs of words that a list may reserve room for. -/
def listLimit : Nat := 0x7fffffffffffffff / 16

/-- A list may be as long as the count says, and the room for it is granted. -/
def Listable (b : SlotBlock) (grants : Nat → Bool) : Prop :=
  b.freeCount ≤ listLimit ∧ (b.freeCount = 0 ∨ grants b.freeCount = true)

instance (b : SlotBlock) (grants : Nat → Bool) : Decidable (b.Listable grants) :=
  inferInstanceAs (Decidable (_ ∧ _))

/-- The counters behind the handing out of a slot. -/
def charged (b : SlotBlock) (span : Nat) : SlotBlock :=
  { b with allocations := wrap (b.allocations + 1), reserved := wrap (b.reserved + span) }

/-- The counters behind the release of a slot. -/
def discharged (b : SlotBlock) (span : Nat) : SlotBlock :=
  { b with allocations := wrapSub b.allocations 1, reserved := wrapSub b.reserved span }

end SlotBlock

/-- A block together with the memory that holds its slots. -/
structure SlotHeap where
  block : SlotBlock
  memory : Memory

namespace SlotHeap

def word (h : SlotHeap) (position : Nat) : UInt32 := h.memory.word (h.block.wordIndex position)

def setWord (h : SlotHeap) (position : Nat) (w : UInt32) : SlotHeap :=
  { h with memory := h.memory.setWord (h.block.wordIndex position) w }

theorem wordIndex_inj {b : SlotBlock} {p q : Nat} : b.wordIndex p = b.wordIndex q ↔ p = q := by
  simp [SlotBlock.wordIndex]

theorem word_setWord (h : SlotHeap) (p q : Nat) (w : UInt32) :
    (h.setWord p w).word q = if p = q then w else h.word q := by
  simp [word, setWord, Memory.word_setWord, wordIndex_inj]

def element (h : SlotHeap) (position : Nat) : Except Corruption UInt32 :=
  if h.block.InRange position then .ok (h.word position)
  else .error (.positionOutOfRange position h.block.capacity)

def setElement (h : SlotHeap) (position : Nat) (w : UInt32) : Except Corruption Unit × SlotHeap :=
  if h.block.InRange position then (.ok (), h.setWord position w)
  else (.error (.positionOutOfRange position h.block.capacity), h)

/-- Lays out free slots of the span given, the last one taking what is left. A rest too short for
a slot stays outside the chain. A span of 0 is never asked for with an alignment below 131072; with
it the layout would not come to an end. -/
def carve (stop span position previous : Nat) (h : SlotHeap) : SlotHeap :=
  if hp : minSlotSpan ≤ stop - position ∧ 0 < span then
    let next := min (position + span) stop
    let back := if previous = 0 then 0 else position - previous
    let h := h.setWord position (SlotHeader.encode ⟨back, next - position, .free⟩)
    let h := h.setWord (position + 1) (UInt32.ofNat previous)
    let h := h.setWord (position + 2) 0
    let h :=
      if previous = 0 then { h with block.freeHead := position }
      else h.setWord (previous + 2) (UInt32.ofNat position)
    carve stop span next position { h with block.freeCount := h.block.freeCount + 1 }
  else { h with block.capacity := position }
termination_by stop - position
decreasing_by
  simp only [minSlotSpan, minPayloadWords] at hp
  omega

end SlotHeap

namespace SlotBlock

def minAlignment : Nat := 16

def blank (buffer : Buffer) (alignment : Nat) : SlotBlock where
  buffer := buffer
  alignment := alignment
  capacity := buffer.len
  maximumAllocationSize := 0
  freeHead := 0
  freeCount := 0
  allocations := 0
  reserved := 0

def carved (b : SlotBlock) (memory : Memory) : SlotHeap :=
  let h := SlotHeap.carve b.buffer.len (SlotGeometry.maxAlignedSpan b.unit) b.first 0 ⟨b, memory⟩
  let room := (h.block.capacity - (b.first + 1)) * 4
  { h with
    block.maximumAllocationSize := min (SlotGeometry.maximumAllocationSize b.alignment) room }

def create (blockSize alignment : Nat) : Obtain SlotBlock := do
  let alignment := max alignment 4
  if ¬ IsPowerOfTwo alignment then
    throw (.invalidLayout blockSize alignment)
  let size ← AddressSpace.keepWord (roundUp blockSize alignment)
  if 0x100000000 ≤ size / 4 then
    throw (.blockTooLarge size)
  let buffer ← Buffer.zeroed 4 (size / 4) (max alignment minAlignment)
  ExceptT.lift <| AddressSpace.onMemory fun memory =>
    let h := (blank buffer alignment).carved memory
    (h.block, h.memory)

end SlotBlock

/-- A walk follows the spans of the slots or the links of the free ones. -/
inductive Walk where
  | chain
  | list
  deriving DecidableEq

/-- A step on a block: what it looks up, reads and writes in turn, each answer deciding how it goes
on. What it wrote before it failed stays written. -/
inductive SlotStep (α : Type) : Type where
  | answer (result : Except Corruption α)
  | block (next : SlotBlock → SlotStep α)
  | update (f : SlotBlock → SlotBlock) (next : SlotStep α)
  | visit (walk : Walk) (position : Nat) (next : SlotStep α)
  | read (position : Nat) (next : Except Corruption UInt32 → SlotStep α)
  | write (position : Nat) (w : UInt32) (next : Except Corruption Unit → SlotStep α)

namespace SlotStep

variable {α β : Type}

def andThen : SlotStep α → (α → SlotStep β) → SlotStep β
  | answer (.ok a), f => f a
  | answer (.error e), _ => answer (.error e)
  | block next, f => block fun b => (next b).andThen f
  | update g next, f => update g (next.andThen f)
  | visit walk position next, f => visit walk position (next.andThen f)
  | read position next, f => read position fun r => (next r).andThen f
  | write position w next, f => write position w fun r => (next r).andThen f

instance : Monad SlotStep where
  pure a := answer (.ok a)
  bind := andThen

theorem andThen_pure (x : SlotStep α) : x.andThen pure = x := by
  induction x with
  | answer r => cases r <;> rfl
  | block next ih => exact congrArg block (funext ih)
  | update g next ih => exact congrArg (update g) ih
  | visit walk position next ih => exact congrArg (visit walk position) ih
  | read position next ih => exact congrArg (read position) (funext ih)
  | write position w next ih => exact congrArg (write position w) (funext ih)

theorem andThen_assoc {γ : Type} (x : SlotStep α) (f : α → SlotStep β) (g : β → SlotStep γ) :
    (x.andThen f).andThen g = x.andThen fun a => (f a).andThen g := by
  induction x with
  | answer r => cases r <;> rfl
  | block next ih => exact congrArg block (funext ih)
  | update f next ih => exact congrArg (update f) ih
  | visit walk position next ih => exact congrArg (visit walk position) ih
  | read position next ih => exact congrArg (read position) (funext ih)
  | write position w next ih => exact congrArg (write position w) (funext ih)

instance : LawfulMonad SlotStep :=
  LawfulMonad.mk' SlotStep andThen_pure (fun _ _ => rfl) andThen_assoc

def fail (e : Corruption) : SlotStep α := answer (.error e)

/-- What a step answers, for a caller that goes on where it fails. -/
def attempt : SlotStep α → SlotStep (Except Corruption α)
  | answer r => answer (.ok r)
  | block next => block fun b => (next b).attempt
  | update g next => update g next.attempt
  | visit walk position next => visit walk position next.attempt
  | read position next => read position fun r => (next r).attempt
  | write position w next => write position w fun r => (next r).attempt

def run : SlotStep α → SlotHeap → Except Corruption α × SlotHeap
  | answer r, h => (r, h)
  | block next, h => (next h.block).run h
  | update f next, h => next.run { h with block := f h.block }
  | visit _ _ next, h => next.run h
  | read position next, h => (next (h.element position)).run h
  | write position w next, h =>
      let (r, h) := h.setElement position w
      (next r).run h

instance : CoeFun (SlotStep α) fun _ => SlotHeap → Except Corruption α × SlotHeap := ⟨run⟩

theorem pure_apply (a : α) (h : SlotHeap) : (pure a : SlotStep α) h = (.ok a, h) := rfl

theorem answer_apply (r : Except Corruption α) (h : SlotHeap) : answer r h = (r, h) := rfl

theorem bind_apply (x : SlotStep α) (f : α → SlotStep β) (h : SlotHeap) :
    (x >>= f) h = match x h with
      | (.ok a, h) => f a h
      | (.error e, h) => (.error e, h) := by
  show (x.andThen f).run h = _
  induction x generalizing h with
  | answer r => cases r <;> rfl
  | block next ih => exact ih _ h
  | update g next ih => exact ih _
  | visit walk position next ih => exact ih h
  | read position next ih => exact ih _ h
  | write position w next ih => exact ih _ _

def ask : SlotStep SlotBlock := block fun b => pure b

def updateBlock (f : SlotBlock → SlotBlock) : SlotStep Unit := update f (pure ())

def look (walk : Walk) (position : Nat) : SlotStep Unit := visit walk position (pure ())

def element (position : Nat) : SlotStep UInt32 := read position answer

def setElement (position : Nat) (w : UInt32) : SlotStep Unit := write position w answer

theorem ask_apply (h : SlotHeap) : ask h = (.ok h.block, h) := rfl

theorem setElement_apply {h : SlotHeap} {p : Nat} (hp : h.block.InRange p) (w : UInt32) :
    setElement p w h = (.ok (), h.setWord p w) := by
  show (answer (h.setElement p w).1).run (h.setElement p w).2 = _
  rw [SlotHeap.setElement, if_pos hp]
  rfl

theorem setElement_refuses {h : SlotHeap} {p : Nat} (hp : ¬ h.block.InRange p) (w : UInt32) :
    setElement p w h = (.error (.positionOutOfRange p h.block.capacity), h) := by
  show (answer (h.setElement p w).1).run (h.setElement p w).2 = _
  rw [SlotHeap.setElement, if_neg hp]
  rfl

def header (position : Nat) : SlotStep SlotHeader := do
  let w ← element position
  answer (SlotHeader.decode w position)

def link (position : Nat) : SlotStep Nat := do
  let w ← element position
  return w.toNat

def previousFree (position : Nat) : SlotStep Nat := link (position + 1)

def nextFree (position : Nat) : SlotStep Nat := link (position + 2)

def setHeader (position : Nat) (slot : SlotHeader) : SlotStep Unit :=
  setElement position slot.encode

def setPreviousFree (position link : Nat) : SlotStep Unit :=
  setElement (position + 1) (UInt32.ofNat link)

def setNextFree (position link : Nat) : SlotStep Unit :=
  setElement (position + 2) (UInt32.ofNat link)

def setBackSpan (position span : Nat) : SlotStep Unit := do
  let slot ← header position
  setHeader position { slot with back := span }

/-- The free list from `position` on, at most `remaining` slots of it, behind those found before,
the latest first. -/
def freeSlotsFrom : Nat → Nat → List (Nat × Nat) → SlotStep (List (Nat × Nat))
  | _, 0, found => return found.reverse
  | 0, _ + 1, _ => do
      let count := (← ask).freeCount
      fail (.freeCountMismatch count (count + 1))
  | remaining + 1, p + 1, found => do
      look .list (p + 1)
      let slot ← header (p + 1)
      let next ← nextFree (p + 1)
      freeSlotsFrom remaining next ((p + 1, slot.span) :: found)

def listFree : SlotStep (List (Nat × Nat)) := do
  let b ← ask
  freeSlotsFrom b.freeCount b.freeHead []

/-- Room for as many slots as the count says is reserved before the first of them is read; where it
cannot be, the program ends there. This is the answer `none`. -/
def freeSlots (grants : Nat → Bool) : SlotStep (Option (List (Nat × Nat))) := do
  if (← ask).Listable grants then some <$> listFree else return none

end SlotStep

namespace SlotHeap

variable (h : SlotHeap) (position : Nat)

def header : Except Corruption SlotHeader := (SlotStep.header position h).1

def link : Except Corruption Nat := (SlotStep.link position h).1

def previousFree : Except Corruption Nat := h.link (position + 1)

def nextFree : Except Corruption Nat := h.link (position + 2)

/-- The positions and spans of the free slots, once there is room for the list. -/
def freeSlots : Except Corruption (List (Nat × Nat)) := (SlotStep.listFree h).1

end SlotHeap

namespace SlotStep

variable (h : SlotHeap) (position : Nat)

theorem element_apply : element position h = (h.element position, h) := rfl

theorem header_apply : header position h = (h.header position, h) := by
  rw [SlotHeap.header, header, bind_apply, element_apply]
  cases h.element position <;> rfl

theorem link_apply : link position h = (h.link position, h) := by
  rw [SlotHeap.link, link, bind_apply, element_apply]
  cases h.element position <;> rfl

theorem previousFree_apply : previousFree position h = (h.previousFree position, h) :=
  link_apply h _

theorem nextFree_apply : nextFree position h = (h.nextFree position, h) := link_apply h _

end SlotStep

namespace SlotHeap

variable (h : SlotHeap) (position : Nat)

theorem header_eq : h.header position = h.element position >>= (SlotHeader.decode · position) := by
  rw [header, SlotStep.header, SlotStep.bind_apply, SlotStep.element_apply]
  cases h.element position <;> rfl

theorem link_eq : h.link position = UInt32.toNat <$> h.element position := by
  rw [link, SlotStep.link, SlotStep.bind_apply, SlotStep.element_apply]
  cases h.element position <;> rfl

variable {h position}

theorem header_of_inRange (hp : h.block.InRange position) :
    h.header position = SlotHeader.decode (h.word position) position := by
  rw [header_eq, element, if_pos hp]
  rfl

theorem link_of_inRange (hp : h.block.InRange position) :
    h.link position = .ok (h.word position).toNat := by
  rw [link_eq, element, if_pos hp]
  rfl

end SlotHeap

/-- Runs a step on a block whose memory is that of the address space. -/
def SlotBlock.run {α : Type} (b : SlotBlock) (step : SlotStep α) :
    StateM AddressSpace (Except Corruption α × SlotBlock) :=
  AddressSpace.onMemory fun memory =>
    let (result, h) := step ⟨b, memory⟩
    ((result, h.block), h.memory)

end AffinityHeap
