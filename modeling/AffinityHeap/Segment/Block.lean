import AffinityHeap.Buffer
import AffinityHeap.Segment.Segments
import AffinityHeap.Sink
import AffinityHeap.Stats

namespace AffinityHeap

structure SegmentBlock where
  buffer : Buffer
  segments : Segments
  deriving DecidableEq

namespace SegmentBlock

def minAlignment : Nat := 16

/-- The bytes of a block that holds `size`, as many as they may be. -/
def bytesFor (size alignment : Nat) : Nat := roundUp (max size 1) (max alignment 1)

def blockSizeFor (size alignment : Nat) : Nat := wrap (bytesFor size alignment)

def create (blockSize alignment : Nat) : Obtain SegmentBlock := do
  let alignment := max alignment 1
  if ¬ IsPowerOfTwo alignment then
    throw (.invalidLayout blockSize alignment)
  let size ← AddressSpace.keepWord (bytesFor blockSize alignment)
  let buffer ← Buffer.zeroed 1 size (max alignment minAlignment)
  return ⟨buffer, .new size alignment⟩

def alignment (b : SegmentBlock) : Nat := b.segments.alignment

def allocate (b : SegmentBlock) (size : Nat) : Option Nat × SegmentBlock :=
  match b.segments.reserve size with
  | none => (none, b)
  | some (offset, segments) => (b.buffer.addressOf? offset, { b with segments })

def deallocate (b : SegmentBlock) (address size : Nat) : Except Corruption SegmentBlock :=
  match b.buffer.offsetOf? address with
  | none => .error (.misalignedPointer (b.buffer.wrappedOffset address))
  | some offset =>
      match b.segments.release offset size with
      | .unknown => .error (.unknownReservation offset)
      | .mismatch reserved requested =>
          .error (.reservationSizeMismatch offset reserved requested)
      | .released segments => .ok { b with segments }

def isEmpty (b : SegmentBlock) : Bool := b.segments.reservationCount == 0

def stats (b : SegmentBlock) : BlockStats where
  backend := .segment
  base := b.buffer.base
  memorySize := b.buffer.byteLen
  reservedSize := b.segments.reservedSize
  availableSize := b.segments.availableSize
  allocations := b.segments.reservationCount
  freeRegions := b.segments.freeSegmentCount
  largestFree := b.segments.largestFree

def report (b : SegmentBlock) : Printer Unit := do
  .line <| s!"    SegmentBlock {Text.address b.buffer.base}: {b.buffer.byteLen} bytes, " ++
    s!"alignment {b.alignment}"
  b.segments.reserved.entries.forM fun (offset, length) =>
    .line s!"      reserved  [{offset}, {offset + length})"
  b.segments.available.entries.forM fun (offset, length) =>
    .line s!"      available [{offset}, {offset + length})"

def describe (b : SegmentBlock) : String :=
  s!"SegmentBlock \x7b memory: {b.buffer.describe}, segments: {b.segments.describe} \x7d"

end SegmentBlock

end AffinityHeap
