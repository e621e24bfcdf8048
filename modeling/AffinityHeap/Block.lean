import AffinityHeap.Segment.Block
import AffinityHeap.Slot.Allocate
import AffinityHeap.Slot.Release
import AffinityHeap.Slot.Report
import AffinityHeap.Slot.Validate

namespace AffinityHeap

inductive Block where
  | slot (block : SlotBlock)
  | segment (block : SegmentBlock)
  deriving DecidableEq

namespace Block

def create (kind : BackendKind) (blockSize alignment : Nat) : Obtain Block :=
  match kind with
  | .slot => .slot <$> SlotBlock.create blockSize alignment
  | .segment => .segment <$> SegmentBlock.create blockSize alignment

def backend : Block → BackendKind
  | .slot _ => .slot
  | .segment _ => .segment

def buffer : Block → Buffer
  | .slot b => b.buffer
  | .segment b => b.buffer

def base (b : Block) : Nat := b.buffer.base

def memorySize (b : Block) : Nat := b.buffer.byteLen

def contains (b : Block) (address : Nat) : Bool := b.buffer.contains address

def giveBack (b : Block) : StateM AddressSpace Unit := b.buffer.giveBack

/-- The alignment of every address the block hands out. -/
def alignment : Block → Nat
  | .slot b => b.alignment
  | .segment b => b.alignment

def maximumAllocationSize : Block → Nat
  | .slot b => b.maximumAllocationSize
  | .segment b => b.segments.total

def isEmpty : Block → Bool
  | .slot b => b.isEmpty
  | .segment b => b.isEmpty

/-- `none` says that there is no room; an error, that the bookkeeping is inconsistent. -/
def allocate (block : Block) (size : Nat) :
    StateM AddressSpace (Except Corruption (Option Nat) × Block) :=
  match block with
  | .slot b => do
      let (result, b) ← b.run (SlotStep.allocate size)
      return (result, .slot b)
  | .segment b =>
      let (address, b) := b.allocate size
      return (.ok address, .segment b)

def deallocate (block : Block) (address size : Nat) :
    StateM AddressSpace (Except Corruption Unit × Block) :=
  match block with
  | .slot b => do
      let (result, b) ← b.run (SlotStep.deallocate address size)
      return (result, .slot b)
  | .segment b =>
      match b.deallocate address size with
      | .ok b => return (.ok (), .segment b)
      | .error e => return (.error e, .segment b)

def stats (m : Memory) : Block → BlockStats
  | .slot b => SlotHeap.stats ⟨b, m⟩
  | .segment b => b.stats

def validate (m : Memory) : Block → Except Corruption Unit
  | .slot b => SlotHeap.validate ⟨b, m⟩
  | .segment b => b.segments.validate

def report (m : Memory) : Block → Printer Unit
  | .slot b => SlotHeap.report ⟨b, m⟩
  | .segment b => b.report

def describe : Block → String
  | .slot b => b.describe
  | .segment b => b.describe

end Block

namespace BackendKind

def maximumAllocationSize (kind : BackendKind) (alignment : Nat) : Nat :=
  match kind with
  | .slot => SlotGeometry.maximumAllocationSize alignment
  | .segment => 0x7fffffffffffffff / 2

def blockSizeFor (kind : BackendKind) (size alignment : Nat) : Nat :=
  match kind with
  | .slot => SlotGeometry.blockSizeFor size alignment
  | .segment => SegmentBlock.blockSizeFor size alignment

end BackendKind

end AffinityHeap
