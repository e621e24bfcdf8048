import AffinityHeap.AddressSpace
import AffinityHeap.Text.Hex

namespace AffinityHeap

structure Buffer where
  base : Nat
  len : Nat
  record : Nat
  alignment : Nat
  deriving DecidableEq, Repr

abbrev Obtain (α : Type) := ExceptT HeapError (StateM AddressSpace) α

namespace Buffer

/-- Zeroed records. An empty buffer still holds one record, so that every buffer has an address
of its own. A size is refused where rounding it up to the alignment would pass `0x7fffffffffffffff`. -/
def zeroed (record len alignment : Nat) : Obtain Buffer := do
  let alignment := max alignment record
  let size := record * max len 1
  if UInt64.size ≤ size then
    throw (.invalidLayout (UInt64.size - 1) alignment)
  if ¬ IsPowerOfTwo alignment ∨ 0x8000000000000000 - alignment < size then
    throw (.invalidLayout size alignment)
  match ← AddressSpace.request size alignment with
  | some base => return { base, len, record, alignment }
  | none => throw (.outOfMemory size alignment)

def giveBack (b : Buffer) : StateM AddressSpace Unit := AddressSpace.giveBack b.base

def byteLen (b : Buffer) : Nat := b.len * b.record

def contains (b : Buffer) (address : Nat) : Bool :=
  b.base ≤ address && address - b.base < b.byteLen

def addressOf? (b : Buffer) (index : Nat) : Option Nat :=
  if index ≤ b.len then some (b.base + index * b.record) else none

def offsetOf? (b : Buffer) (address : Nat) : Option Nat :=
  if b.contains address then some (address - b.base) else none

/-- The distance from the base, also for an address in front of it. -/
def wrappedOffset (b : Buffer) (address : Nat) : Nat := (address + UInt64.size - b.base) % UInt64.size

def get? (b : Buffer) (m : Memory) (index : Nat) : Option Nat :=
  if index < b.len then
    some (Memory.ofBytes (m.bytes (b.base + index * b.record) b.record))
  else none

def set (b : Buffer) (index value : Nat) : StateM Memory Bool := fun m =>
  if index < b.len then
    (true, m.setBytes (b.base + index * b.record) (Memory.toBytes b.record value))
  else (false, m)

def describe (b : Buffer) : String :=
  s!"RawBuffer \x7b base: {Text.address b.base}, len: {b.len}, alignment: {b.alignment} \x7d"

end Buffer

end AffinityHeap
