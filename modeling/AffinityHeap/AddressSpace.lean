import AffinityHeap.Alignment
import AffinityHeap.Memory
import AffinityHeap.Sum
import AffinityHeap.Word

namespace AffinityHeap

structure Region where
  base : Nat
  size : Nat
  deriving DecidableEq, Repr

namespace Region

def stop (r : Region) : Nat := r.base + r.size

def Disjoint (r s : Region) : Prop := r.stop ≤ s.base ∨ s.stop ≤ r.base

instance (r s : Region) : Decidable (r.Disjoint s) := inferInstanceAs (Decidable (_ ∨ _))

def covers (r : Region) (address length : Nat) : Bool :=
  r.base ≤ address && address + length ≤ r.stop

end Region

def totalSize (regions : List Region) : Nat := sumOf (regions.map (·.size))

/-- What the system answers to a request for `size` bytes at an alignment: the base of a region or
a refusal. It may hang on the number of requests made before, on the regions ever handed out, the
latest first, and on those still held. -/
abbrev Policy : Type :=
  (asked : Nat) → (handed held : List Region) → (size alignment : Nat) → Option Nat

namespace Policy

def bottom : Nat := 0x1000000000

def extent : Nat := 0x1000000000

def top : Nat := bottom + extent

def placeUp? (handed : List Region) (size alignment : Nat) : Option Nat :=
  let cursor := match handed with
    | [] => bottom
    | r :: _ => r.stop
  let base := roundUp cursor alignment
  if base + size ≤ top then some base else none

def placeDown? (handed : List Region) (size alignment : Nat) : Option Nat :=
  let cursor := match handed with
    | [] => top
    | r :: _ => r.base
  let base := roundDown (cursor - size) alignment
  if size ≤ cursor ∧ bottom ≤ base then some base else none

/-- Regions lie side by side in one direction and no address is used twice; only what is still held
counts against the limit. Every base is a multiple of the grain, whatever alignment is asked for. -/
def sideBySide (down : Bool) (grain limit : Nat) : Policy :=
  fun _ handed held size alignment =>
    if min limit extent < totalSize held + size then none
    else if down then placeDown? handed size (max grain alignment)
    else placeUp? handed size (max grain alignment)

end Policy

/-- `returned` lists the bases given back, the latest first. `overflowed` says that some result was
too large for its word: a build that checks for this ended there. -/
structure AddressSpace where
  policy : Policy
  asked : Nat
  handed : List Region
  held : List Region
  returned : List Nat
  memory : Memory
  overflowed : Bool

namespace AddressSpace

def new (policy : Policy) : AddressSpace where
  policy := policy
  asked := 0
  handed := []
  held := []
  returned := []
  memory := .empty
  overflowed := false

def live (s : AddressSpace) : Nat := totalSize s.held

/-- A region is zero when it is handed out; only one that was handed out before can need it. -/
def hold (s : AddressSpace) (r : Region) : AddressSpace :=
  let used := s.handed.any fun q => !decide (q.Disjoint r)
  { s with
    handed := r :: s.handed
    held := r :: s.held
    memory := if used then s.memory.clear r.base r.size else s.memory }

def request (size alignment : Nat) : StateM AddressSpace (Option Nat) := fun s =>
  let answer := s.policy s.asked s.handed s.held size alignment
  let s := { s with asked := s.asked + 1 }
  match answer with
  | some base => (some base, s.hold ⟨base, size⟩)
  | none => (none, s)

def giveBack (base : Nat) : StateM AddressSpace Unit := fun s =>
  ((), { s with held := s.held.eraseP (fun r => r.base == base), returned := base :: s.returned })

def overflows (s : AddressSpace) (n : Nat) : Bool := s.overflowed || decide (UInt64.size ≤ n)

/-- Keeps of a result what fits in a word. -/
def keepWord (n : Nat) : StateM AddressSpace Nat := fun s =>
  (wrap n, { s with overflowed := s.overflows n })

/-- A program built as it is goes on from here. -/
def Runs (build : Build) (s : AddressSpace) : Prop := build = .checked → s.overflowed = false

instance (build : Build) (s : AddressSpace) : Decidable (s.Runs build) :=
  inferInstanceAs (Decidable (_ → _))

/-- The whole range of bytes lies in one region still held. -/
def covers (s : AddressSpace) (address length : Nat) : Bool :=
  s.held.any (·.covers address length)

def read? (s : AddressSpace) (address length : Nat) : Option (List UInt8) :=
  if s.covers address length then some (s.memory.bytes address length) else none

def write (address : Nat) (bytes : List UInt8) : StateM AddressSpace Bool := fun s =>
  if s.covers address bytes.length then
    (true, { s with memory := s.memory.setBytes address bytes })
  else (false, s)

/-- Runs a computation that touches nothing but the contents. -/
def onMemory {α : Type} (x : StateM Memory α) : StateM AddressSpace α := fun s =>
  let memory := s.memory
  let s := { s with memory := .empty }
  let (a, memory) := x memory
  (a, { s with memory })

end AddressSpace

end AffinityHeap
