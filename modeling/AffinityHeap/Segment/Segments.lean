import AffinityHeap.Alignment
import AffinityHeap.SortedMap
import AffinityHeap.Sum
import AffinityHeap.Word

namespace AffinityHeap

/-- The free and the reserved segments of a range, by offset, with their lengths. -/
structure Segments where
  total : Nat
  alignment : Nat
  available : SortedMap Nat
  reserved : SortedMap Nat
  deriving DecidableEq

namespace Segments

def new (total alignment : Nat) : Segments where
  total := total
  alignment := max alignment 1
  available := if total = 0 then .empty else .singleton 0 total
  reserved := .empty

/-- Every reservation takes at least one unit, so that no two share an offset, unless its length
does not fit in a word. -/
def roundedLength (s : Segments) (size : Nat) : Nat := wrap (roundUp (max size 1) s.alignment)

def fits (alignment length offset segment : Nat) : Prop :=
  roundUp offset alignment + length ≤ offset + segment

instance (alignment length offset segment : Nat) :
    Decidable (fits alignment length offset segment) := inferInstanceAs (Decidable (_ ≤ _))

/-- The shortest segment that fits; the first of them where several do. -/
def bestFit? (alignment length : Nat) : List (Nat × Nat) → Option (Nat × Nat)
  | [] => none
  | (offset, segment) :: rest =>
      if fits alignment length offset segment then
        match bestFit? alignment length rest with
        | some (o, n) => if n < segment then some (o, n) else some (offset, segment)
        | none => some (offset, segment)
      else bestFit? alignment length rest

def addFree (free : SortedMap Nat) (start stop : Nat) : SortedMap Nat :=
  if start < stop then free.insert start (stop - start) else free

def reserve (s : Segments) (size : Nat) : Option (Nat × Segments) :=
  let length := s.roundedLength size
  match bestFit? s.alignment length s.available.entries with
  | none => none
  | some (offset, segment) =>
      let start := roundUp offset s.alignment
      let free := addFree (s.available.erase offset) offset start
      some (start,
        { s with
          available := addFree free (start + length) (offset + segment)
          reserved := s.reserved.insert start length })

/-- Puts a free segment in place, joined with the free segments that touch it. -/
def coalesce (free : SortedMap Nat) (offset length : Nat) : SortedMap Nat :=
  let stop := offset + length + (free.find? (offset + length)).getD 0
  let free' := free.erase (offset + length)
  match free.below? offset with
  | some (o, n) =>
      if o + n = offset then (free'.erase o).insert o (stop - o)
      else free'.insert offset (stop - offset)
  | none => free'.insert offset (stop - offset)

inductive Release where
  | unknown
  | mismatch (reserved requested : Nat)
  | released (segments : Segments)
  deriving DecidableEq

def release (s : Segments) (offset size : Nat) : Release :=
  match s.reserved.find? offset with
  | none => .unknown
  | some length =>
      if s.roundedLength size = length then
        .released { s with
          available := coalesce s.available offset length
          reserved := s.reserved.erase offset }
      else .mismatch length (s.roundedLength size)

def inOrder (s : Segments) : List (Nat × Nat) :=
  s.available.entries.merge s.reserved.entries
    (fun x y => x.1 < y.1 || (x.1 == y.1 && x.2 ≤ y.2))

/-- Where the segments end, if each starts where the one in front of it ends. -/
def tile (expected : Nat) : List (Nat × Nat) → Except Corruption Nat
  | [] => .ok expected
  | (offset, length) :: rest =>
      if offset = expected then tile (offset + length) rest
      else .error (.segmentOverlap offset expected)

def validate (s : Segments) : Except Corruption Unit := do
  let reached ← tile 0 s.inOrder
  if reached ≠ s.total then throw (.coverageMismatch reached s.total)

def availableSize (s : Segments) : Nat := sumOf s.available.values

def reservedSize (s : Segments) : Nat := sumOf s.reserved.values

def reservationCount (s : Segments) : Nat := s.reserved.size

def freeSegmentCount (s : Segments) : Nat := s.available.size

def largestFree (s : Segments) : Nat := s.available.values.foldl max 0

def describeMap (m : SortedMap Nat) : String :=
  let items := m.entries.map (fun (offset, length) => s!"{offset}: {length}")
  "\x7b" ++ String.intercalate ", " items ++ "\x7d"

def describe (s : Segments) : String :=
  s!"SegmentAllocator \x7b total: {s.total}, alignment: {s.alignment}, available: " ++
    describeMap s.available ++ ", reserved: " ++ describeMap s.reserved ++ " \x7d"

end Segments

end AffinityHeap
