namespace AffinityHeap

/-- A destination for text that may run out of room. -/
structure Sink where
  room : Option Nat
  written : ByteArray

namespace Sink

def unlimited : Sink := ⟨none, .empty⟩

def withRoom (n : Nat) : Sink := ⟨some n, .empty⟩

end Sink

structure SinkFull where
  deriving DecidableEq, Repr

abbrev Printer (α : Type) := ExceptT SinkFull (StateM Sink) α

namespace Printer

/-- Writes what there is room for and fails if that is not all. -/
def put (text : String) : Printer Unit := fun s =>
  let bytes := text.toUTF8
  match s with
  | ⟨none, written⟩ => (.ok (), ⟨none, written ++ bytes⟩)
  | ⟨some room, written⟩ =>
      if bytes.size ≤ room then (.ok (), ⟨some (room - bytes.size), written ++ bytes⟩)
      else (.error ⟨⟩, ⟨some 0, written ++ bytes.extract 0 room⟩)

def line (text : String) : Printer Unit := put (text ++ "\n")

/-- What is written where there is room for all of it. -/
def render (p : Printer Unit) : String :=
  (String.fromUTF8? (p.run.run .unlimited).2.written).getD ""

end Printer

end AffinityHeap
