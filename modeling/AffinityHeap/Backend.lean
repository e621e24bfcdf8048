import AffinityHeap.Error
import AffinityHeap.Text.Blank

namespace AffinityHeap

inductive BackendKind where
  | slot
  | segment
  deriving DecidableEq, Repr

namespace BackendKind

def name : BackendKind → String
  | .slot => "slot"
  | .segment => "segment"

def ofName? : String → Option BackendKind
  | "slot" => some .slot
  | "intrusive" => some .slot
  | "new" => some .slot
  | "segment" => some .segment
  | "original" => some .segment
  | "block" => some .segment
  | _ => none

/-- Reads a name in any ASCII case, with blanks around it. -/
def parse (text : String) : Except HeapError BackendKind :=
  let word := (Text.trim text).map Char.toLower
  match ofName? word with
  | some kind => .ok kind
  | none => .error (.invalidConfig (.unknownBackend word))

end BackendKind

end AffinityHeap
