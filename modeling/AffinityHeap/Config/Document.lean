import AffinityHeap.Config.Environment
import AffinityHeap.Toml.Document

namespace AffinityHeap

open Toml (Value Entries)

namespace Config

def readNat (limit : Nat) (field : String) : Value → Except String Nat
  | .integer n =>
      if 0 ≤ n ∧ n < limit then .ok n.toNat else .error s!"{field}: integer out of range"
  | _ => .error s!"{field}: not an integer"

def readString (field : String) : Value → Except String String
  | .string text => .ok text
  | _ => .error s!"{field}: not a string"

def readKind (name : String) : Except String BackendKind :=
  match BackendKind.ofName? name with
  | some kind => .ok kind
  | none => .error s!"unknown backend {name}"

def isEmptyCollection : Value → Bool
  | .array items => items.isEmpty
  | .table _ entries => entries.isEmpty
  | .tables elements => elements.isEmpty
  | _ => false

/-- A backend is a name, or a table whose only key is the name and whose value holds nothing. -/
def readBackend : Value → Except String BackendKind
  | .string name => readKind name
  | .table _ [(name, v)] =>
      if isEmptyCollection v then readKind name else .error "backend: value not empty"
  | _ => .error "backend: neither a name nor a table with one key"

def readOr {α : Type} (read : Value → Except String α) (absent : Except String α) :
    Option Value → Except String α
  | some v => read v
  | none => absent

/-- A pool from what is written for its affinity, name, block size, alignment and backend. -/
def readPoolFields (affinity name blockSize alignment backend : Option Value) :
    Except String PoolConfig := do
  let id ← readOr (readNat UInt32.size "affinity") (.error "affinity: missing") affinity
  let name ← readOr (readString "name") (.ok "") name
  let blockSize ← readOr (readNat UInt64.size "block_size") (.ok AffinityHeap.defaultBlockSize)
    blockSize
  let alignment ← readOr (readNat UInt64.size "alignment") (.ok AffinityHeap.defaultAlignment)
    alignment
  let backend ← readOr (fun v => some <$> readBackend v) (.ok none) backend
  return { affinity := ⟨UInt32.ofNat id⟩, name, blockSize, alignment, backend }

def readPoolTable (entries : Entries) : Except String PoolConfig :=
  readPoolFields (entries.find? "affinity") (entries.find? "name") (entries.find? "block_size")
    (entries.find? "alignment") (entries.find? "backend")

/-- A pool is a table, or an array of its fields in order. -/
def readPool : Value → Except String PoolConfig
  | .table _ entries => readPoolTable entries
  | .array items => readPoolFields items[0]? items[1]? items[2]? items[3]? items[4]?
  | _ => .error "pools: not a table"

def readPools : Value → Except String (List PoolConfig)
  | .array items => items.mapM readPool
  | .tables elements => elements.mapM readPoolTable
  | _ => .error "pools: not an array"

def ofEntries (entries : Entries) : Except String Config := do
  let backend ← readOr readBackend (.ok default.backend) (entries.find? "backend")
  let blockSize ← readOr (readNat UInt64.size "default_block_size") (.ok default.defaultBlockSize)
    (entries.find? "default_block_size")
  let alignment ← readOr (readNat UInt64.size "default_alignment") (.ok default.defaultAlignment)
    (entries.find? "default_alignment")
  let pools ← readOr readPools (.ok default.pools) (entries.find? "pools")
  return ⟨backend, blockSize, alignment, pools⟩

/-- The settings written in a TOML document; keys that name no setting are passed over. -/
def decode (text : String) : Except String Config :=
  match Toml.parse? text with
  | none => .error "not a TOML document"
  | some entries => ofEntries entries

end Config

/-- What a running program reads its configuration file with. -/
instance : TomlReader := ⟨Config.decode⟩

end AffinityHeap
