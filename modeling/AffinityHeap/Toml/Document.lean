import AffinityHeap.Toml.Datetime
import AffinityHeap.Toml.Number
import AffinityHeap.Toml.Value

namespace AffinityHeap.Toml

/-- Brackets nested this deep are still read, and so are keys with this many parts. -/
def maxDepth : Nat := 79

def isBare (c : Char) : Bool := c.isAlphanum || c == '_' || c == '-'

def simpleKey (cs : List Char) : Option (String × List Char) :=
  match cs with
  | '"' :: rest => (basic rest).map fun (text, rest) => (String.ofList text, rest)
  | '\'' :: rest => (literal rest).map fun (text, rest) => (String.ofList text, rest)
  | cs =>
      match cs.takeWhile isBare with
      | [] => none
      | key => some (String.ofList key, cs.dropWhile isBare)

def dottedKey : Nat → List Char → Option (List String × List Char)
  | 0, _ => none
  | parts + 1, cs => do
      let (key, cs) ← simpleKey (skipSpace cs)
      match skipSpace cs with
      | '.' :: cs => do
          let (keys, cs) ← dottedKey parts cs
          return (key :: keys, cs)
      | cs => return ([key], cs)

def endsToken (c : Char) : Bool :=
  isSpace c || c == '\n' || c == '\r' || c == '#' || c == ',' || c == ']' || c == '\x7d'

def ofToken? (token : List Char) : Option Value :=
  if token = ['t', 'r', 'u', 'e'] then some (.boolean true)
  else if token = ['f', 'a', 'l', 's', 'e'] then some (.boolean false)
  else if isDatetime token then some .datetime
  else if isFloat token then some .float
  else (integer? token).map .integer

/-- A value without brackets or quotes. A time may stand behind a date and a space. -/
def bareValue (cs : List Char) : Option (Value × List Char) :=
  let token := cs.takeWhile (!endsToken ·)
  let rest := cs.dropWhile (!endsToken ·)
  match rest with
  | ' ' :: more =>
      if isDate token && isTimeWithOffset (more.takeWhile (!endsToken ·)) then
        some (.datetime, more.dropWhile (!endsToken ·))
      else (ofToken? token).map (·, rest)
  | _ => (ofToken? token).map (·, rest)

mutual

def value : Nat → Nat → List Char → Option (Value × List Char)
  | 0, _, _ => none
  | fuel + 1, depth, cs =>
      match cs with
      | '[' :: rest =>
          match depth with
          | 0 => none
          | depth + 1 => do
              let (vs, rest) ← items fuel depth (← skipBlank false rest)
              return (.array vs, rest)
      | '\x7b' :: rest =>
          match depth with
          | 0 => none
          | depth + 1 =>
              match skipSpace rest with
              | '\x7d' :: rest => some (.table .inline [], rest)
              | rest => do
                  let (t, rest) ← pairs fuel depth .root rest
                  return (.table .inline t.entries, rest)
      | '"' :: _ => (quoted cs).map fun (text, rest) => (.string text, rest)
      | '\'' :: _ => (quoted cs).map fun (text, rest) => (.string text, rest)
      | cs => bareValue cs

def items : Nat → Nat → List Char → Option (List Value × List Char)
  | 0, _, _ => none
  | fuel + 1, depth, cs =>
      match cs with
      | ']' :: rest => some ([], rest)
      | cs => do
          let (v, cs) ← value fuel depth cs
          match ← skipBlank false cs with
          | ',' :: rest => do
              let (vs, rest) ← items fuel depth (← skipBlank false rest)
              return (v :: vs, rest)
          | ']' :: rest => return ([v], rest)
          | _ => none

def pairs : Nat → Nat → Table → List Char → Option (Table × List Char)
  | 0, _, _, _ => none
  | fuel + 1, depth, t, cs => do
      let (key, cs) ← dottedKey maxDepth cs
      match cs with
      | '=' :: cs => do
          let (v, cs) ← value fuel depth (skipSpace cs)
          let t ← t.insertAt key v
          match skipSpace cs with
          | ',' :: rest => pairs fuel depth t rest
          | '\x7d' :: rest => return (t, rest)
          | _ => none
      | _ => none

end

/-- A document read so far, with the path of the table that keys go to. -/
structure Draft where
  root : Table
  current : List String

def statement (d : Draft) (cs : List Char) : Option (Draft × List Char) :=
  match cs with
  | '[' :: '[' :: rest => do
      let (path, rest) ← dottedKey maxDepth rest
      match rest with
      | ']' :: ']' :: rest => do
          let root ← d.root.enter Table.appendTable path
          return (⟨root, path⟩, ← lineEnd? rest)
      | _ => none
  | '[' :: rest => do
      let (path, rest) ← dottedKey maxDepth rest
      match rest with
      | ']' :: rest => do
          let root ← d.root.enter Table.openTable path
          return (⟨root, path⟩, ← lineEnd? rest)
      | _ => none
  | cs => do
      let (key, cs) ← dottedKey maxDepth cs
      match cs with
      | '=' :: cs => do
          let (v, cs) ← value (2 * cs.length + 2) maxDepth (skipSpace cs)
          let root ← d.root.alterAt false (Table.insertAt key v) d.current
          return (⟨root, d.current⟩, ← lineEnd? cs)
      | _ => none

def statements : Nat → Draft → List Char → Option Draft
  | 0, _, _ => none
  | fuel + 1, d, cs => do
      match ← skipBlank false cs with
      | [] => return d
      | cs => do
          let (d, cs) ← statement d cs
          statements fuel d cs

/-- The top table of a document, `none` if the text is no document. -/
def parse? (text : String) : Option Entries :=
  let cs := match text.toList with
    | '\uFEFF' :: cs => cs
    | cs => cs
  (statements (cs.length + 1) ⟨.root, []⟩ cs).map (·.root.entries)

end AffinityHeap.Toml
