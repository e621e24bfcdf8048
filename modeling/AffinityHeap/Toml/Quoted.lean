import AffinityHeap.Toml.Blank

namespace AffinityHeap.Toml

def hexValue? (c : Char) : Option Nat :=
  if '0' ≤ c ∧ c ≤ '9' then some (c.toNat - 48)
  else if 'a' ≤ c ∧ c ≤ 'f' then some (c.toNat - 87)
  else if 'A' ≤ c ∧ c ≤ 'F' then some (c.toNat - 55)
  else none

def scalar? (digits : List Char) : Option Char := do
  let values ← digits.mapM hexValue?
  let n := values.foldl (fun n d => n * 16 + d) 0
  if n.isValidChar then some (Char.ofNat n) else none

def escape? : Char → Option Char
  | 'b' => some '\x08'
  | 't' => some '\t'
  | 'n' => some '\n'
  | 'f' => some '\x0c'
  | 'r' => some '\r'
  | '"' => some '"'
  | '\\' => some '\\'
  | _ => none

def consTo (c : Char) (r : Option (List Char × List Char)) : Option (List Char × List Char) :=
  r.map fun (text, rest) => (c :: text, rest)

def basic : List Char → Option (List Char × List Char)
  | [] => none
  | '"' :: rest => some ([], rest)
  | '\\' :: 'u' :: a :: b :: c :: d :: rest => do
      let ch ← scalar? [a, b, c, d]
      consTo ch (basic rest)
  | '\\' :: 'U' :: a :: b :: c :: d :: e :: f :: g :: h :: rest => do
      let ch ← scalar? [a, b, c, d, e, f, g, h]
      consTo ch (basic rest)
  | '\\' :: c :: rest => do
      let ch ← escape? c
      consTo ch (basic rest)
  | c :: rest => if isPlain c && c != '\\' then consTo c (basic rest) else none

def literal : List Char → Option (List Char × List Char)
  | [] => none
  | '\'' :: rest => some ([], rest)
  | c :: rest => if isPlain c then consTo c (literal rest) else none

def endsLine (cs : List Char) : Bool := (newline? (skipSpace cs)).isSome

/-- The body of a string in three quotes. Up to two quotes may stand in front of the closing ones;
after a backslash at the end of a line blanks are skipped. -/
def longBasic : Bool → List Char → Option (List Char × List Char)
  | _, [] => none
  | true, ' ' :: rest => longBasic true rest
  | true, '\t' :: rest => longBasic true rest
  | true, '\n' :: rest => longBasic true rest
  | true, '\r' :: '\n' :: rest => longBasic true rest
  | _, '"' :: '"' :: '"' :: '"' :: '"' :: rest => some (['"', '"'], rest)
  | _, '"' :: '"' :: '"' :: '"' :: rest => some (['"'], rest)
  | _, '"' :: '"' :: '"' :: rest => some ([], rest)
  | _, '\n' :: rest => consTo '\n' (longBasic false rest)
  | _, '\r' :: '\n' :: rest => consTo '\n' (longBasic false rest)
  | _, '\\' :: 'u' :: a :: b :: c :: d :: rest => do
      let ch ← scalar? [a, b, c, d]
      consTo ch (longBasic false rest)
  | _, '\\' :: 'U' :: a :: b :: c :: d :: e :: f :: g :: h :: rest => do
      let ch ← scalar? [a, b, c, d, e, f, g, h]
      consTo ch (longBasic false rest)
  | _, '\\' :: c :: rest =>
      if endsLine (c :: rest) then longBasic true (c :: rest)
      else do
        let ch ← escape? c
        consTo ch (longBasic false rest)
  | _, c :: rest => if isPlain c && c != '\\' then consTo c (longBasic false rest) else none

def longLiteral : List Char → Option (List Char × List Char)
  | [] => none
  | '\'' :: '\'' :: '\'' :: '\'' :: '\'' :: rest => some (['\'', '\''], rest)
  | '\'' :: '\'' :: '\'' :: '\'' :: rest => some (['\''], rest)
  | '\'' :: '\'' :: '\'' :: rest => some ([], rest)
  | '\n' :: rest => consTo '\n' (longLiteral rest)
  | '\r' :: '\n' :: rest => consTo '\n' (longLiteral rest)
  | c :: rest => if isPlain c then consTo c (longLiteral rest) else none

def skipNewline (cs : List Char) : List Char := (newline? cs).getD cs

def quoted : List Char → Option (String × List Char)
  | '"' :: '"' :: '"' :: rest => text (longBasic false (skipNewline rest))
  | '"' :: rest => text (basic rest)
  | '\'' :: '\'' :: '\'' :: rest => text (longLiteral (skipNewline rest))
  | '\'' :: rest => text (literal rest)
  | _ => none
where
  text (r : Option (List Char × List Char)) : Option (String × List Char) :=
    r.map fun (cs, rest) => (String.ofList cs, rest)

end AffinityHeap.Toml
