namespace AffinityHeap.Toml

def isSpace (c : Char) : Bool := c == ' ' || c == '\t'

def skipSpace (cs : List Char) : List Char := cs.dropWhile isSpace

/-- Everything but control characters; a tab is none of them here. -/
def isPlain (c : Char) : Bool :=
  c == '\t' || (0x20 ≤ c.toNat && c.toNat ≠ 0x7F)

def newline? : List Char → Option (List Char)
  | '\n' :: rest => some rest
  | '\r' :: '\n' :: rest => some rest
  | _ => none

/-- What follows spaces, line ends and comments. -/
def skipBlank : Bool → List Char → Option (List Char)
  | _, [] => some []
  | false, '#' :: rest => skipBlank true rest
  | _, '\n' :: rest => skipBlank false rest
  | _, '\r' :: '\n' :: rest => skipBlank false rest
  | false, c :: rest => if isSpace c then skipBlank false rest else some (c :: rest)
  | true, c :: rest => if isPlain c then skipBlank true rest else none

/-- What follows the end of a line, which may hold a comment. -/
def lineEnd? (cs : List Char) : Option (List Char) :=
  let rest := match skipSpace cs with
    | '#' :: rest => rest.dropWhile isPlain
    | rest => rest
  match rest with
  | [] => some []
  | rest => newline? rest

end AffinityHeap.Toml
