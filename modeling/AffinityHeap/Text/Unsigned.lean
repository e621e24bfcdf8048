namespace AffinityHeap.Text

inductive NumberFault where
  | empty
  | invalidDigit
  | tooLarge
  deriving DecidableEq, Repr

def NumberFault.message : NumberFault → String
  | .empty => "cannot parse integer from empty string"
  | .invalidDigit => "invalid digit found in string"
  | .tooLarge => "number too large to fit in target type"

/-- Reads digits until one is missing or takes the number out of range. -/
def readDigits (limit n : Nat) : List Char → Except NumberFault Nat
  | [] => .ok n
  | c :: rest =>
      if !c.isDigit then .error .invalidDigit
      else
        let n := n * 10 + (c.toNat - 48)
        if limit ≤ n then .error .tooLarge else readDigits limit n rest

/-- A number of 64 bits in decimal digits, after a plus sign if there is one. -/
def parseUnsigned (text : String) : Except NumberFault Nat :=
  match text.toList with
  | [] => .error .empty
  | ['+'] => .error .invalidDigit
  | '+' :: rest => readDigits UInt64.size 0 rest
  | cs => readDigits UInt64.size 0 cs

end AffinityHeap.Text
