import AffinityHeap.Toml.Quoted

namespace AffinityHeap.Toml

/-- Digits with single underscores between them. -/
def digits? (ok : Char → Bool) : List Char → Option (List Char)
  | [] => none
  | [c] => if ok c then some [c] else none
  | c :: '_' :: rest => if ok c then (c :: ·) <$> digits? ok rest else none
  | c :: rest => if ok c then (c :: ·) <$> digits? ok rest else none

def ofDigits (base : Nat) (ds : List Char) : Nat :=
  ds.foldl (fun n c => n * base + (hexValue? c).getD 0) 0

def decimal? (cs : List Char) : Option Nat := do
  let ds ← digits? Char.isDigit cs
  if ds.length > 1 ∧ ds.head? = some '0' then none else some (ofDigits 10 ds)

def radix? (base : Nat) (cs : List Char) : Option Nat :=
  ofDigits base <$> digits? (fun c => (hexValue? c).any (fun d => d < base)) cs

def inRange (n : Int) : Option Int :=
  if -0x8000000000000000 ≤ n ∧ n < 0x8000000000000000 then some n else none

def integer? : List Char → Option Int
  | '0' :: 'x' :: cs => do inRange (← radix? 16 cs)
  | '0' :: 'o' :: cs => do inRange (← radix? 8 cs)
  | '0' :: 'b' :: cs => do inRange (← radix? 2 cs)
  | '-' :: cs => do inRange (-(← decimal? cs))
  | '+' :: cs => do inRange (← decimal? cs)
  | cs => do inRange (← decimal? cs)

/-- `significand * 10 ^ exponent` rounds to infinity as a double. -/
def overflows (significand : Nat) (exponent : Int) : Bool :=
  let size : Int := (Nat.toDigits 10 significand).length + exponent
  let bound := (1 <<< 1024) - (1 <<< 970)
  if significand = 0 ∨ size < 300 then false
  else if 400 < size then true
  else if 0 ≤ exponent then bound ≤ significand * Nat.pow 10 exponent.toNat
  else bound * Nat.pow 10 (-exponent).toNat ≤ significand

def exponentDigits? : List Char → Option Int
  | '-' :: cs => (fun ds => -(ofDigits 10 ds : Int)) <$> digits? Char.isDigit cs
  | '+' :: cs => (fun ds => (ofDigits 10 ds : Int)) <$> digits? Char.isDigit cs
  | cs => (fun ds => (ofDigits 10 ds : Int)) <$> digits? Char.isDigit cs

def exponent? : List Char → Option Int
  | [] => some 0
  | 'e' :: cs => exponentDigits? cs
  | 'E' :: cs => exponentDigits? cs
  | _ => none

def isRun (c : Char) : Bool := c.isDigit || c == '_'

/-- A number with a fraction, an exponent or both; the result says whether it overflows. -/
def unsignedFloat? (cs : List Char) : Option Bool := do
  let whole ← decimal? (cs.takeWhile isRun)
  match cs.dropWhile isRun with
  | [] => none
  | '.' :: rest => do
      let fraction ← digits? Char.isDigit (rest.takeWhile isRun)
      let exponent ← exponent? (rest.dropWhile isRun)
      return overflows (whole * Nat.pow 10 fraction.length + ofDigits 10 fraction)
        (exponent - fraction.length)
  | rest => do return overflows whole (← exponent? rest)

def special (cs : List Char) : Bool := cs == ['i', 'n', 'f'] || cs == ['n', 'a', 'n']

/-- A number that would round to positive infinity is refused. -/
def isFloat : List Char → Bool
  | '-' :: cs => special cs || (unsignedFloat? cs).isSome
  | '+' :: cs => special cs || unsignedFloat? cs == some false
  | cs => special cs || unsignedFloat? cs == some false

end AffinityHeap.Toml
