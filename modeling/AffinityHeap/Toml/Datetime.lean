namespace AffinityHeap.Toml

def pair? (a b : Char) (low high : Nat) : Option Nat :=
  let n := (a.toNat - 48) * 10 + (b.toNat - 48)
  if a.isDigit && b.isDigit && low ≤ n && n ≤ high then some n else none

def isLeap (year : Nat) : Bool := year % 4 == 0 && (year % 100 != 0 || year % 400 == 0)

def daysIn (year month : Nat) : Nat :=
  match month with
  | 2 => if isLeap year then 29 else 28
  | 4 => 30
  | 6 => 30
  | 9 => 30
  | 11 => 30
  | _ => 31

/-- What follows a date. -/
def date? : List Char → Option (List Char)
  | y1 :: y2 :: y3 :: y4 :: '-' :: m1 :: m2 :: '-' :: d1 :: d2 :: rest => do
      let century ← pair? y1 y2 0 99
      let year ← pair? y3 y4 0 99
      let month ← pair? m1 m2 1 12
      let _ ← pair? d1 d2 1 (daysIn (century * 100 + year) month)
      return rest
  | _ => none

def fraction? : List Char → Option (List Char)
  | '.' :: c :: rest => if c.isDigit then some (rest.dropWhile Char.isDigit) else none
  | '.' :: [] => none
  | rest => some rest

/-- What follows a time of day. -/
def time? : List Char → Option (List Char)
  | h1 :: h2 :: ':' :: m1 :: m2 :: ':' :: s1 :: s2 :: rest => do
      let _ ← pair? h1 h2 0 23
      let _ ← pair? m1 m2 0 59
      let _ ← pair? s1 s2 0 60
      fraction? rest
  | _ => none

def isOffset : List Char → Bool
  | [] => true
  | ['Z'] => true
  | ['z'] => true
  | [sign, h1, h2, ':', m1, m2] =>
      (sign == '+' || sign == '-') && (pair? h1 h2 0 23).isSome && (pair? m1 m2 0 59).isSome
  | _ => false

def isTimeWithOffset (cs : List Char) : Bool := ((time? cs).map isOffset).getD false

def isDate (cs : List Char) : Bool := date? cs == some []

def isDatetime (cs : List Char) : Bool :=
  time? cs == some [] ||
    match date? cs with
    | some [] => true
    | some (c :: rest) => (c == 'T' || c == 't') && isTimeWithOffset rest
    | none => false

end AffinityHeap.Toml
