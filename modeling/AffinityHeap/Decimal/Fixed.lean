namespace AffinityHeap.Decimal

/-- The nearest whole number to `num / den`; a half goes to the even neighbour. -/
def roundDiv (num den : Nat) : Nat :=
  let q := num / den
  let r := num % den
  if 2 * r < den then q
  else if den < 2 * r then q + 1
  else q + q % 2

/-- The number `units / 10 ^ places`, written out. -/
def fixed (places units : Nat) : String :=
  let digits := Nat.toDigits 10 (units % Nat.pow 10 places)
  let fraction := List.replicate (places - digits.length) '0' ++ digits
  s!"{units / Nat.pow 10 places}." ++ String.ofList fraction

/-- A non-negative finite double as `significand * 2 ^ (exponent - 1075)`. -/
structure Binary where
  significand : Nat
  exponent : Nat
  deriving DecidableEq, Repr

def Binary.ofBits (bits : UInt64) : Binary :=
  let n := bits.toNat
  let field := n / 0x10000000000000 % 0x800
  let fraction := n % 0x10000000000000
  if field = 0 then ⟨fraction, 1⟩ else ⟨0x10000000000000 + fraction, field⟩

def Binary.roundTo (places : Nat) (b : Binary) : Nat :=
  roundDiv (b.significand * Nat.pow 10 places * 1 <<< b.exponent) (1 <<< 1075)

def ofFloat (places : Nat) (x : Float) : String :=
  fixed places ((Binary.ofBits x.toBits).roundTo places)

end AffinityHeap.Decimal
