namespace AffinityHeap.Text

def hexDigits (n : Nat) : List Char := Nat.toDigits 16 n

def address (n : Nat) : String := "0x" ++ String.ofList (hexDigits n)

/-- At least `width` digits, zeros in front. -/
def paddedHex (width n : Nat) : String :=
  let ds := hexDigits n
  String.ofList (List.replicate (width - ds.length) '0' ++ ds)

end AffinityHeap.Text
