namespace AffinityHeap

/-- What a machine word keeps of a result in a build that does not check for overflow. -/
def wrap (n : Nat) : Nat := n % UInt64.size

/-- A difference of words: below zero it goes on from the top of the range. -/
def wrapSub (m n : Nat) : Nat := if n ≤ m then m - n else m + UInt64.size - n

theorem wrap_of_lt {n : Nat} (h : n < UInt64.size) : wrap n = n := Nat.mod_eq_of_lt h

theorem wrap_of_small {n : Nat} (h : n < 0x100000000) : wrap n = n :=
  wrap_of_lt (Nat.lt_trans h (by decide))

theorem wrap_lt (n : Nat) : wrap n < UInt64.size := Nat.mod_lt n (by decide)

@[simp] theorem wrapSub_add_one (n : Nat) : wrapSub (n + 1) 1 = n := if_pos (Nat.le_add_left 1 n)

theorem wrapSub_of_le {m n : Nat} (h : n ≤ m) : wrapSub m n = m - n := if_pos h

/-- Arithmetic that is checked ends the program where a result does not fit in its word. -/
inductive Build where
  | checked
  | unchecked
  deriving DecidableEq, Repr

end AffinityHeap
