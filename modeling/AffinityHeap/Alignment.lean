import AffinityHeap.Error

namespace AffinityHeap

def IsPowerOfTwo (n : Nat) : Prop := 1 <<< n.log2 = n

instance (n : Nat) : Decidable (IsPowerOfTwo n) := inferInstanceAs (Decidable (_ = _))

theorem isPowerOfTwo_iff {n : Nat} : IsPowerOfTwo n ↔ ∃ k, n = 1 <<< k :=
  ⟨fun h => ⟨n.log2, h.symm⟩, fun ⟨k, h⟩ => by
    rw [IsPowerOfTwo, h, Nat.one_shiftLeft k, Nat.log2_two_pow, Nat.one_shiftLeft]⟩

theorem IsPowerOfTwo.pos {n : Nat} (h : IsPowerOfTwo n) : 0 < n := by
  obtain ⟨k, rfl⟩ := isPowerOfTwo_iff.1 h
  rw [Nat.one_shiftLeft]
  exact Nat.two_pow_pos k

def checkAlignment (n : Nat) : Except HeapError Unit :=
  if IsPowerOfTwo n then .ok () else .error (.invalidConfig (.alignment n))

def ceilDiv (n unit : Nat) : Nat := (n + (unit - 1)) / unit

def roundUp (n unit : Nat) : Nat := ceilDiv n unit * unit

def roundDown (n unit : Nat) : Nat := n / unit * unit

theorem dvd_roundUp (n unit : Nat) : unit ∣ roundUp n unit := Nat.dvd_mul_left ..

theorem le_roundUp {n unit : Nat} (h : 0 < unit) : n ≤ roundUp n unit := by
  have hlt := Nat.lt_div_mul_add h (a := n + (unit - 1))
  simp only [roundUp, ceilDiv]
  omega

theorem roundUp_lt {n unit : Nat} (h : 0 < unit) : roundUp n unit < n + unit := by
  have hle := Nat.div_mul_le_self (n + (unit - 1)) unit
  simp only [roundUp, ceilDiv]
  omega

end AffinityHeap
