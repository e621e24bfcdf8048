import AffinityHeap.Alignment
import AffinityHeap.Word

namespace AffinityHeap

theorem roundUp_of_dvd {n unit : Nat} (hu : 0 < unit) (h : unit ∣ n) : roundUp n unit = n := by
  obtain ⟨q, rfl⟩ := h
  have hlt : unit - 1 < unit := by omega
  rw [roundUp, ceilDiv, Nat.mul_add_div hu, Nat.div_eq_of_lt hlt, Nat.add_zero, Nat.mul_comm]

theorem roundUp_le_of_dvd {n m unit : Nat} (hu : 0 < unit) (hle : n ≤ m) (hdvd : unit ∣ m) :
    roundUp n unit ≤ m := by
  rw [← roundUp_of_dvd hu hdvd]
  exact Nat.mul_le_mul_right _ (Nat.div_le_div_right (by omega))

theorem powerOfTwo_dvd {m n : Nat} (hm : IsPowerOfTwo m) (hn : IsPowerOfTwo n) (hle : m ≤ n) :
    m ∣ n := by
  obtain ⟨i, rfl⟩ := isPowerOfTwo_iff.1 hm
  obtain ⟨j, rfl⟩ := isPowerOfTwo_iff.1 hn
  simp only [Nat.one_shiftLeft] at hle ⊢
  exact Nat.pow_dvd_pow 2 ((Nat.pow_le_pow_iff_right (by decide)).1 hle)

/-- What is kept of a multiple is one too. -/
theorem dvd_wrap {n k : Nat} (hn : IsPowerOfTwo n) (hk : n ∣ k) : n ∣ wrap k := by
  have hword : IsPowerOfTwo UInt64.size := isPowerOfTwo_iff.2 ⟨64, rfl⟩
  rcases Nat.le_total n UInt64.size with hle | hle
  · exact (Nat.dvd_mod_iff (powerOfTwo_dvd hn hword hle)).2 hk
  · rw [wrap, Nat.mod_eq_zero_of_dvd (Nat.dvd_trans (powerOfTwo_dvd hword hn hle) hk)]
    exact Nat.dvd_zero _

theorem powerOfTwo_max {m n : Nat} (hm : IsPowerOfTwo m) (hn : IsPowerOfTwo n) :
    IsPowerOfTwo (max m n) := by
  rcases Nat.le_total m n with h | h
  · rwa [Nat.max_eq_right h]
  · rwa [Nat.max_eq_left h]

theorem dvd_max_sixteen {m n : Nat} (hn : IsPowerOfTwo n) (hm : m ≤ 16) :
    n ∣ max (max n 16) m := by
  rw [Nat.max_eq_left (by omega : m ≤ max n 16)]
  rcases Nat.le_total n 16 with h | h
  · rw [Nat.max_eq_right h]
    exact powerOfTwo_dvd hn (isPowerOfTwo_iff.2 ⟨4, rfl⟩) h
  · exact ⟨1, by rw [Nat.max_eq_left h, Nat.mul_one]⟩

/-- A word that is rounded up to more than a word is rounded up to nothing. -/
theorem wrap_roundUp_of_le {n unit : Nat} (hunit : IsPowerOfTwo unit) (hn : n < UInt64.size)
    (hle : UInt64.size ≤ roundUp n unit) : wrap (roundUp n unit) = 0 := by
  have hword : IsPowerOfTwo UInt64.size := isPowerOfTwo_iff.2 ⟨64, rfl⟩
  rcases Nat.le_total unit UInt64.size with h | h
  · have hge : roundUp n unit ≤ UInt64.size :=
      roundUp_le_of_dvd hunit.pos (Nat.le_of_lt hn) (powerOfTwo_dvd hunit hword h)
    rw [Nat.le_antisymm hge hle, wrap, Nat.mod_self]
  · exact Nat.mod_eq_zero_of_dvd (Nat.dvd_trans (powerOfTwo_dvd hword hunit h) (dvd_roundUp ..))

/-- The greatest word is rounded up to nothing. -/
theorem wrap_roundUp_greatest {unit : Nat} (hunit : IsPowerOfTwo unit) (hlong : 1 < unit)
    (hword : unit < UInt64.size) : wrap (roundUp (UInt64.size - 1) unit) = 0 := by
  have hdvd : unit ∣ UInt64.size :=
    powerOfTwo_dvd hunit (isPowerOfTwo_iff.2 ⟨64, rfl⟩) (Nat.le_of_lt hword)
  have hge : UInt64.size - 1 ≤ roundUp (UInt64.size - 1) unit := le_roundUp hunit.pos
  have hne : roundUp (UInt64.size - 1) unit ≠ UInt64.size - 1 := fun heq => by
    have hone : unit ∣ UInt64.size - (UInt64.size - 1) :=
      Nat.dvd_sub hdvd (heq ▸ dvd_roundUp ..)
    exact absurd (Nat.le_of_dvd Nat.one_pos hone) (Nat.not_le.2 hlong)
  exact wrap_roundUp_of_le hunit (by decide) (by omega)

end AffinityHeap
