import AffinityHeap.AddressSpace

namespace AffinityHeap

/-- A pointer handed out and the size it was asked for. -/
structure Grant where
  address : Nat
  size : Nat
  deriving DecidableEq, Repr

namespace Grant

/-- The bytes a grant stands for; one without bytes still has an address of its own. -/
def region (g : Grant) : Region := ⟨g.address, max g.size 1⟩

/-- The live grants after an answer to a request for `size` bytes. -/
def add (live : List Grant) (size : Nat) : Option Nat → List Grant
  | some address => ⟨address, size⟩ :: live
  | none => live

end Grant

namespace Memory

variable {m m' : Memory} {a x i k n : Nat} {bytes : List UInt8}

theorem byte_congr (h : m'.word (x / 4) = m.word (x / 4)) : m'.byte x = m.byte x := by
  rw [byte, h, byte]

theorem word_congr (h : ∀ k < 4, m'.byte (4 * i + k) = m.byte (4 * i + k)) :
    m'.word i = m.word i := by
  have hbyte : ∀ k < 4, (m'.word i).toNat / 1 <<< (8 * k) % 256 =
      (m.word i).toNat / 1 <<< (8 * k) % 256 := fun k hk => by
    have hnumbers := congrArg UInt8.toNat (h k hk)
    simpa only [byte, show (4 * i + k) / 4 = i by omega, show (4 * i + k) % 4 = k by omega,
      UInt8.toNat_ofNat'] using hnumbers
  have h0 := hbyte 0 (by decide)
  have h1 := hbyte 1 (by decide)
  have h2 := hbyte 2 (by decide)
  have h3 := hbyte 3 (by decide)
  have hw := (m.word i).toNat_lt
  have hw' := (m'.word i).toNat_lt
  refine UInt32.toNat_inj.1 ?_
  simp only [Nat.reduceMul, Nat.reduceShiftLeft] at h0 h1 h2 h3
  omega

theorem word_setByte_of_ne (v : UInt8) (h : a / 4 ≠ i) : (m.setByte a v).word i = m.word i := by
  simp only [setByte, word_setWord, if_neg h]

theorem word_setBytes_of_outside (h : 4 * i + 4 ≤ a ∨ a + bytes.length ≤ 4 * i) :
    (m.setBytes a bytes).word i = m.word i := by
  induction bytes generalizing m a with
  | nil => rfl
  | cons b rest ih =>
      rw [List.length_cons] at h
      rw [setBytes, ih (by omega), word_setByte_of_ne]
      omega

theorem byte_setBytes_of_outside (h : x < a ∨ a + bytes.length ≤ x) :
    (m.setBytes a bytes).byte x = m.byte x := by
  induction bytes generalizing m a with
  | nil => rfl
  | cons b rest ih =>
      rw [List.length_cons] at h
      rw [setBytes, ih (by omega), byte_setByte, if_neg (by omega)]

theorem byte_setBytes_inside (hk : k < bytes.length) :
    (m.setBytes a bytes).byte (a + k) = bytes[k] := by
  induction bytes generalizing m a k with
  | nil => exact absurd hk (Nat.not_lt_zero k)
  | cons b rest ih =>
      cases k with
      | zero =>
          show ((m.setByte a b).setBytes (a + 1) rest).byte a = b
          rw [byte_setBytes_of_outside (.inl (by omega)), byte_setByte, if_pos rfl]
      | succ k =>
          rw [setBytes, show a + (k + 1) = a + 1 + k by omega]
          exact ih (by simpa using hk)

theorem byte_setBytes_getD (m : Memory) (a offset i : Nat) (bytes : List UInt8) :
    (m.setBytes (a + offset) bytes).byte (a + i) =
      if offset ≤ i then bytes.getD (i - offset) (m.byte (a + i)) else m.byte (a + i) := by
  by_cases ho : offset ≤ i
  · rw [if_pos ho, List.getD_eq_getElem?_getD]
    by_cases hin : i - offset < bytes.length
    · have hbyte := byte_setBytes_inside (m := m) (a := a + offset) hin
      rw [show a + offset + (i - offset) = a + i by omega] at hbyte
      rw [hbyte, List.getElem?_eq_getElem hin, Option.getD_some]
    · rw [List.getElem?_eq_none (Nat.not_lt.1 hin), Option.getD_none]
      exact byte_setBytes_of_outside (.inr (by omega))
  · rw [if_neg ho]
    exact byte_setBytes_of_outside (.inl (by omega))

theorem wordOutside_zero (start stop i : Nat) : wordOutside start stop i 0 = 0 := by
  simp [wordOutside]

theorem word_clear (m : Memory) (a n i : Nat) :
    (m.clear a n).word i = wordOutside a (a + n) i (m.word i) := by
  simp only [word, clear, Std.HashMap.getD_eq_getD_getElem?, Std.HashMap.getElem?_map]
  cases m.words[i]? with
  | none => exact (wordOutside_zero ..).symm
  | some w => rfl

theorem word_clear_inside (h : a ≤ 4 * i ∧ 4 * i + 4 ≤ a + n) :
    (m.clear a n).word i = 0 := by
  have hlane : ∀ k < 4, a ≤ 4 * i + k ∧ 4 * i + k < a + n := fun k hk => by omega
  rw [word_clear, wordOutside]
  simp only [hlane 0 (by decide), hlane 1 (by decide), hlane 2 (by decide), hlane 3 (by decide),
    and_self, if_true]
  rfl

theorem lane_cases (c : Prop) [Decidable c] (w unit : Nat) :
    ∃ d < 256, (if c then 0 else w / unit % 256 * unit) = d * unit := by
  split
  · exact ⟨0, by decide, (Nat.zero_mul unit).symm⟩
  · exact ⟨_, Nat.mod_lt _ (by decide), rfl⟩

theorem byte_clear_of_outside (h : x < a ∨ a + n ≤ x) : (m.clear a n).byte x = m.byte x := by
  have hout : ¬ (a ≤ 4 * (x / 4) + x % 4 ∧ 4 * (x / 4) + x % 4 < a + n) := by omega
  simp only [byte, word_clear, wordOutside, ← UInt8.toNat_inj, UInt8.toNat_ofNat',
    UInt32.toNat_ofNat']
  have hw := (m.word (x / 4)).toNat_lt
  generalize (m.word (x / 4)).toNat = w at hw ⊢
  have hlane := fun k => lane_cases (a ≤ 4 * (x / 4) + k ∧ 4 * (x / 4) + k < a + n) w
    (1 <<< (8 * k))
  obtain ⟨c0, h0, e0⟩ := hlane 0
  obtain ⟨c1, h1, e1⟩ := hlane 1
  obtain ⟨c2, h2, e2⟩ := hlane 2
  obtain ⟨c3, h3, e3⟩ := hlane 3
  rw [e0, e1, e2, e3]
  have hk : x % 4 = 0 ∨ x % 4 = 1 ∨ x % 4 = 2 ∨ x % 4 = 3 := by omega
  simp only [Nat.reduceMul, Nat.reduceShiftLeft] at e0 e1 e2 e3
  rcases hk with hk | hk | hk | hk <;> rw [hk] at hout ⊢ <;>
    simp only [Nat.reduceMul, Nat.reduceShiftLeft]
  · rw [if_neg hout] at e0
    omega
  · rw [if_neg hout] at e1
    omega
  · rw [if_neg hout] at e2
    omega
  · rw [if_neg hout] at e3
    omega

/-- The payload of every grant is the same in both memories. -/
def Agrees (live : List Grant) (m m' : Memory) : Prop :=
  ∀ g ∈ live, ∀ i < g.size, m'.byte (g.address + i) = m.byte (g.address + i)

end Memory

end AffinityHeap
