import Std.Data.HashMap

namespace AffinityHeap

/-- Byte-addressed memory kept as 32-bit words, word `i` holding the bytes `4 * i` to `4 * i + 3`
with the lowest first. A word that was never written is zero. -/
structure Memory where
  words : Std.HashMap Nat UInt32

namespace Memory

def empty : Memory := ⟨∅⟩

def word (m : Memory) (i : Nat) : UInt32 := m.words.getD i 0

def setWord (m : Memory) (i : Nat) (w : UInt32) : Memory := ⟨m.words.insert i w⟩

theorem word_setWord (m : Memory) (i j : Nat) (w : UInt32) :
    (m.setWord i w).word j = if i = j then w else m.word j := by
  simp [word, setWord, Std.HashMap.getD_insert]

@[simp] theorem word_empty (i : Nat) : empty.word i = 0 := by
  simp [word, empty]

def byte (m : Memory) (a : Nat) : UInt8 :=
  UInt8.ofNat ((m.word (a / 4)).toNat / 1 <<< (8 * (a % 4)))

def setByte (m : Memory) (a : Nat) (b : UInt8) : Memory :=
  let lane := 1 <<< (8 * (a % 4))
  let old := (m.word (a / 4)).toNat
  m.setWord (a / 4) (UInt32.ofNat (old - old / lane % 256 * lane + b.toNat * lane))

theorem byte_setByte (m : Memory) (a b : Nat) (v : UInt8) :
    (m.setByte a v).byte b = if a = b then v else m.byte b := by
  have lanes : ∀ k < 4, 1 <<< (8 * k) = 1 ∧ k = 0 ∨ 1 <<< (8 * k) = 256 ∧ k = 1 ∨
      1 <<< (8 * k) = 65536 ∧ k = 2 ∨ 1 <<< (8 * k) = 16777216 ∧ k = 3 := by decide
  have hv := v.toNat_lt
  have hw := (m.word (a / 4)).toNat_lt
  by_cases hq : a / 4 = b / 4
  · simp only [byte, setByte, word_setWord, hq, if_true, ← UInt8.toNat_inj,
      apply_ite UInt8.toNat]
    rw [hq] at hw
    generalize (m.word (b / 4)).toNat = old at *
    simp only [UInt8.toNat_ofNat', UInt32.toNat_ofNat']
    by_cases hab : a = b
    · subst hab
      simp only [if_true]
      rcases lanes (a % 4) (by omega) with h | h | h | h <;> rw [h.1] <;> omega
    · simp only [hab, if_false]
      rcases lanes (a % 4) (by omega) with h | h | h | h <;>
        rcases lanes (b % 4) (by omega) with g | g | g | g <;>
        rw [h.1, g.1] <;> omega
  · have hab : a ≠ b := fun h => hq (h ▸ rfl)
    simp [byte, setByte, word_setWord, hq, hab]

def bytes (m : Memory) (a n : Nat) : List UInt8 := (List.range n).map (fun i => m.byte (a + i))

def setBytes (m : Memory) (a : Nat) : List UInt8 → Memory
  | [] => m
  | b :: rest => (m.setByte a b).setBytes (a + 1) rest

/-- The part of a word outside a range of bytes. -/
def wordOutside (start stop i : Nat) (w : UInt32) : UInt32 :=
  let lane (k : Nat) : Nat :=
    if start ≤ 4 * i + k ∧ 4 * i + k < stop then 0 else w.toNat / 1 <<< (8 * k) % 256 * 1 <<< (8 * k)
  UInt32.ofNat (lane 0 + lane 1 + lane 2 + lane 3)

def clear (m : Memory) (a n : Nat) : Memory := ⟨m.words.map (wordOutside a (a + n))⟩

/-- The number written in the given bytes, the lowest first. -/
def ofBytes : List UInt8 → Nat
  | [] => 0
  | b :: rest => b.toNat + 256 * ofBytes rest

/-- The lowest `n` bytes of a number. -/
def toBytes : Nat → Nat → List UInt8
  | 0, _ => []
  | n + 1, value => UInt8.ofNat value :: toBytes n (value / 256)

end Memory

end AffinityHeap
