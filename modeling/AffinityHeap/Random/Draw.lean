import AffinityHeap.Random.ChaCha

namespace AffinityHeap.Random

/-- What a workload asks of chance: a number below a bound, drawn from narrow or from wide words,
and an event. -/
structure Source (σ : Type) where
  narrow : Nat → σ → Nat × σ
  wide : Nat → σ → Nat × σ
  event : σ → Bool × σ

def Source.Fair {σ : Type} (s : Source σ) : Prop :=
  ∀ n state, 0 < n → (s.narrow n state).1 < n ∧ (s.wide n state).1 < n

def maxTries : Nat := 64

/-- The greatest low half that is taken: beyond it some numbers would be more likely. -/
def zone (width n : Nat) : Nat := n * 1 <<< (width - 1 - n.log2) - 1

/-- The high half of a word times `n`, the word being drawn anew while the low half is outside the
zone. Less than half of the words are, so a run of them that uses up the tries does not occur; the
last one would be taken. -/
def below {σ : Type} (width : Nat) (draw : σ → Nat × σ) (n : Nat) : Nat → σ → Nat × σ
  | 0, state =>
      let (v, state) := draw state
      (v % 1 <<< width * n / 1 <<< width, state)
  | tries + 1, state =>
      let (v, state) := draw state
      let product := v % 1 <<< width * n
      if product % 1 <<< width ≤ zone width n then (product / 1 <<< width, state)
      else below width draw n tries state

theorem below_lt {σ : Type} {width n : Nat} (draw : σ → Nat × σ) (h : 0 < n) :
    ∀ (tries : Nat) (state : σ), (below width draw n tries state).1 < n := by
  have bound : ∀ v, v % 1 <<< width * n / 1 <<< width < n := by
    intro v
    rw [Nat.one_shiftLeft]
    have hlow := Nat.mod_lt v (Nat.two_pow_pos width)
    exact Nat.div_lt_of_lt_mul (Nat.mul_lt_mul_of_pos_right hlow h)
  intro tries
  induction tries with
  | zero => intro state; exact bound _
  | succ tries ih =>
      intro state
      simp only [below]
      split
      · exact bound _
      · exact ih _

/-- The chance of an event, two in five, as a share of the wide words. -/
def eventShare : UInt64 := 7378697629483821056

def ChaCha.source : Source ChaCha where
  narrow n g := below 32 (fun g => let (w, g) := g.next32; (w.toNat, g)) n maxTries g
  wide n g := below 64 (fun g => let (w, g) := g.next64; (w.toNat, g)) n maxTries g
  event g :=
    let (w, g) := g.next64
    (w < eventShare, g)

theorem ChaCha.source_fair : ChaCha.source.Fair :=
  fun _ _ h => ⟨below_lt _ h _ _, below_lt _ h _ _⟩

end AffinityHeap.Random
