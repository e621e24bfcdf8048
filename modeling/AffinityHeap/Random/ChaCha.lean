namespace AffinityHeap.Random

abbrev Words : Type := Vector UInt32 16

namespace ChaCha

def rotl (x : UInt32) (n : UInt32) : UInt32 := (x <<< n) ||| (x >>> (32 - n))

def quarterRound (a b c d : Fin 16) (v : Words) : Words :=
  let v := v.set a (v[a] + v[b])
  let v := v.set d (rotl (v[d] ^^^ v[a]) 16)
  let v := v.set c (v[c] + v[d])
  let v := v.set b (rotl (v[b] ^^^ v[c]) 12)
  let v := v.set a (v[a] + v[b])
  let v := v.set d (rotl (v[d] ^^^ v[a]) 8)
  let v := v.set c (v[c] + v[d])
  v.set b (rotl (v[b] ^^^ v[c]) 7)

def doubleRound (v : Words) : Words :=
  v |> quarterRound 0 4 8 12 |> quarterRound 1 5 9 13
    |> quarterRound 2 6 10 14 |> quarterRound 3 7 11 15
    |> quarterRound 0 5 10 15 |> quarterRound 1 6 11 12
    |> quarterRound 2 7 8 13 |> quarterRound 3 4 9 14

def rounds : Nat → Words → Words
  | 0, v => v
  | n + 1, v => rounds n (doubleRound v)

/-- "expand 32-byte k", the key, the number of the block, and zeros. -/
def initial (key : Vector UInt32 8) (counter : UInt64) : Words :=
  #v[0x61707865, 0x3320646e, 0x79622d32, 0x6b206574,
    key[0], key[1], key[2], key[3], key[4], key[5], key[6], key[7],
    counter.toUInt32, (counter >>> 32).toUInt32, 0, 0]

def block (key : Vector UInt32 8) (counter : UInt64) : Words :=
  let start := initial key counter
  Vector.zipWith (· + ·) start (rounds 4 start)

end ChaCha

/-- A stream of words: those of the block at hand still to come, then the blocks from `counter`
on. -/
structure ChaCha where
  key : Vector UInt32 8
  counter : UInt64
  pending : List UInt32

namespace ChaCha

def seedStep (s : UInt64) : UInt64 := s * 6364136223846793005 + 11634580027462260723

/-- The output word of a state: its high bits mixed, then turned by its five highest bits. -/
def seedWord (s : UInt64) : UInt32 :=
  let x := (((s >>> 18) ^^^ s) >>> 27).toUInt32
  let turn := (s >>> 59).toUInt32
  (x >>> turn) ||| (x <<< ((32 - turn) % 32))

def seedWords : Nat → UInt64 → List UInt32
  | 0, _ => []
  | n + 1, s => seedWord (seedStep s) :: seedWords n (seedStep s)

def ofSeed (seed : UInt64) : ChaCha where
  key := Vector.ofFn fun i => (seedWords 8 seed)[i]?.getD 0
  counter := 0
  pending := []

def next32 (g : ChaCha) : UInt32 × ChaCha :=
  match g.pending with
  | w :: rest => (w, { g with pending := rest })
  | [] =>
      match (block g.key g.counter).toList with
      | w :: rest => (w, { g with counter := g.counter + 1, pending := rest })
      | [] => (0, g)

def next64 (g : ChaCha) : UInt64 × ChaCha :=
  let (low, g) := g.next32
  let (high, g) := g.next32
  (low.toUInt64 ||| (high.toUInt64 <<< 32), g)

end ChaCha

end AffinityHeap.Random
