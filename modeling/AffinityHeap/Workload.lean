import AffinityHeap.Instance
import AffinityHeap.Random.Draw

namespace AffinityHeap

open AffinityHeap.Random (Source)

/-- An allocation that has not been released, with the size asked for. -/
structure Held where
  address : Nat
  size : Nat
  deriving DecidableEq, Repr

/-- A call of a workload on the heap and its answer. -/
inductive Event where
  | obtained (held : Held)
  | refused (size : Nat)
  | freed (held : Held) (known : Bool)
  deriving DecidableEq, Repr

namespace Workload

def affinityCount : Nat := 6

/-- The last element takes the place of the one taken out. -/
def swapRemove {α : Type} (xs : Array α) (i : Nat) : Array α :=
  match xs.back? with
  | some last => (xs.setIfInBounds i last).pop
  | none => xs

variable {σ : Type}

/-- Mostly small objects, some arrays, rarely a large buffer. -/
def requestSize (source : Source σ) (chance : σ) : Nat × σ :=
  let (percent, chance) := source.narrow 100 chance
  let (low, count) :=
    if percent < 70 then (1, 128)
    else if percent < 95 then (129, 8064)
    else if percent < 99 then (8193, 122880)
    else (131073, 917504)
  let (n, chance) := source.wide count chance
  (low + n, chance)

structure State (σ : Type) where
  chance : σ
  live : Array Held
  heap : Instance

/-- A step of the workload goes on to the next unless it panics. It keeps a journal of its calls on
the heap, the latest first. -/
abbrev Step (α : Type) := ExceptT Panic (StateT (List Event) (StateM AddressSpace)) α

def call {α : Type} (x : StateM AddressSpace α) : Step α := liftM x

def note (event : Event) : Step Unit := modify fun events => event :: events

/-- A build that checks its arithmetic ends here if some of it did not come out. -/
def verify (build : Build) (operation : String) : Step Unit := do
  if ¬ (← call get).Runs build then throw (.overflow operation)

def releaseOne (i : Instance) (held : Held) : Step Instance := do
  match ← call (i.deallocate held.address held.size) with
  | (.ok known, i) => do
      note (.freed held known)
      return i
  | (.error e, _) => throw (.corruption e)

section

variable [TomlReader]

def obtainOne (build : Build) (e : Environment) (source : Source σ) : State σ → Step (State σ)
  | ⟨chance, live, heap⟩ => do
      let (size, chance) := requestSize source chance
      let (n, chance) := source.narrow affinityCount chance
      let answer ← call (Instance.allocate e heap size ⟨UInt32.ofNat n⟩)
      verify build "multiply"
      match answer with
      | (.ok (some address), i) => do
          note (.obtained ⟨address, size⟩)
          return ⟨chance, live.push ⟨address, size⟩, i⟩
      | (.ok none, i) => do
          note (.refused size)
          return ⟨chance, live, i⟩
      | (.error e, _) => throw (.corruption e)

def round (build : Build) (e : Environment) (source : Source σ) : State σ → Step (State σ)
  | ⟨chance, live, heap⟩ => do
      if live.isEmpty then obtainOne build e source ⟨chance, live, heap⟩
      else
        let (release, chance) := source.event chance
        if release then
          let (index, chance) := source.wide live.size chance
          match live[index]? with
          | none => return ⟨chance, live, heap⟩
          | some held => return ⟨chance, swapRemove live index, ← releaseOne heap held⟩
        else obtainOne build e source ⟨chance, live, heap⟩

def rounds (build : Build) (e : Environment) (source : Source σ) : Nat → State σ → Step (State σ)
  | 0, s => return s
  | n + 1, s => do rounds build e source n (← round build e source s)

end

/-- One more than `index`, a count of 32 bits with a sign. -/
def advance (build : Build) (index : Int32) : Step Int32 := do
  if build = .checked ∧ index = Int32.maxValue then throw (.overflow "add")
  return index + 1

/-- Releases all but every third, of those behind the first `index`. -/
def thin (build : Build) (index : Int32) (i : Instance) :
    List Held → Step (List Held × Instance)
  | [] => return ([], i)
  | held :: rest => do
      let index ← advance build index
      if index % 3 = 0 then do
        let (kept, i) ← thin build index i rest
        return (held :: kept, i)
      else do
        let i ← releaseOne i held
        thin build index i rest

def releaseAll (i : Instance) : List Held → Step Instance
  | [] => return i
  | held :: rest => do releaseAll (← releaseOne i held) rest

/-- What is left of the allocations made in the rounds. -/
def run [TomlReader] (build : Build) (e : Environment) (source : Source σ) (count : Nat)
    (chance : σ) (i : Instance) : Step (List Held × Instance) := do
  let s ← rounds build e source count ⟨chance, #[], i⟩
  thin build 0 s.heap s.live.toList

end Workload

end AffinityHeap
