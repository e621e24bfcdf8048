import AffinityHeap.Allocator

namespace AffinityHeap

/-- The place of the one allocator of a process. -/
abbrev Instance : Type := Option Allocator

namespace Instance

def started [TomlReader] (e : Environment) : Allocator :=
  match Allocator.ofEnvironment e with
  | .ok a => a
  | .error _ => .default

/-- The allocator, made from the environment if there is none; a bad environment gives the
builtin settings. -/
def allocator [TomlReader] (e : Environment) (i : Instance) : Allocator :=
  match i with
  | some a => a
  | none => started e

def allocate [TomlReader] (e : Environment) (i : Instance) (size : Nat) (affinity : Affinity) :
    StateM AddressSpace (Except Corruption (Option Nat) × Instance) := do
  let (result, a) ← (i.allocator e).allocate size affinity
  return (result, some a)

def deallocate (i : Instance) (address size : Nat) :
    StateM AddressSpace (Except Corruption Bool × Instance) :=
  match i with
  | none => return (.ok false, none)
  | some a => do
      let (result, a) ← a.deallocate address size
      return (result, some a)

/-- Puts a new allocator in front of the one that runs, if its settings are valid. -/
def init (c : Config) (i : Instance) : Except HeapError Unit × Instance :=
  let next := match i with
    | some a => Allocator.wrap c a
    | none => Allocator.new c
  match next with
  | .ok a => (.ok (), some a)
  | .error e => (.error e, i)

def swapBackend [TomlReader] (e : Environment) (kind : BackendKind) (i : Instance) :
    Except HeapError Unit × Instance :=
  let previous : Except HeapError Allocator := match i with
    | some a => .ok a
    | none => Allocator.ofEnvironment e
  match previous with
  | .error fault => (.error fault, i)
  | .ok a =>
      match Allocator.wrap { a.config with backend := kind } a with
      | .ok a => (.ok (), some a)
      | .error fault => (.error fault, some a)

/-- Gives everything back, live or not, and tells what was in use. -/
def shutdown (i : Instance) : StateM AddressSpace (Option HeapStats × Instance) := do
  match i with
  | none => return (none, none)
  | some a =>
      let stats := a.stats (← get).memory
      a.giveBack
      return (some stats, none)

end Instance

end AffinityHeap
