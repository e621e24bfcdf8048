namespace AffinityHeap

structure Affinity where
  id : UInt32
  deriving DecidableEq, Repr

namespace Affinity

def objects : Affinity := ⟨0⟩

def data : Affinity := ⟨1⟩

def nodes : Affinity := ⟨2⟩

def physics : Affinity := ⟨3⟩

def index (a : Affinity) : Nat := a.id.toNat

def builtinName? (a : Affinity) : Option String :=
  match a.index with
  | 0 => some "objects"
  | 1 => some "data"
  | 2 => some "nodes"
  | 3 => some "physics"
  | _ => none

def poolName (a : Affinity) : String :=
  a.builtinName?.getD s!"affinity_{a.index}"

def label (a : Affinity) : String :=
  a.builtinName?.getD s!"affinity {a.index}"

theorem index_injective {a b : Affinity} (h : a.index = b.index) : a = b := by
  cases a
  cases b
  simpa [index, UInt32.toNat_inj] using h

end Affinity

end AffinityHeap
