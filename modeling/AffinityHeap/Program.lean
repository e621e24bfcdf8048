import AffinityHeap.Options
import AffinityHeap.Workload

namespace AffinityHeap

structure Outcome where
  code : Nat
  stdout : String
  stderr : String
  deriving DecidableEq, Repr

namespace Program

open AffinityHeap.Random (Source)

def refused (message : String) : Outcome := ⟨2, "", message ++ "\n"⟩

def aborted (p : Panic) : Outcome := ⟨134, "", p.message ++ "\n"⟩

variable [TomlReader]

def settings (o : Options) (e : Environment) : Except HeapError Config := do
  let c ← Config.ofEnvironment e
  return match o.backend with
    | some kind => { c with backend := kind }
    | none => c

def reclaimText (released : Nat) : String := s!"Reclaimed {released} bytes of empty blocks\n"

def closingText (stats : HeapStats) : String :=
  s!"After release: {stats.reservedSize} bytes reserved, {stats.memorySize} bytes obtained\n"

def verdict (valid : Bool) (text : String) : Outcome :=
  if valid then ⟨0, text ++ "Validation passed\n", ""⟩ else ⟨1, text, "Validation FAILED\n"⟩

def reclaimIf (wanted : Bool) (a : Allocator) : StateM AddressSpace (String × Allocator) := do
  if wanted then
    let (released, a) ← a.reclaim
    return (reclaimText released, a)
  else return ("", a)

/-- Reports, checks, releases what is left and shuts down. -/
def finish (o : Options) (e : Environment) (live : List Held) (i : Instance) :
    Workload.Step Outcome := do
  let (reclaimed, a) ← Workload.call (reclaimIf o.reclaim (i.allocator e))
  let memory := (← Workload.call get).memory
  let report := (a.report memory).render
  let valid := (a.validate memory).isOk
  let i ← Workload.releaseAll (some a) live
  let (stats, _) ← Workload.call i.shutdown
  return verdict valid (reclaimed ++ report ++ (stats.map closingText).getD "")

/-- The workload on a heap that has been started, up to the end of the program. -/
def work {σ : Type} (build : Build) (o : Options) (e : Environment) (source : Source σ)
    (chance : σ) (i : Instance) : Workload.Step Outcome := do
  let (live, i) ← Workload.run build e source o.rounds chance i
  finish o e live i

/-- The outcome, and the journal of the calls on the heap. -/
def runWith {σ : Type} (build : Build) (arguments : List String) (e : Environment)
    (source : Source σ) (seeded : UInt64 → σ) (space : AddressSpace) : Outcome × List Event :=
  match Options.parse arguments with
  | .error fault => (refused fault.message, [])
  | .ok o =>
      match settings o e with
      | .error fault => (refused s!"strata_report: {fault.message}", [])
      | .ok c =>
          match Instance.init c none with
          | (.error fault, _) => (refused s!"strata_report: {fault.message}", [])
          | (.ok (), i) =>
              match work build o e source (seeded (UInt64.ofNat o.seed)) i [] space with
              | ((.ok outcome, events), _) => (outcome, events.reverse)
              | ((.error p, events), _) => (aborted p, events.reverse)

/-- The alignment that every region has which a program obtains. -/
def grain : Nat := 16

def run (arguments : List String) (e : Environment) : Outcome :=
  (runWith .unchecked arguments e Random.ChaCha.source Random.ChaCha.ofSeed
    (.new (.sideBySide false grain Policy.extent))).1

end Program

end AffinityHeap
