import AffinityHeap.Config.Document
import AffinityHeap.Instance
import AffinityHeap.Proofs.HeapSession

namespace AffinityHeap

theorem Allocator.new_valid {c : Config} (h : c.validate = .ok ()) :
    Allocator.new c = .ok ⟨.ofConfig c, []⟩ := by
  rw [new, h]
  rfl

theorem Allocator.new_eq_ok {c : Config} {a : Allocator} (h : Allocator.new c = .ok a) :
    c.validate = .ok () ∧ a = ⟨.ofConfig c, []⟩ := by
  rw [new] at h
  cases hvalid : c.validate with
  | error e =>
      rw [hvalid] at h
      cases h
  | ok u =>
      rw [hvalid] at h
      cases h
      exact ⟨rfl, rfl⟩

namespace Instance

variable {e : Environment} {i : Instance} {a : Allocator} {c : Config} {fault : HeapError}
  {kind : BackendKind}

theorem init_invalid (h : c.validate = .error fault) (i : Instance) :
    init c i = (.error fault, i) := by
  cases i <;> simp only [init, Allocator.wrap, Allocator.new, h] <;> rfl

/-- The levels of the allocator that runs, if there is one. -/
def levels : Instance → List Level
  | some a => a.levels
  | none => []

theorem init_valid (h : c.validate = .ok ()) (i : Instance) :
    init c i = (.ok (), some ⟨.ofConfig c, i.levels⟩) := by
  cases i <;> simp only [init, Allocator.wrap, Allocator.new, h] <;> rfl

theorem shutdown_none (i : Instance) (s : AddressSpace) : (i.shutdown s).1.2 = none := by
  cases i <;> rfl

variable [TomlReader]

theorem started_eq (e : Environment) :
    ∃ c, c.validate = .ok () ∧ started e = ⟨.ofConfig c, []⟩ := by
  rw [started]
  cases h : Allocator.ofEnvironment e with
  | error fault => exact ⟨.default, by decide, rfl⟩
  | ok a =>
      rw [Allocator.ofEnvironment] at h
      cases hc : Config.ofEnvironment e with
      | error fault =>
          rw [hc] at h
          cases h
      | ok c =>
          rw [hc] at h
          obtain ⟨hvalid, rfl⟩ := Allocator.new_eq_ok h
          exact ⟨c, hvalid, rfl⟩

/-- The backend is no part of what makes settings valid. -/
theorem swapBackend_some (h : a.config.validate = .ok ()) (e : Environment) (kind : BackendKind) :
    swapBackend e kind (some a) =
      (.ok (), some ⟨.ofConfig { a.config with backend := kind }, a.levels⟩) := by
  have hvalid : Config.validate { a.config with backend := kind } = .ok () := h
  simp only [swapBackend, Allocator.wrap, hvalid]
  rfl

/-- A swap fails only if there is no allocator and the environment does not give one. -/
theorem swapBackend_cases (i : Instance) (h : (i.allocator e).config.validate = .ok ())
    (kind : BackendKind) :
    (i = none ∧ ∃ fault, swapBackend e kind i = (.error fault, i)) ∨
      swapBackend e kind i = (.ok (), some
        ⟨.ofConfig { (i.allocator e).config with backend := kind }, (i.allocator e).levels⟩) := by
  cases i with
  | some a => exact .inr (swapBackend_some h e kind)
  | none =>
      cases hstart : Allocator.ofEnvironment e with
      | error fault => exact .inl ⟨rfl, fault, by simp only [swapBackend, hstart]⟩
      | ok a =>
          have ha : allocator e none = a := by rw [allocator, started, hstart]
          rw [ha] at h ⊢
          refine .inr (.trans ?_ (swapBackend_some h e kind))
          simp only [swapBackend, hstart]

end Instance

/-- The one allocator of a process, the memory behind it and the pointers its clients hold. -/
structure InstanceSession where
  place : Instance
  space : AddressSpace
  live : List Issued

inductive InstanceRequest where
  | call (c : AllocatorCall)
  | write (grant : Grant) (offset : Nat) (bytes : List UInt8)
  | init (c : Config)
  | swap (kind : BackendKind)
  deriving DecidableEq

namespace InstanceSession

def start (space : AddressSpace) : InstanceSession := ⟨none, space, []⟩

def grants (s : InstanceSession) : List Grant := Issued.grants s.live

variable [TomlReader]

/-- The chain that the next call is made on. -/
def heap (e : Environment) (s : InstanceSession) : HeapSession :=
  ⟨s.place.allocator e, s.space, s.live⟩

def serve (e : Environment) (s : InstanceSession) :
    AllocatorCall → Except Corruption InstanceSession
  | .allocate size affinity =>
      match s.place.allocate e size affinity s.space with
      | ((.ok answer, place), space) => .ok ⟨place, space, Issued.add s.live size 0 answer⟩
      | ((.error fault, _), _) => .error fault
  | .release g =>
      match s.place.deallocate g.address g.size s.space with
      | ((.ok true, place), space) => .ok ⟨place, space, Issued.withdraw s.live g⟩
      | ((.ok false, place), space) => .ok { s with place, space }
      | ((.error fault, _), _) => .error fault
  | .setBlockSize affinity blockSize =>
      .ok { s with place := some ((s.place.allocator e).setBlockSize affinity blockSize).2 }
  | .setAlignment affinity alignment =>
      .ok { s with place := some ((s.place.allocator e).setAlignment affinity alignment).2 }
  | .configurePool settings =>
      .ok { s with place := some ((s.place.allocator e).configurePool settings).2 }
  | .reclaim =>
      match (s.place.allocator e).reclaim s.space with
      | ((_, allocator), space) => .ok { s with place := some allocator, space }

def apply (e : Environment) (s : InstanceSession) :
    InstanceRequest → Except Corruption InstanceSession
  | .call c => s.serve e c
  | .write g offset bytes =>
      .ok { s with space.memory := s.space.memory.setBytes (g.address + offset) bytes }
  | .init c =>
      match s.place.init c with
      | (.ok (), place) => .ok { s with place, live := s.live.map Issued.deeper }
      | (.error _, place) => .ok { s with place }
  | .swap kind =>
      match s.place.swapBackend e kind with
      | (.ok (), place) => .ok { s with place, live := s.live.map Issued.deeper }
      | (.error _, place) => .ok { s with place }

def run (e : Environment) : List InstanceRequest → InstanceSession →
    Except Corruption InstanceSession
  | [], s => .ok s
  | r :: rest, s =>
      match s.apply e r with
      | .ok s => run e rest s
      | .error fault => .error fault

end InstanceSession

namespace InstanceRequest

variable [TomlReader]

def Releases (g : Grant) : InstanceRequest → Prop
  | call (.release k) => k = g
  | _ => False

/-- As for a chain of allocators; an instance may be asked for settings that are not valid. -/
def Proper (e : Environment) (s : InstanceSession) : InstanceRequest → Prop
  | call c => c.Proper 0 (s.place.allocator e) s.live
  | write g offset bytes => g ∈ s.grants ∧ offset + bytes.length ≤ g.size
  | init c => c.validate = .ok () → c.Narrow
  | swap kind => Config.Narrow { (s.place.allocator e).config with backend := kind }

end InstanceRequest

namespace InstanceSession

variable [TomlReader] {e : Environment} {s t : InstanceSession} {c : AllocatorCall}
  {r : InstanceRequest}

def ProperRun (e : Environment) : List InstanceRequest → InstanceSession → Prop
  | [], _ => True
  | r :: rest, s => r.Proper e s ∧ ∀ t, s.apply e r = .ok t → ProperRun e rest t

/-- The invariant of every run. -/
structure Kept (e : Environment) (s : InstanceSession) : Prop where
  chain : (s.heap e).Kept
  fresh : s.place = none → s.live = []

/-- A call is one on the chain that runs or is made from the environment for it. -/
theorem serve_eq (h : s.place = none → ∀ g, c ≠ .release g) {t : HeapSession}
    (ht : HeapSession.serve 0 (s.heap e) c = .ok t) :
    s.serve e c = .ok ⟨some t.allocator, t.space, t.live⟩ := by
  cases c with
  | allocate size affinity =>
      rw [HeapSession.serve] at ht
      simp only [heap] at ht
      split at ht
      · rename_i hrun
        cases ht
        simp only [serve, Instance.allocate, bind, StateT.bind, hrun]
        rfl
      · cases ht
  | release g =>
      cases hplace : s.place with
      | none => exact absurd rfl (h hplace g)
      | some a =>
          rw [HeapSession.serve] at ht
          simp only [heap, hplace, Instance.allocator] at ht
          split at ht
          · rename_i hrun
            cases ht
            simp only [serve, hplace, Instance.deallocate, bind, StateT.bind, hrun]
            rfl
          · rename_i hrun
            cases ht
            simp only [serve, hplace, Instance.deallocate, bind, StateT.bind, hrun]
            rfl
          · cases ht
  | setBlockSize affinity blockSize =>
      cases ht
      rfl
  | setAlignment affinity alignment =>
      cases ht
      rfl
  | configurePool settings =>
      cases ht
      rfl
  | reclaim =>
      rw [HeapSession.serve] at ht
      cases ht
      rfl

theorem kept_start {space : AddressSpace} (hs : space.Sound)
    (hnarrow : (Instance.started e).config.Narrow) : Kept e (start space) := by
  obtain ⟨c, hvalid, hstarted⟩ := Instance.started_eq e
  rw [hstarted] at hnarrow
  refine ⟨?_, fun _ => rfl⟩
  show Chain (Instance.started e).levels space []
  rw [hstarted]
  exact Chain.start hs hvalid hnarrow

namespace Kept

theorem valid (hk : Kept e s) : (s.place.allocator e).config.validate = .ok () :=
  (hk.chain.proper _ (List.mem_cons_self ..)).valid

theorem running (hk : Kept e s) {i : Issued} (hi : i ∈ s.live) : ∃ a, s.place = some a := by
  cases hplace : s.place with
  | none =>
      rw [hk.fresh hplace] at hi
      cases hi
  | some a => exact ⟨a, rfl⟩

/-- A valid level in front of the chain that runs, if there is one. -/
theorem wrap (hk : Kept e s) {c : Config} (hvalid : c.validate = .ok ()) (hnarrow : c.Narrow) :
    Kept e
      { s with
        place := some ⟨.ofConfig c, s.place.levels⟩
        live := s.live.map Issued.deeper } := by
  refine ⟨?_, nofun⟩
  show Chain (.ofConfig c :: s.place.levels) s.space (s.live.map Issued.deeper)
  cases hplace : s.place with
  | none =>
      rw [hk.fresh hplace]
      exact Chain.start hk.chain.owned.sound hvalid hnarrow
  | some a =>
      have hc : Chain (s.place.allocator e).levels s.space s.live := hk.chain
      rw [hplace] at hc
      exact hc.wrap hvalid hnarrow

theorem swap (hk : Kept e s) {kind : BackendKind}
    (hnarrow : Config.Narrow { (s.place.allocator e).config with backend := kind }) :
    Kept e
      { s with
        place := some ⟨.ofConfig { (s.place.allocator e).config with backend := kind },
          (s.place.allocator e).levels⟩
        live := s.live.map Issued.deeper } := by
  have hvalid : Config.validate { (s.place.allocator e).config with backend := kind } = .ok () :=
    hk.valid
  exact ⟨Chain.wrap hk.chain hvalid hnarrow, nofun⟩

theorem not_release (hk : Kept e s) (hp : c.Proper 0 (s.place.allocator e) s.live) :
    s.place = none → ∀ g, c ≠ .release g := by
  rintro hplace g rfl
  obtain ⟨i, hi, -⟩ := hp
  obtain ⟨a, ha⟩ := hk.running hi
  rw [hplace] at ha
  cases ha

/-- One request: it is served, keeps the invariant and every grant it does not release. -/
theorem apply (hk : Kept e s) (hr : r.Proper e s) : ∃ t, s.apply e r = .ok t ∧ Kept e t ∧
    ∀ g ∈ s.grants, ¬ r.Releases g → g ∈ t.grants := by
  have hdeeper : ∀ g ∈ s.grants, g ∈ Issued.grants (s.live.map Issued.deeper) := fun g hg => by
    rw [Issued.grants_deeper]
    exact hg
  cases r with
  | call c =>
      have hc : Chain ([] ++ (s.heap e).allocator.levels) s.space s.live := hk.chain
      obtain ⟨t, hserves⟩ := HeapSession.exists_serves (s := s.heap e) hc hr
      refine ⟨⟨some t.allocator, t.space, t.live⟩, serve_eq (hk.not_release hr) hserves.run,
        ⟨hserves.chain, nofun⟩, fun g hg hkeep => hserves.lasts g hg fun h => hkeep ?_⟩
      cases c with
      | release k => exact h
      | _ => exact h
  | write g offset bytes =>
      exact ⟨_, rfl, ⟨hk.chain.write hr.1 hr.2, hk.fresh⟩, fun _ h _ => h⟩
  | init c =>
      cases hvalid : c.validate with
      | error fault =>
          refine ⟨s, ?_, hk, fun _ h _ => h⟩
          simp only [InstanceSession.apply, Instance.init_invalid hvalid]
      | ok u =>
          refine ⟨_, ?_, hk.wrap hvalid (hr hvalid), fun g hg _ => hdeeper g hg⟩
          simp only [InstanceSession.apply, Instance.init_valid hvalid]
  | swap kind =>
      rcases Instance.swapBackend_cases s.place hk.valid kind with ⟨-, fault, hrun⟩ | hrun
      · refine ⟨s, ?_, hk, fun _ h _ => h⟩
        simp only [InstanceSession.apply, hrun]
      · refine ⟨_, ?_, hk.swap hr, fun g hg _ => hdeeper g hg⟩
        simp only [InstanceSession.apply, hrun]

theorem run (hk : Kept e s) {requests : List InstanceRequest} (hr : s.ProperRun e requests) :
    ∃ t, s.run e requests = .ok t ∧ Kept e t := by
  induction requests generalizing s with
  | nil => exact ⟨s, rfl, hk⟩
  | cons r rest ih =>
      obtain ⟨s', hs, hk', -⟩ := hk.apply hr.1
      obtain ⟨t, ht, hkt⟩ := ih hk' (hr.2 s' hs)
      exact ⟨t, by rw [InstanceSession.run, hs]; exact ht, hkt⟩

end Kept

/-- What the clients of a process are promised, as long as nobody shuts its allocator down. -/
structure Promises (e : Environment) (s : InstanceSession) : Prop where
  answers : ∀ r, r.Proper e s → ∃ t, s.apply e r = .ok t ∧
    ∀ g ∈ s.grants, ¬ r.Releases g → g ∈ t.grants
  releases : ∀ i ∈ s.live, ∃ a a' space', s.place = some a ∧
    a.SoleRelease i.level i.toGrant s.space a' space' ∧
    s.place.deallocate i.address i.size s.space = ((.ok true, some a'), space')
  refuses : ∀ c fault, c.validate = .error fault → s.place.init c = (.error fault, s.place)
  swaps : ∀ a, s.place = some a → ∀ kind, ∃ a', s.place.swapBackend e kind = (.ok (), some a') ∧
    a'.nested = a.levels ∧ a'.config = { a.config with backend := kind }
  closes : (s.place.shutdown s.space).1.2 = none ∧ ∀ address size space,
    Instance.deallocate none address size space = ((.ok false, none), space)

theorem Kept.promises (hk : Kept e s) : Promises e s where
  answers r hr := by
    obtain ⟨t, ht, -, hlasts⟩ := hk.apply hr
    exact ⟨t, ht, hlasts⟩
  releases i hi := by
    obtain ⟨a, ha⟩ := hk.running hi
    have hc : Chain ([] ++ a.levels) s.space s.live := by
      have hc := hk.chain
      simp only [HeapSession.Kept, heap, ha] at hc
      exact hc
    obtain ⟨a', space', hsole, -⟩ := hc.deallocate hi (Nat.zero_le _)
    refine ⟨a, a', space', ha, hsole, ?_⟩
    simp only [ha, Instance.deallocate, bind, StateT.bind, hsole.run]
    rfl
  refuses c fault h := Instance.init_invalid h s.place
  swaps a ha kind := by
    have hvalid := hk.valid
    rw [ha] at hvalid ⊢
    exact ⟨_, Instance.swapBackend_some hvalid e kind, rfl, rfl⟩
  closes := ⟨Instance.shutdown_none .., fun _ _ _ => rfl⟩

/-- No pointer is lost, whatever allocators are put in front of the one that issued it. -/
theorem run_loses_nothing {space : AddressSpace} (hs : space.Sound)
    (hnarrow : (Instance.started e).config.Narrow) {requests : List InstanceRequest}
    (hr : (start space).ProperRun e requests) :
    ∃ s, (start space).run e requests = .ok s ∧ Promises e s := by
  obtain ⟨s, hrun, hk⟩ := (kept_start hs hnarrow).run hr
  exact ⟨s, hrun, hk.promises⟩

end InstanceSession

open InstanceSession in
theorem InstanceSession.run_loses_nothing_small : ∃ s,
    (start (.new (.sideBySide false 16 0x100000000))).run ⟨none, none, fun _ => .error .missing⟩
      [.init .default, .swap .segment, .call (.allocate 64 .objects),
        .init { Config.default with defaultAlignment := 3 }, .call .reclaim] = .ok s ∧
      Promises ⟨none, none, fun _ => .error .missing⟩ s := by
  have hs : (AddressSpace.new (.sideBySide false 16 0x100000000)).Sound :=
    AddressSpace.new_sound (AddressSpace.sideBySide_fair (isPowerOfTwo_iff.2 ⟨4, rfl⟩) false _)
  have hvalid : Config.default.validate = .ok () := by decide
  refine run_loses_nothing hs ⟨by decide, by decide⟩ ⟨fun _ => ⟨by decide, by decide⟩, ?_⟩
  intro t ht
  simp only [apply, start, Instance.init_valid hvalid] at ht
  obtain rfl := Except.ok.inj ht
  refine ⟨⟨by decide, by decide⟩, fun _ _ => ⟨trivial, fun _ _ => ⟨?_, fun _ _ => ?_⟩⟩⟩
  · exact fun h => absurd h (by decide)
  · exact ⟨trivial, fun _ _ => trivial⟩

end AffinityHeap
