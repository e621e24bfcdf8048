import AffinityHeap.Proofs.Instance
import AffinityHeap.Proofs.Moves

namespace AffinityHeap

namespace Allocator

/-- What calls can do to a chain of levels and to the space, whatever the memory holds. -/
inductive Move : List Level × AddressSpace → List Level × AddressSpace → Prop where
  | level {l l' : Level} {s s' : AddressSpace} (front back : List Level)
      (hmove : Level.Move (l, s) (l', s')) : Move (front ++ l :: back, s) (front ++ l' :: back, s')
  | write {levels : List Level} {s : AddressSpace} (m : Memory) :
      Move (levels, s) (levels, { s with memory := m })
  | wrap {levels : List Level} {s : AddressSpace} {c : Config} (hvalid : c.validate = .ok ()) :
      Move (levels, s) (.ofConfig c :: levels, s)
  | close (levels : List Level) (s : AddressSpace) :
      Move (levels, s) ([], (levels.forM (·.giveBack) s).2)

abbrev Moves : List Level × AddressSpace → List Level × AddressSpace → Prop :=
  Relation.ReflTransGen Move

variable {levels levels' front back : List Level} {l l' : Level} {s s' : AddressSpace}
  {a a' : Allocator} {size address : Nat}

theorem level_moves (front back : List Level) (h : Level.Moves (l, s) (l', s')) :
    Moves (front ++ l :: back, s) (front ++ l' :: back, s') := by
  refine Relation.ReflTransGen.lift
    (fun x : Level × AddressSpace => (front ++ x.1 :: back, x.2)) (fun x y hxy => ?_) _ _ h
  exact .level front back hxy

theorem forall_replace {P : Level → Prop} (h : ∀ k ∈ front ++ l :: back, P k) (hl : P l') :
    ∀ k ∈ front ++ l' :: back, P k := by
  intro k hk
  rcases List.mem_append.1 hk with hk | hk
  · exact h k (List.mem_append_left _ hk)
  · rcases List.mem_cons.1 hk with rfl | hk
    · exact hl
    · exact h k (List.mem_append_right front (List.mem_cons_of_mem l hk))

/-- What every move of a level keeps and every new level has, all the levels of a chain have. -/
theorem forall_of_moves {P : Level → Prop} {x y : List Level × AddressSpace}
    (hmove : ∀ x y, Level.Move x y → P x.1 → P y.1)
    (hnew : ∀ c : Config, c.validate = .ok () → P (.ofConfig c)) (hx : ∀ l ∈ x.1, P l)
    (h : Moves x y) : ∀ l ∈ y.1, P l := by
  induction h with
  | refl => exact hx
  | tail _ h ih =>
      cases h with
      | level front back h =>
          exact forall_replace ih (hmove _ _ h (ih _ (List.mem_append_right front
            (List.mem_cons_self ..))))
      | write m => exact ih
      | wrap hvalid =>
          intro k hk
          rcases List.mem_cons.1 hk with rfl | hk
          · exact hnew _ hvalid
          · exact ih k hk
      | close levels s => exact fun k hk => absurd hk List.not_mem_nil

theorem indexed_of_moves {x y : List Level × AddressSpace} (hx : ∀ l ∈ x.1, l.Indexed)
    (h : Moves x y) : ∀ l ∈ y.1, l.Indexed :=
  forall_of_moves (fun _ _ h hx => Level.Indexed.move hx h) (fun c _ => Level.indexed_ofConfig c)
    hx h

theorem deallocateIn_moves {rest : List Level} {answer : Except Corruption Bool}
    (hl : ∀ l ∈ levels, l.Indexed)
    (h : deallocateIn address size levels s = ((answer, rest), s')) :
    Moves (front ++ levels, s) (front ++ rest, s') := by
  induction levels generalizing front s answer rest with
  | nil =>
      cases h
      exact .refl
  | cons l levels ih =>
      rcases hrun : l.deallocate address size s with ⟨⟨first, k⟩, t⟩
      have hmoves := level_moves front levels
        (Level.deallocate_moves (hl l (List.mem_cons_self ..)) hrun)
      simp only [deallocateIn, bind, StateT.bind, hrun] at h
      rcases first with e | _ | _
      · cases h
        exact hmoves
      · rcases hrest : deallocateIn address size levels t with ⟨⟨last, far⟩, t'⟩
        simp only [StateT.bind, hrest] at h
        cases h
        -- The level that turned the address down is now one of those in front.
        rw [List.append_cons front k levels] at hmoves
        rw [List.append_cons front k far]
        exact hmoves.trans (ih (fun k hk => hl k (List.mem_cons_of_mem l hk)) hrest)
      · cases h
        exact hmoves

theorem reclaimIn_moves {rest : List Level} {released : Nat} (hl : ∀ l ∈ levels, l.Indexed)
    (h : reclaimIn levels s = ((released, rest), s')) :
    Moves (front ++ levels, s) (front ++ rest, s') := by
  induction levels generalizing front s released rest with
  | nil =>
      cases h
      exact .refl
  | cons l levels ih =>
      rcases hrun : l.reclaim s with ⟨⟨first, k⟩, t⟩
      have hmoves := level_moves front levels
        (Level.reclaim_moves (hl l (List.mem_cons_self ..)) hrun)
      rcases hrest : reclaimIn levels t with ⟨⟨last, far⟩, t'⟩
      simp only [reclaimIn, bind, StateT.bind, hrun, hrest] at h
      cases h
      rw [List.append_cons front k levels] at hmoves
      rw [List.append_cons front k far]
      exact hmoves.trans (ih (fun k hk => hl k (List.mem_cons_of_mem l hk)) hrest)

theorem deallocate_moves {answer : Except Corruption Bool} (hl : ∀ l ∈ a.levels, l.Indexed)
    (h : a.deallocate address size s = ((answer, a'), s')) :
    Moves (front ++ a.levels, s) (front ++ a'.levels, s') := by
  rcases hrun : a.outer.deallocate address size s with ⟨⟨first, outer⟩, t⟩
  have hmoves := level_moves front a.nested
    (Level.deallocate_moves (hl a.outer (List.mem_cons_self ..)) hrun)
  simp only [deallocate, bind, StateT.bind, hrun] at h
  rcases first with e | _ | _
  · cases h
    exact hmoves
  · rcases hrest : deallocateIn address size a.nested t with ⟨⟨last, nested⟩, t'⟩
    simp only [StateT.bind, hrest] at h
    cases h
    rw [List.append_cons front outer a.nested] at hmoves
    show Moves (front ++ a.outer :: a.nested, s) (front ++ outer :: nested, t')
    rw [List.append_cons front outer nested]
    exact hmoves.trans
      (deallocateIn_moves (fun k hk => hl k (List.mem_cons_of_mem a.outer hk)) hrest)
  · cases h
    exact hmoves

theorem reclaim_moves {released : Nat} (hl : ∀ l ∈ a.levels, l.Indexed)
    (h : a.reclaim s = ((released, a'), s')) :
    Moves (front ++ a.levels, s) (front ++ a'.levels, s') := by
  rcases hrun : reclaimIn a.levels s with ⟨⟨total, rest⟩, t⟩
  cases rest with
  | nil =>
      simp only [levels, reclaimIn, bind, StateT.bind] at hrun
      cases hrun
  | cons outer nested =>
      rw [reclaim_of_levels hrun] at h
      cases h
      exact reclaimIn_moves hl hrun

theorem wrap_moves {c : Config} (h : wrap c a = .ok a') :
    Moves (a.levels, s) (a'.levels, s) := by
  cases hvalid : c.validate with
  | error e =>
      rw [wrap, hvalid] at h
      cases h
  | ok u =>
      rw [wrap, hvalid] at h
      cases h
      exact .single (.wrap hvalid)

end Allocator

namespace AllocatorCall

variable {a a' : Allocator} {s s' : AddressSpace} {c : AllocatorCall}

/-- What a call leaves of an allocator, whatever it answers. -/
def on (a : Allocator) : AllocatorCall → StateM AddressSpace Allocator
  | .allocate size affinity => Prod.snd <$> a.allocate size affinity
  | .release g => Prod.snd <$> a.deallocate g.address g.size
  | .setBlockSize affinity blockSize => return (a.setBlockSize affinity blockSize).2
  | .setAlignment affinity alignment => return (a.setAlignment affinity alignment).2
  | .configurePool settings => return (a.configurePool settings).2
  | .reclaim => Prod.snd <$> a.reclaim

theorem on_moves (front : List Level) (hl : ∀ l ∈ a.levels, l.Indexed)
    (h : c.on a s = (a', s')) :
    Allocator.Moves (front ++ a.levels, s) (front ++ a'.levels, s') := by
  have houter := hl a.outer (List.mem_cons_self ..)
  cases c with
  | allocate size affinity =>
      rcases hrun : a.outer.allocate size affinity s with ⟨⟨answer, outer⟩, t⟩
      simp only [on, Allocator.allocate, Functor.map, StateT.map, bind, StateT.bind, hrun] at h
      cases h
      exact Allocator.level_moves front a.nested (Level.allocate_moves hrun)
  | release g =>
      rcases hrun : a.deallocate g.address g.size s with ⟨⟨answer, b⟩, t⟩
      simp only [on, Functor.map, StateT.map, bind, hrun] at h
      cases h
      exact Allocator.deallocate_moves hl hrun
  | setBlockSize affinity blockSize =>
      cases h
      exact Allocator.level_moves front a.nested
        (.single (.change affinity (Level.setBlockSize_changed houter affinity blockSize)))
  | setAlignment affinity alignment =>
      cases h
      exact Allocator.level_moves front a.nested
        (.single (.change affinity (Level.setAlignment_changed houter affinity alignment)))
  | configurePool settings =>
      cases h
      exact Allocator.level_moves front a.nested
        (.single (.change settings.affinity (Level.configurePool_changed houter settings)))
  | reclaim =>
      rcases hrun : a.reclaim s with ⟨⟨released, b⟩, t⟩
      simp only [on, Functor.map, StateT.map, bind, hrun] at h
      cases h
      exact Allocator.reclaim_moves hl hrun

end AllocatorCall

namespace HeapSession

variable {s t : HeapSession} {level : Nat} {c : AllocatorCall} {r : HeapRequest}
  {requests : List HeapRequest}

theorem on_of_serve (h : s.serve level c = .ok t) :
    c.on s.allocator s.space = (t.allocator, t.space) := by
  cases c with
  | allocate size affinity =>
      rcases hrun : s.allocator.allocate size affinity s.space with ⟨⟨answer, a⟩, space⟩
      simp only [serve, hrun] at h
      cases answer with
      | error e => cases h
      | ok answer =>
          cases h
          simp only [AllocatorCall.on, Functor.map, StateT.map, bind, hrun]
          rfl
  | release g =>
      rcases hrun : s.allocator.deallocate g.address g.size s.space with ⟨⟨answer, a⟩, space⟩
      have hon : (AllocatorCall.release g).on s.allocator s.space = (a, space) := by
        simp only [AllocatorCall.on, Functor.map, StateT.map, bind, hrun]
        rfl
      simp only [serve, hrun] at h
      rcases answer with e | _ | _ <;> cases h <;> exact hon
  | setBlockSize affinity blockSize =>
      cases h
      rfl
  | setAlignment affinity alignment =>
      cases h
      rfl
  | configurePool settings =>
      cases h
      rfl
  | reclaim =>
      cases h
      rfl

theorem apply_moves (hl : ∀ l ∈ s.allocator.levels, l.Indexed) (h : s.apply r = .ok t) :
    Allocator.Moves (s.allocator.levels, s.space) (t.allocator.levels, t.space) := by
  cases r with
  | call level c =>
      cases hb : s.allocator.inner level with
      | none =>
          simp only [apply, hb] at h
          cases h
          exact .refl
      | some b =>
          obtain ⟨front, -, hlevels, hreplace⟩ := Allocator.levels_inner hb
          cases hserve : serve level { s with allocator := b } c with
          | error e =>
              simp only [apply, hb, hserve] at h
              cases h
          | ok u =>
              simp only [apply, hb, hserve] at h
              cases h
              show Allocator.Moves (s.allocator.levels, s.space)
                ((s.allocator.replaceInner level u.allocator).levels, u.space)
              have hb : ∀ l ∈ b.levels, l.Indexed := fun l hmem => by
                rw [hlevels] at hl
                exact hl l (List.mem_append_right front hmem)
              rw [hreplace, hlevels]
              exact AllocatorCall.on_moves (a := b) (s := s.space) front hb
                (on_of_serve (s := ⟨b, s.space, s.live⟩) hserve)
  | write g offset bytes =>
      cases h
      exact .single (.write _)
  | wrap c =>
      cases hwrap : Allocator.wrap c s.allocator with
      | error e =>
          simp only [apply, hwrap] at h
          cases h
          exact .refl
      | ok a =>
          simp only [apply, hwrap] at h
          cases h
          exact Allocator.wrap_moves hwrap

theorem run_moves (hl : ∀ l ∈ s.allocator.levels, l.Indexed) (h : s.run requests = .ok t) :
    Allocator.Moves (s.allocator.levels, s.space) (t.allocator.levels, t.space) := by
  induction requests generalizing s with
  | nil =>
      cases h
      exact .refl
  | cons r rest ih =>
      cases happly : s.apply r with
      | error e =>
          rw [run, happly] at h
          cases h
      | ok u =>
          rw [run, happly] at h
          have hmoves := apply_moves hl happly
          exact hmoves.trans (ih (Allocator.indexed_of_moves hl hmoves) h)

end HeapSession

namespace Instance

variable [TomlReader] {e : Environment} {i j : Instance} {s s' : AddressSpace}

theorem allocator_moves (e : Environment) (i : Instance) (s : AddressSpace) :
    Allocator.Moves (i.levels, s) ((i.allocator e).levels, s) := by
  cases i with
  | some a => exact .refl
  | none =>
      obtain ⟨c, hvalid, hstarted⟩ := started_eq e
      rw [allocator, hstarted]
      exact .single (.wrap hvalid)

theorem swapBackend_moves (e : Environment) (kind : BackendKind) (i : Instance)
    (s : AddressSpace) : Allocator.Moves (i.levels, s) ((i.swapBackend e kind).2.levels, s) := by
  have hsome : ∀ a : Allocator,
      Allocator.Moves (a.levels, s) ((swapBackend e kind (some a)).2.levels, s) := by
    intro a
    cases hwrap : Allocator.wrap { a.config with backend := kind } a with
    | error fault =>
        simp only [swapBackend, hwrap]
        exact .refl
    | ok b =>
        simp only [swapBackend, hwrap]
        exact Allocator.wrap_moves hwrap
  cases i with
  | some a => exact hsome a
  | none =>
      have hstart := allocator_moves e none s
      rw [allocator, started] at hstart
      cases ha : Allocator.ofEnvironment e with
      | error fault =>
          rw [swapBackend, ha]
      | ok a =>
          have hsame : swapBackend e kind none = swapBackend e kind (some a) := by
            simp only [swapBackend, ha]
          rw [ha] at hstart
          rw [hsame]
          exact hstart.trans (hsome a)

def call (e : Environment) (i : Instance) : AllocatorCall → StateM AddressSpace Instance
  | .allocate size affinity => Prod.snd <$> i.allocate e size affinity
  | .release g => Prod.snd <$> i.deallocate g.address g.size
  | .setBlockSize affinity blockSize =>
      return some ((i.allocator e).setBlockSize affinity blockSize).2
  | .setAlignment affinity alignment =>
      return some ((i.allocator e).setAlignment affinity alignment).2
  | .configurePool settings => return some ((i.allocator e).configurePool settings).2
  | .reclaim => (fun x => some x.2) <$> (i.allocator e).reclaim

theorem call_cases (e : Environment) (i : Instance) (c : AllocatorCall) (s : AddressSpace) :
    i.call e c s = (i, s) ∨
      i.call e c s = (some (c.on (i.allocator e) s).1, (c.on (i.allocator e) s).2) := by
  cases c with
  | release g =>
      cases i with
      -- No allocator is made for a pointer that none can have issued.
      | none => exact .inl rfl
      | some a => exact .inr rfl
  | _ => exact .inr rfl

end Instance

/-- What clients may ask of a process, be it proper or not. A call is made through the functions of
the process or on an allocator behind the outermost one. -/
inductive Demand where
  | call (c : AllocatorCall)
  | inner (level : Nat) (c : AllocatorCall)
  | write (address : Nat) (bytes : List UInt8)
  | init (c : Config)
  | swap (kind : BackendKind)
  | shutdown
  deriving DecidableEq

namespace Demand

variable [TomlReader] {i : Instance}

def serve (e : Environment) (i : Instance) : Demand → StateM AddressSpace Instance
  | call c => i.call e c
  | inner level c =>
      match i with
      | none => return none
      | some a =>
          match a.inner level with
          | none => return some a
          | some b => (fun b => some (a.replaceInner level b)) <$> c.on b
  | write address bytes => fun s =>
      (i, { s with memory := s.memory.setBytes address bytes })
  | init c => return (i.init c).2
  | swap kind => return (i.swapBackend e kind).2
  | shutdown => Prod.snd <$> i.shutdown

def serveAll (e : Environment) : List Demand → Instance → StateM AddressSpace Instance
  | [], i => return i
  | d :: rest, i => do serveAll e rest (← d.serve e i)

theorem serve_moves (e : Environment) (d : Demand) (s : AddressSpace)
    (hl : ∀ l ∈ i.levels, l.Indexed) :
    Allocator.Moves (i.levels, s) ((d.serve e i s).1.levels, (d.serve e i s).2) := by
  cases d with
  | call c =>
      have hstart := i.allocator_moves e s
      rcases i.call_cases e c s with hrun | hrun
      · rw [serve, hrun]
      · rw [serve, hrun]
        refine hstart.trans ?_
        exact AllocatorCall.on_moves [] (Allocator.indexed_of_moves hl hstart) rfl
  | inner level c =>
      cases i with
      | none => exact .refl
      | some a =>
          rw [serve]
          cases hb : a.inner level with
          | none => exact .refl
          | some b =>
              obtain ⟨front, -, hlevels, hreplace⟩ := Allocator.levels_inner hb
              have hb : ∀ l ∈ b.levels, l.Indexed := fun l hmem => by
                refine hl l ?_
                rw [Instance.levels, hlevels]
                exact List.mem_append_right front hmem
              have hmoves := AllocatorCall.on_moves front (c := c) (s := s) hb rfl
              rw [← hlevels, ← hreplace] at hmoves
              exact hmoves
  | write address bytes => exact .single (.write _)
  | init c =>
      cases hvalid : c.validate with
      | error fault =>
          rw [serve, Instance.init_invalid hvalid]
          exact .refl
      | ok u =>
          rw [serve, Instance.init_valid hvalid]
          exact .single (.wrap hvalid)
  | swap kind => exact Instance.swapBackend_moves e kind i s
  | shutdown =>
      cases i with
      | none => exact .refl
      | some a => exact .single (.close ..)

theorem serveAll_moves (e : Environment) (demands : List Demand) (s : AddressSpace)
    (hl : ∀ l ∈ i.levels, l.Indexed) :
    Allocator.Moves (i.levels, s)
      ((serveAll e demands i s).1.levels, (serveAll e demands i s).2) := by
  induction demands generalizing i s with
  | nil => exact .refl
  | cons d rest ih =>
      have hmoves := serve_moves e d s hl
      exact hmoves.trans (ih _ (Allocator.indexed_of_moves hl hmoves))

end Demand

end AffinityHeap
