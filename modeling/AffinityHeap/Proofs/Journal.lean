import AffinityHeap.Program

namespace AffinityHeap

/-- What is live behind a call. No address is live twice, and what is released is live, is given
back with its own size and is known to the heap. -/
def Event.settle (live : List Held) : Event → Option (List Held)
  | obtained held => if held.address ∈ live.map (·.address) then none else some (held :: live)
  | refused _ => some live
  | freed held known => if known ∧ held ∈ live then some (live.erase held) else none

namespace Workload

variable {α β : Type} {x : Step α} {f : α → Step β} {events : List Event} {space : AddressSpace}
  {build : Build} {p : Panic}

theorem bind_apply (x : Step α) (f : α → Step β) (events : List Event) (s : AddressSpace) :
    (x >>= f) events s = match x events s with
      | ((.ok a, events), s) => f a events s
      | ((.error p, events), s) => ((.error p, events), s) := by
  simp only [bind, ExceptT.bind, ExceptT.mk, StateT.bind, ExceptT.bindCont]
  rcases x events s with ⟨⟨_ | _, _⟩, _⟩ <;> rfl

/-- Behind the calls of a journal the step does not panic, and it ends in what `Q` says. -/
def Ends (x : Step α) (events : List Event) (space : AddressSpace)
    (Q : α → List Event → AddressSpace → Prop) : Prop :=
  ∃ a events' space', x events.reverse space = ((.ok a, events'.reverse), space') ∧
    Q a events' space'

/-- Behind the calls of a journal the step panics, with a journal of which `Q` holds. -/
def Panics (x : Step α) (events : List Event) (space : AddressSpace) (p : Panic)
    (Q : List Event → Prop) : Prop :=
  ∃ events' space', x events.reverse space = ((.error p, events'.reverse), space') ∧ Q events'

namespace Ends

variable {P : α → List Event → AddressSpace → Prop} {Q : β → List Event → AddressSpace → Prop}

theorem pure {a : α} (h : P a events space) : Ends (Pure.pure a) events space P :=
  ⟨a, events, space, rfl, h⟩

theorem imp {P' : α → List Event → AddressSpace → Prop} (hx : Ends x events space P)
    (h : ∀ a events space, P a events space → P' a events space) : Ends x events space P' := by
  obtain ⟨a, events', space', hrun, ha⟩ := hx
  exact ⟨a, events', space', hrun, h a events' space' ha⟩

theorem bind (hx : Ends x events space P)
    (hf : ∀ a events space, P a events space → Ends (f a) events space Q) :
    Ends (x >>= f) events space Q := by
  obtain ⟨a, events', space', hrun, ha⟩ := hx
  obtain ⟨b, events'', space'', hrest, hb⟩ := hf a events' space' ha
  refine ⟨b, events'', space'', ?_, hb⟩
  rw [bind_apply, hrun]
  exact hrest

theorem call {m : StateM AddressSpace α} {a : α} {space' : AddressSpace}
    (hm : m space = (a, space')) (hf : Ends (f a) events space' Q) :
    Ends (Workload.call m >>= f) events space Q := by
  have hcall : Workload.call m events.reverse space = ((.ok a, events.reverse), space') := by
    show ((Except.ok (m space).1, _), (m space).2) = _
    rw [hm]
  obtain ⟨b, events', space'', hrest, hb⟩ := hf
  refine ⟨b, events', space'', ?_, hb⟩
  rw [bind_apply, hcall]
  exact hrest

theorem note {event : Event} {f : Unit → Step β} (hf : Ends (f ()) (events ++ [event]) space Q) :
    Ends (Workload.note event >>= f) events space Q := by
  obtain ⟨b, events', space', hrest, hb⟩ := hf
  rw [List.reverse_concat] at hrest
  exact ⟨b, events', space', hrest, hb⟩

theorem verify {operation : String} {f : Unit → Step β} (hruns : space.Runs build)
    (hf : Ends (f ()) events space Q) :
    Ends (Workload.verify build operation >>= f) events space Q := by
  have hverify : Workload.verify build operation events.reverse space =
      ((.ok (), events.reverse), space) := by
    show (if ¬ space.Runs build then throw (.overflow operation) else Pure.pure () : Step Unit)
      events.reverse space = _
    rw [if_neg fun h => h hruns]
    rfl
  obtain ⟨b, events', space', hrest, hb⟩ := hf
  refine ⟨b, events', space', ?_, hb⟩
  rw [bind_apply, hverify]
  exact hrest

end Ends

namespace Panics

variable {P : α → List Event → AddressSpace → Prop} {Q R : List Event → Prop}

theorem throw (h : Q events) : Panics (MonadExcept.throw p : Step α) events space p Q :=
  ⟨events, space, rfl, h⟩

theorem imp (hx : Panics x events space p Q) (h : ∀ events, Q events → R events) :
    Panics x events space p R := by
  obtain ⟨events', space', hrun, hq⟩ := hx
  exact ⟨events', space', hrun, h events' hq⟩

/-- Nothing is done behind a step that panics. -/
theorem bind (hx : Panics x events space p Q) : Panics (x >>= f) events space p Q := by
  obtain ⟨events', space', hrun, hq⟩ := hx
  refine ⟨events', space', ?_, hq⟩
  rw [bind_apply, hrun]

end Panics

theorem Ends.panics {P : α → List Event → AddressSpace → Prop} {Q : List Event → Prop}
    (hx : Ends x events space P)
    (hf : ∀ a events space, P a events space → Panics (f a) events space p Q) :
    Panics (x >>= f) events space p Q := by
  obtain ⟨a, events', space', hrun, ha⟩ := hx
  obtain ⟨events'', space'', hrest, hq⟩ := hf a events' space' ha
  refine ⟨events'', space'', ?_, hq⟩
  rw [bind_apply, hrun]
  exact hrest

section Advance

variable {n : Nat}

/-- As many as a count of 32 bits with a sign can tell apart from less. -/
def countLimit : Nat := 0x80000000

theorem eq_maxValue_iff (h : n < countLimit) :
    Int32.ofNat n = Int32.maxValue ↔ n + 1 = countLimit := by
  have hn : (Int32.ofNat n).toInt = n := Int32.toInt_ofNat_of_lt h
  have hmax : Int32.maxValue.toInt = 2147483647 := rfl
  have hlimit : countLimit = 2147483648 := rfl
  rw [← Int32.toInt_inj, hn, hmax]
  omega

/-- A count that is not checked goes on from the bottom of its range. -/
theorem advance_eq (h : build = .checked → n + 1 < countLimit) :
    advance build (.ofNat n) = pure (.ofNat (n + 1)) := by
  have hguard : ¬ (build = .checked ∧ Int32.ofNat n = Int32.maxValue) := by
    rintro ⟨hchecked, hmax⟩
    have hlt := h hchecked
    exact Nat.ne_of_lt hlt ((eq_maxValue_iff (Nat.lt_of_succ_lt hlt)).1 hmax)
  rw [advance, if_neg hguard, Int32.ofNat_add]
  rfl

theorem advance_panics {Q : List Event → Prop} (h : n + 1 = countLimit) (hq : Q events) :
    Panics (advance .checked (.ofNat n)) events space (.overflow "add") Q := by
  have hmax := (eq_maxValue_iff (Nat.lt_of_succ_le (Nat.le_of_eq h))).2 h
  rw [advance, if_pos ⟨rfl, hmax⟩]
  exact .bind (.throw hq)

end Advance

end Workload

end AffinityHeap
