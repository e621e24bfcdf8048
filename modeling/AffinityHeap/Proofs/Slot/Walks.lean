import AffinityHeap.Proofs.Slot.Record
import AffinityHeap.Proofs.Slot.Validate
import AffinityHeap.Slot.Report

namespace AffinityHeap

namespace SlotStep

section Operations

variable (position size : Nat) (slot : SlotHeader)

theorem bounded_ask : Bounded 0 0 ask := .block fun _ => .answer _

theorem bounded_look_chain {α : Type} {m n : Nat} {f : Unit → SlotStep α}
    (hf : Bounded m n (f ())) : Bounded (m + 1) n (look .chain position >>= f) := .chain position hf

theorem bounded_look_list {α : Type} {m n : Nat} {f : Unit → SlotStep α}
    (hf : Bounded m n (f ())) : Bounded m (n + 1) (look .list position >>= f) := .list position hf

theorem bounded_updateBlock {f : SlotBlock → SlotBlock} (hf : ∀ b : SlotBlock, b.Like (f b)) :
    Bounded 0 0 (updateBlock f) := .update hf (.answer _)

theorem bounded_header : Bounded 0 0 (header position) :=
  bounded_then (.read position .answer) fun _ => .answer _

theorem bounded_link : Bounded 0 0 (link position) :=
  bounded_then (.read position .answer) fun _ => .answer _

theorem bounded_setElement (w : UInt32) : Bounded 0 0 (setElement position w) :=
  .write position w .answer

theorem bounded_setBackSpan (span : Nat) : Bounded 0 0 (setBackSpan position span) :=
  bounded_then (bounded_header _) fun _ => bounded_setElement ..

theorem bounded_split (remainder previous next : Nat) :
    Bounded 0 0 (split position slot remainder previous next) := by
  unfold split
  refine bounded_then (bounded_setElement ..) fun _ => bounded_then (bounded_setElement ..)
    fun _ => bounded_then (bounded_setElement ..) fun _ => ?_
  refine bounded_when (bounded_setElement ..) (bounded_when (bounded_setElement ..) ?_)
  refine bounded_then bounded_ask fun _ => bounded_when (bounded_setBackSpan ..) ?_
  refine bounded_then (bounded_updateBlock fun b => ?_) fun _ => .answer _
  split <;> exact ⟨rfl, rfl, rfl, rfl⟩

theorem bounded_unlink (previous next : Nat) : Bounded 0 0 (unlink position previous next) := by
  unfold unlink
  refine bounded_when (bounded_setElement ..) (bounded_when (bounded_setElement ..) ?_)
  exact bounded_updateBlock fun _ => ⟨rfl, rfl, rfl, rfl⟩

theorem bounded_take (previous next : Nat) :
    Bounded 0 0 (take size position slot previous next) := by
  unfold take
  refine bounded_then bounded_ask fun _ => ?_
  have hmark : ∀ kept : SlotHeader, Bounded 0 0 (do
      setHeader position { kept with status := .allocated }
      updateBlock fun b => b.charged kept.span
      return (← ask).addressOf (position + 1)) := fun kept =>
    bounded_then (bounded_setElement ..) fun _ =>
      bounded_then (bounded_updateBlock fun _ => ⟨rfl, rfl, rfl, rfl⟩) fun _ =>
        bounded_then bounded_ask fun _ => .answer _
  refine bounded_ite (bounded_then (bounded_split ..) hmark) ?_
  exact bounded_then (bounded_unlink ..) fun _ => bounded_then (.answer _) hmark

theorem bounded_slotLine : Bounded 0 0 (slotLine position slot) := by
  unfold slotLine
  cases slot.status with
  | free =>
      exact bounded_then (bounded_attempt (bounded_link _)) fun _ =>
        bounded_then (bounded_attempt (bounded_link _)) fun _ => .answer _
  | allocated => exact .answer _

theorem bounded_allocateFrom (remaining x : Nat) :
    Bounded 0 remaining (allocateFrom size remaining x) := by
  induction remaining generalizing x with
  | zero =>
      cases x with
      | zero => exact .answer _
      | succ p => exact bounded_then bounded_ask fun _ => .answer _
  | succ remaining ih =>
      cases x with
      | zero => exact .answer _
      | succ p =>
          unfold allocateFrom
          refine bounded_look_list (p + 1) (bounded_then (bounded_header _) fun slot => ?_)
          refine bounded_when (.answer _) (bounded_when (.answer _) ?_)
          refine bounded_then (bounded_link _) fun previous =>
            bounded_then (bounded_link _) fun next => ?_
          refine bounded_ite (bounded_map _ ?_) (ih next)
          exact (bounded_take ..).mono (Nat.le_refl _) (Nat.zero_le _)

theorem bounded_freeSlotsFrom (remaining x : Nat) (found : List (Nat × Nat)) :
    Bounded 0 remaining (freeSlotsFrom remaining x found) := by
  induction remaining generalizing x found with
  | zero =>
      cases x with
      | zero => exact .answer _
      | succ p => exact bounded_then bounded_ask fun _ => .answer _
  | succ remaining ih =>
      cases x with
      | zero => exact .answer _
      | succ p =>
          unfold freeSlotsFrom
          exact bounded_look_list (p + 1) <| bounded_then (bounded_header _) fun slot =>
            bounded_then (bounded_link _) fun next => ih next _

theorem bounded_walkChain (stop previous : Nat) (behind : List Nat) :
    Bounded (stop - position) 0 (walkChain stop position previous behind) := by
  induction hn : stop - position using Nat.strongRecOn
    generalizing position previous behind with
  | ind n ih =>
    rw [walkChain]
    by_cases hp : position < stop
    · obtain ⟨k, rfl⟩ : ∃ k, n = k + 1 := ⟨n - 1, by omega⟩
      rw [dif_pos hp]
      refine bounded_look_chain position (bounded_then (bounded_header _) fun slot => ?_)
      by_cases hzero : slot.span = 0
      · rw [dif_pos hzero]
        exact .answer _
      · rw [dif_neg hzero]
        refine bounded_ite (.answer _) (bounded_ite (.answer _) ?_)
        refine (ih _ ?_ _ _ _ rfl).mono ?_ (Nat.le_refl _) <;> omega
    · rw [dif_neg hp]
      exact .answer _

theorem bounded_walkFree (visited : Std.HashSet Nat) (behind : List Nat) (fuel x previous : Nat) :
    Bounded 0 fuel (walkFree visited behind fuel x previous) := by
  induction fuel generalizing visited behind x previous with
  | zero => cases x <;> exact .answer _
  | succ fuel ih =>
      cases x with
      | zero => exact .answer _
      | succ p =>
          unfold walkFree
          refine bounded_look_list (p + 1) (bounded_then (bounded_header _) fun slot => ?_)
          refine bounded_when (.answer _) (bounded_when (.answer _) ?_)
          refine bounded_then (bounded_link _) fun back => bounded_when (.answer _) ?_
          exact bounded_then (bounded_link _) fun next => ih ..

theorem bounded_slotLines (stop : Nat) (lines : List String) :
    Bounded (stop - position) 0 (slotLines stop position lines) := by
  induction hn : stop - position using Nat.strongRecOn generalizing position lines with
  | ind n ih =>
    rw [slotLines]
    by_cases hp : position < stop
    · obtain ⟨k, rfl⟩ : ∃ k, n = k + 1 := ⟨n - 1, by omega⟩
      rw [dif_pos hp]
      refine bounded_look_chain position (bounded_then (bounded_attempt (bounded_header _)) fun read => ?_)
      cases read with
      | error e => exact .answer _
      | ok slot =>
          refine bounded_then (bounded_slotLine ..) fun line => ?_
          by_cases hzero : slot.span = 0
          · rw [dif_pos hzero]
            exact .answer _
          · rw [dif_neg hzero]
            refine (ih _ ?_ _ _ rfl).mono ?_ (Nat.le_refl _) <;> omega
    · rw [dif_neg hp]
      exact .answer _

end Operations

section Logs

variable (h : SlotHeap)

theorem logged_allocate (size : Nat) : Logged (allocate size) h 0 h.block.freeCount :=
  logged_ask ((bounded_ite (.answer _) (bounded_allocateFrom ..)).logged h)

theorem logged_freeSlots (grants : Nat → Bool) :
    Logged (freeSlots grants) h 0 h.block.freeCount := by
  refine logged_ask ?_
  show Logged (if _ then _ else _) h 0 h.block.freeCount
  split
  · exact logged_ask ((bounded_map some (bounded_freeSlotsFrom ..)).logged h)
  · exact logged_answer _ h

theorem logged_validate :
    Logged validate h (h.block.capacity - h.block.first) h.block.capacity := by
  refine logged_ask (Bounded.logged ?_ h)
  refine Bounded.mono (m := h.block.capacity - h.block.first + 0) (n := 0 + h.block.capacity) ?_
    (Nat.le_refl _) (Nat.le_of_eq (Nat.zero_add _))
  refine bounded_bind (bounded_walkChain ..) fun chain => ?_
  refine bounded_when (.answer _) ?_
  refine bounded_bind (k := 0) (l := 0) (bounded_walkFree ..) fun listed => ?_
  exact bounded_when (.answer _) (bounded_ite (.answer _) (.answer _))

end Logs

section Fuel

variable {α β : Type} {x : SlotStep α} {f g : α → SlotStep β} {h : SlotHeap} {c : Prop}
  [Decidable c] {e : Corruption}

/-- On `h` there is no telling the two steps apart. -/
structure Alike (x y : SlotStep α) (h : SlotHeap) : Prop where
  run : x h = y h
  log : x.log h = y.log h

theorem alike_refl (x : SlotStep α) (h : SlotHeap) : Alike x x h := ⟨rfl, rfl⟩

theorem alike_bind (hx : Reads x) (hfg : ∀ a, (x h).1 = .ok a → Alike (f a) (g a) h) :
    Alike (x >>= f) (x >>= g) h := by
  have hrun : x h = ((x h).1, h) := Prod.ext rfl (hx.heap h)
  refine ⟨?_, ?_⟩
  · rw [bind_of_apply f hrun, bind_of_apply g hrun]
    cases ha : (x h).1 with
    | error e => rfl
    | ok a => exact (hfg a ha).run
  · rw [log_bind, log_bind, hrun]
    cases ha : (x h).1 with
    | error e => rfl
    | ok a => exact congrArg _ (hfg a ha).log

theorem alike_guard {f g : PUnit → SlotStep β} (hfg : ¬ c → Alike (f ⟨⟩) (g ⟨⟩) h) :
    Alike (if c then fail e >>= f else f ⟨⟩) (if c then fail e >>= g else g ⟨⟩) h := by
  by_cases hc : c
  · rw [if_pos hc, if_pos hc]
    exact ⟨rfl, rfl⟩
  · rw [if_neg hc, if_neg hc]
    exact hfg hc

theorem length_lt_capacity {V : List Nat} {capacity : Nat} (hcap : 0 < capacity) (hnd : V.Nodup)
    (hin : ∀ q ∈ V, 0 < q ∧ q < capacity) : V.length < capacity := by
  have hsub : V ⊆ List.range' 1 (capacity - 1) := fun q hq => by
    have hrange := hin q hq
    rw [List.mem_range'_1]
    omega
  have hle := (List.subperm_of_subset hnd hsub).length_le
  rw [List.length_range'] at hle
  omega

/-- The walk over the free list ends before its fuel does. -/
theorem walkFree_fuel (hcap : 0 < h.block.capacity) {visited : Std.HashSet Nat} {V : List Nat}
    (hnd : V.Nodup) (hin : ∀ q ∈ V, 0 < q ∧ q < h.block.capacity) (hseen : ∀ q ∈ V, q ∈ visited)
    {fuel : Nat} (hfuel : h.block.capacity ≤ fuel + V.length) (behind : List Nat)
    (position previous : Nat) : Alike (walkFree visited behind (fuel + 1) position previous)
      (walkFree visited behind fuel position previous) h := by
  -- `V` lists positions of `visited`; each round adds one, and there are fewer than the capacity.
  induction fuel generalizing visited V behind position previous with
  | zero =>
      have hlt := length_lt_capacity hcap hnd hin
      omega
  | succ fuel ih =>
      cases position with
      | zero => exact alike_refl _ h
      | succ p =>
          rw [walkFree, walkFree]
          refine alike_bind (reads_look ..) fun _ _ => ?_
          refine alike_bind (reads_header _) fun slot hslot => ?_
          refine alike_guard fun _ => alike_guard fun hnew => ?_
          refine alike_bind (reads_link _) fun back _ => alike_guard fun _ => ?_
          refine alike_bind (reads_link _) fun next _ => ?_
          rw [header_apply] at hslot
          have hp := (header_ok hslot).1
          have hnot : p + 1 ∉ V := fun hmem => hnew (Std.HashSet.contains_iff_mem.2 (hseen _ hmem))
          refine ih (V := (p + 1) :: V) (List.nodup_cons.2 ⟨hnot, hnd⟩) ?_ ?_ ?_ _ next (p + 1)
          · exact List.forall_mem_cons.2 ⟨⟨hp.1, hp.2.1⟩, hin⟩
          · intro q hq
            rcases List.mem_cons.1 hq with rfl | hq
            · exact Std.HashSet.mem_insert_self
            · exact Std.HashSet.mem_insert.2 (.inr (hseen q hq))
          · rw [List.length_cons]
            omega

theorem walkFree_settles (hcap : 0 < h.block.capacity) {fuel : Nat}
    (hfuel : h.block.capacity ≤ fuel) (position previous : Nat) :
    Alike (walkFree ∅ [] fuel position previous)
      (walkFree ∅ [] h.block.capacity position previous) h := by
  induction hfuel with
  | refl => exact alike_refl _ h
  | @step fuel hfuel ih =>
      have hstep : Alike (walkFree ∅ [] (fuel + 1) position previous)
          (walkFree ∅ [] fuel position previous) h :=
        walkFree_fuel hcap .nil (fun q hq => nomatch hq) (fun q hq => nomatch hq) hfuel [] position
          previous
      exact ⟨hstep.run.trans ih.run, hstep.log.trans ih.log⟩

end Fuel

section Answers

variable {h : SlotHeap} {entries found : List (Nat × Nat)}

theorem freeSlotsFrom_length {remaining position : Nat}
    (hok : (freeSlotsFrom remaining position found h).1 = .ok entries) :
    entries.length ≤ found.length + remaining := by
  induction remaining generalizing position found with
  | zero =>
      cases position with
      | zero =>
          obtain rfl := Except.ok.inj hok
          exact Nat.le_of_eq List.length_reverse
      | succ p => cases hok
  | succ remaining ih =>
      cases position with
      | zero =>
          obtain rfl := Except.ok.inj hok
          exact Nat.le_trans (Nat.le_of_eq List.length_reverse) (Nat.le_add_right ..)
      | succ p =>
          rw [freeSlotsFrom, bind_eq_ok (reads_look ..)] at hok
          obtain ⟨_, -, hok⟩ := hok
          obtain ⟨slot, -, hok⟩ := (bind_eq_ok (reads_header _)).1 hok
          obtain ⟨next, -, hok⟩ := (bind_eq_ok (reads_link _)).1 hok
          have hlength := ih hok
          rw [List.length_cons] at hlength
          omega

theorem reads_freeSlotsFrom (remaining x : Nat) (found : List (Nat × Nat)) :
    Reads (freeSlotsFrom remaining x found) := by
  induction remaining generalizing x found with
  | zero =>
      cases x with
      | zero => exact reads_answer _
      | succ p => exact reads_bind reads_ask fun _ => reads_answer _
  | succ remaining ih =>
      cases x with
      | zero => exact reads_answer _
      | succ p =>
          exact reads_bind (reads_look ..) fun _ => reads_bind (reads_header _) fun slot =>
            reads_bind (reads_link _) fun next => ih next _

theorem listFree_apply (h : SlotHeap) : listFree h = (h.freeSlots, h) :=
  Prod.ext rfl ((reads_bind reads_ask fun _ => reads_freeSlotsFrom ..).heap h)

theorem freeSlots_eq (grants : Nat → Bool) (h : SlotHeap) :
    freeSlots grants h = (if h.block.Listable grants then some <$> h.freeSlots else .ok none, h) := by
  rw [freeSlots, ask_bind]
  split
  · rw [map_eq_pure_bind, bind_of_apply _ (listFree_apply h)]
    cases h.freeSlots <;> rfl
  · rfl

theorem log_freeSlots {grants : Nat → Bool} (hno : ¬ h.block.Listable grants) :
    (freeSlots grants).log h = [] :=
  congrArg (log · h) (if_neg hno : (if h.block.Listable grants then some <$> listFree
    else pure none) = (pure none : SlotStep _))

theorem exists_slotLine (position : Nat) (slot : SlotHeader) (h : SlotHeap) :
    ∃ line, slotLine position slot h = (.ok line, h) := by
  rw [slotLine]
  cases slot.status with
  | free =>
      exact ⟨_, (bind_of_apply _ (attempt_gives (previousFree_apply ..))).trans
        (bind_of_apply _ (attempt_gives (nextFree_apply ..)))⟩
  | allocated => exact ⟨_, rfl⟩

/-- A report has at most one line for each position of the chain. -/
theorem exists_slotLines (stop position : Nat) (lines : List String) (h : SlotHeap) :
    ∃ rest, slotLines stop position lines h = (.ok (lines.reverse ++ rest), h) ∧
      rest.length ≤ stop - position := by
  induction hn : stop - position using Nat.strongRecOn generalizing position lines with
  | ind n ih =>
    rw [slotLines]
    by_cases hp : position < stop
    swap
    · rw [dif_neg hp]
      exact ⟨[], by rw [List.append_nil]; rfl, Nat.zero_le _⟩
    have hlook : ∀ f : Unit → SlotStep (List String), (look .chain position >>= f) h = f () h :=
      fun _ => rfl
    rw [dif_pos hp, hlook, bind_of_apply _ (attempt_gives (header_apply h position))]
    have hlast : ∀ line, ∃ rest, (pure (line :: lines).reverse : SlotStep (List String)) h =
        (.ok (lines.reverse ++ rest), h) ∧ rest.length ≤ n := fun line =>
      ⟨[line], by rw [List.reverse_cons]; rfl, by rw [List.length_singleton]; omega⟩
    cases h.header position with
    | error e => exact hlast _
    | ok slot =>
        obtain ⟨line, hline⟩ := exists_slotLine position slot h
        simp only [bind_of_apply _ hline]
        by_cases hzero : slot.span = 0
        · rw [dif_pos hzero]
          exact hlast line
        · rw [dif_neg hzero]
          obtain ⟨rest, hrest, hlength⟩ := ih _ (by omega) (position + slot.span) (line :: lines) rfl
          refine ⟨line :: rest, ?_, by rw [List.length_cons]; omega⟩
          rw [hrest, List.reverse_cons, List.append_assoc, List.singleton_append]

end Answers

end SlotStep

namespace SlotHeap

open SlotStep (Logged Alike)

variable {h : SlotHeap}

/-- How far the walks of the operations go, whatever the words, the head and the count say. -/
structure WalksEnd (h : SlotHeap) : Prop where
  allocate : ∀ size, Logged (SlotStep.allocate size) h 0 h.block.freeCount
  freeSlots : ∀ grants, Logged (SlotStep.freeSlots grants) h 0 h.block.freeCount
  listed : ∀ grants slots, (SlotStep.freeSlots grants h).1 = .ok (some slots) →
    slots.length ≤ h.block.freeCount
  /-- There is a walk unless the count is too great for a list, which ends the program at once. -/
  listable : ∀ grants, (SlotStep.freeSlots grants h).1 = .ok none ↔ ¬ h.block.Listable grants
  untouched : ∀ grants, ¬ h.block.Listable grants → (SlotStep.freeSlots grants).log h = []
  validate : Logged SlotStep.validate h (h.block.capacity - h.block.first) h.block.capacity
  /-- The fuel of the walk over the free list is never used up. -/
  settles : ∀ fuel, h.block.capacity ≤ fuel →
    Alike (SlotStep.walkFree ∅ [] fuel h.block.freeHead 0)
      (SlotStep.walkFree ∅ [] h.block.capacity h.block.freeHead 0) h
  report : ∃ top lines bottom,
    h.report = (do .line top; lines.forM Printer.line; .line bottom) ∧
    lines.length ≤ h.block.capacity - h.block.first ∧
    SlotStep.slotLines h.block.capacity h.block.first [] h = (.ok lines, h) ∧
    Logged (SlotStep.slotLines h.block.capacity h.block.first []) h
      (h.block.capacity - h.block.first) 0

theorem walksEnd (hcap : 0 < h.block.capacity) : h.WalksEnd where
  allocate := SlotStep.logged_allocate h
  freeSlots := SlotStep.logged_freeSlots h
  listed grants slots hok := by
    rw [SlotStep.freeSlots_eq] at hok
    split at hok
    · cases hrun : h.freeSlots with
      | error e =>
          rw [hrun] at hok
          cases hok
      | ok entries =>
          rw [hrun] at hok
          cases hok
          have hlength := SlotStep.freeSlotsFrom_length hrun
          rwa [List.length_nil, Nat.zero_add] at hlength
    · cases hok
  listable grants := by
    rw [SlotStep.freeSlots_eq]
    by_cases hroom : h.block.Listable grants
    · rw [if_pos hroom]
      refine iff_of_false ?_ (not_not_intro hroom)
      cases h.freeSlots <;> nofun
    · rw [if_neg hroom]
      exact iff_of_true rfl hroom
  untouched _ hno := SlotStep.log_freeSlots hno
  validate := SlotStep.logged_validate h
  settles _ hfuel := SlotStep.walkFree_settles hcap hfuel ..
  report := by
    obtain ⟨lines, hlines, hlength⟩ := SlotStep.exists_slotLines h.block.capacity h.block.first [] h
    obtain ⟨top, bottom, hreport⟩ : ∃ top bottom, h.report = (do
        .line top
        h.slotLines.forM .line
        .line bottom) := ⟨_, _, rfl⟩
    have hanswer : h.slotLines = lines := by
      rw [slotLines, hlines]
      rfl
    exact ⟨top, lines, bottom, hanswer ▸ hreport, hlength, hlines,
      (SlotStep.bounded_slotLines h.block.first h.block.capacity []).logged h⟩

end SlotHeap

namespace SlotBlock

theorem create_walksEnd {b : SlotBlock} {s s' : AddressSpace} {blockSize alignment : Nat}
    (hcreate : create blockSize alignment s = (.ok b, s')) {h : SlotHeap}
    (hlike : b.Like h.block) : h.WalksEnd := by
  refine SlotHeap.walksEnd ?_
  rw [hlike.capacity]
  exact create_capacity_pos hcreate

/-- A free slot linked to itself, under a count that says there are nine. -/
theorem create_walksEnd_cycle : ∃ b space',
    create 64 4 (.new (.sideBySide false 16 0x100000000)) = (.ok b, space') ∧
      SlotHeap.WalksEnd ⟨{ b with freeHead := 1, freeCount := 9 },
        space'.memory.setWord (b.wordIndex 3) 1⟩ := by
  obtain ⟨b, space', hcreate⟩ := Obtain.exists_of_isOk
    (x := create 64 4) (s := .new (.sideBySide false 16 0x100000000)) (by decide +kernel)
  exact ⟨b, space', hcreate, create_walksEnd hcreate ⟨rfl, rfl, rfl, rfl⟩⟩

end SlotBlock

end AffinityHeap
