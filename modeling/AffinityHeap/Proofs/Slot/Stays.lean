import AffinityHeap.Proofs.Slot.View

namespace AffinityHeap.SlotStep

section Binds

variable {α β : Type} {x y : SlotStep α} {f : α → SlotStep β} {c : Prop} [Decidable c]

/-- Whatever the memory holds, the block keeps its region and its alignment, and nothing outside
the region is written. -/
structure Stays (x : SlotStep α) : Prop where
  confined : ∀ h : SlotHeap, h.Confined (x h).2
  alignment : ∀ h, (x h).2.block.alignment = h.block.alignment

theorem Stays.buffer (hx : Stays x) (h : SlotHeap) : (x h).2.block.buffer = h.block.buffer :=
  (hx.confined h).buffer

theorem stays_pure (a : α) : Stays (pure a) := ⟨.refl, fun _ => rfl⟩

theorem stays_fail (e : Corruption) : Stays (fail e : SlotStep α) := ⟨.refl, fun _ => rfl⟩

theorem stays_answer (r : Except Corruption α) : Stays (answer r) := ⟨.refl, fun _ => rfl⟩

theorem stays_ask : Stays ask := ⟨.refl, fun _ => rfl⟩

theorem stays_look (walk : Walk) (position : Nat) : Stays (look walk position) :=
  ⟨.refl, fun _ => rfl⟩

theorem stays_bind (hx : Stays x) (hf : ∀ a, Stays (f a)) : Stays (x >>= f) := by
  refine ⟨fun h => ?_, fun h => ?_⟩
  · have hconf := hx.confined h
    rw [bind_apply]
    revert hconf
    rcases x h with ⟨e | a, h'⟩
    · exact id
    · exact fun hconf => hconf.trans ((hf a).confined h')
  · have halignment := hx.alignment h
    rw [bind_apply]
    revert halignment
    rcases x h with ⟨e | a, h'⟩
    · exact id
    · exact ((hf a).alignment h').trans

theorem stays_map {f : α → β} (hx : Stays x) : Stays (f <$> x) := by
  rw [map_eq_pure_bind]
  exact stays_bind hx fun _ => stays_pure _

theorem stays_ite (hx : Stays x) (hy : Stays y) : Stays (if c then x else y) := by
  split
  · exact hx
  · exact hy

theorem stays_when {x : SlotStep PUnit} {f : PUnit → SlotStep β} (hx : Stays x)
    (hf : Stays (f ⟨⟩)) : Stays (if c then x >>= f else f ⟨⟩) :=
  stays_ite (stays_bind hx fun _ => hf) hf

end Binds

theorem stays_updateBlock {f : SlotBlock → SlotBlock}
    (hf : ∀ b, (f b).buffer = b.buffer ∧ (f b).alignment = b.alignment) :
    Stays (updateBlock f) :=
  ⟨fun h => ⟨(hf h.block).1, fun _ _ => rfl⟩, fun h => (hf h.block).2⟩

theorem stays_element (position : Nat) : Stays (element position) := ⟨.refl, fun _ => rfl⟩

theorem stays_header (position : Nat) : Stays (header position) :=
  stays_bind (stays_element _) fun _ => stays_answer _

theorem stays_link (position : Nat) : Stays (link position) :=
  stays_bind (stays_element _) fun _ => stays_pure _

theorem stays_setElement (position : Nat) (w : UInt32) : Stays (setElement position w) := by
  refine ⟨fun h => ?_, fun h => ?_⟩
  · show h.Confined (h.setElement position w).2
    rw [SlotHeap.setElement]
    split
    · rename_i hrange
      exact (SlotHeap.Confined.refl h).setWord hrange.2.2 w
    · exact .refl h
  · show (h.setElement position w).2.block.alignment = _
    rw [SlotHeap.setElement]
    split <;> rfl

theorem stays_setHeader (position : Nat) (slot : SlotHeader) : Stays (setHeader position slot) :=
  stays_setElement ..

theorem stays_setPreviousFree (position link : Nat) : Stays (setPreviousFree position link) :=
  stays_setElement ..

theorem stays_setNextFree (position link : Nat) : Stays (setNextFree position link) :=
  stays_setElement ..

theorem stays_clearHeader (position : Nat) : Stays (clearHeader position) := stays_setElement ..

theorem stays_setBackSpan (position span : Nat) : Stays (setBackSpan position span) :=
  stays_bind (stays_header _) fun _ => stays_setHeader ..

/-- The head of the free list is moved only where it is the slot that leaves it. -/
theorem stays_moveHead (position head : Nat) : Stays (updateBlock fun b =>
    if b.freeHead = position then { b with freeHead := head } else b) := by
  refine stays_updateBlock fun b => ?_
  split <;> exact ⟨rfl, rfl⟩

variable (position size : Nat) (slot : SlotHeader)

theorem stays_split (remainder previous next : Nat) :
    Stays (split position slot remainder previous next) := by
  unfold split
  refine stays_bind (stays_setHeader ..) fun _ => stays_bind (stays_setPreviousFree ..) fun _ =>
    stays_bind (stays_setNextFree ..) fun _ => ?_
  refine stays_when (stays_setNextFree ..) (stays_when (stays_setPreviousFree ..) ?_)
  refine stays_bind stays_ask fun _ => stays_when (stays_setBackSpan ..) ?_
  exact stays_bind (stays_moveHead ..) fun _ => stays_pure _

theorem stays_unlink (previous next : Nat) : Stays (unlink position previous next) := by
  unfold unlink
  refine stays_when (stays_setNextFree ..) (stays_when (stays_setPreviousFree ..) ?_)
  exact stays_updateBlock fun _ => ⟨rfl, rfl⟩

theorem stays_take (previous next : Nat) : Stays (take size position slot previous next) := by
  unfold take
  refine stays_bind stays_ask fun _ => ?_
  have hmark : ∀ kept : SlotHeader, Stays (do
      setHeader position { kept with status := .allocated }
      updateBlock fun b => b.charged kept.span
      return (← ask).addressOf (position + 1)) := fun kept =>
    stays_bind (stays_setHeader ..) fun _ =>
      stays_bind (stays_updateBlock fun _ => ⟨rfl, rfl⟩) fun _ =>
        stays_bind stays_ask fun _ => stays_pure _
  refine stays_ite (stays_bind (stays_split ..) hmark) ?_
  exact stays_bind (stays_unlink ..) fun _ => stays_bind (stays_pure _) hmark

theorem stays_allocateFrom (remaining x : Nat) : Stays (allocateFrom size remaining x) := by
  induction remaining generalizing x with
  | zero =>
      cases x with
      | zero => exact stays_pure _
      | succ p => exact stays_bind stays_ask fun _ => stays_fail _
  | succ remaining ih =>
      cases x with
      | zero => exact stays_pure _
      | succ p =>
          unfold allocateFrom
          refine stays_bind (stays_look ..) fun _ => stays_bind (stays_header _) fun slot => ?_
          refine stays_when (stays_fail _) (stays_when (stays_fail _) ?_)
          refine stays_bind (stays_link _) fun previous => stays_bind (stays_link _) fun next => ?_
          exact stays_ite (stays_map (stays_take ..)) (ih next)

theorem stays_allocate : Stays (allocate size) := by
  refine stays_bind stays_ask fun _ => stays_ite (stays_pure _) ?_
  exact stays_allocateFrom ..

variable (p c n : Nat) (prev current next : SlotHeader)

theorem stays_mergeAll : Stays (mergeAll p prev c current n next) := by
  have hclear : Stays (do
      clearHeader c
      clearHeader n
      updateBlock fun b => { b with freeCount := wrapSub b.freeCount 1 }) :=
    stays_bind (stays_clearHeader _) fun _ => stays_bind (stays_clearHeader _) fun _ =>
      stays_updateBlock fun _ => ⟨rfl, rfl⟩
  unfold mergeAll
  refine stays_bind (stays_link _) fun ppf => stays_bind (stays_link _) fun pnf =>
    stays_bind (stays_link _) fun npf => stays_bind (stays_link _) fun nnf =>
    stays_bind stays_ask fun _ => stays_bind (stays_setHeader ..) fun _ =>
    stays_when (stays_setBackSpan ..) ?_
  refine stays_ite ?_ (stays_ite ?_ ?_)
  · exact stays_bind (stays_setNextFree ..) fun _ => stays_when (stays_setPreviousFree ..) hclear
  · refine stays_bind (stays_setPreviousFree ..) fun _ => stays_ite ?_ ?_
    · exact stays_bind (stays_updateBlock fun _ => ⟨rfl, rfl⟩) fun _ => hclear
    · exact stays_bind (stays_setNextFree ..) fun _ => hclear
  · refine stays_when (stays_setNextFree ..) (stays_when (stays_setPreviousFree ..) ?_)
    exact stays_bind (stays_moveHead ..) fun _ => hclear

theorem stays_mergePrevious : Stays (mergePrevious p prev c current n) :=
  stays_bind (stays_setHeader ..) fun _ =>
    stays_when (stays_setBackSpan ..) (stays_clearHeader c)

theorem stays_mergeNext : Stays (mergeNext c current n next) := by
  unfold mergeNext
  refine stays_bind (stays_link _) fun npf => stays_bind (stays_link _) fun nnf =>
    stays_bind stays_ask fun _ => stays_bind (stays_setHeader ..) fun _ =>
    stays_when (stays_setBackSpan ..) ?_
  refine stays_when (stays_setNextFree ..) (stays_when (stays_setPreviousFree ..) ?_)
  exact stays_bind (stays_setPreviousFree ..) fun _ => stays_bind (stays_setNextFree ..) fun _ =>
    stays_bind (stays_moveHead ..) fun _ => stays_clearHeader n

theorem stays_pushFront : Stays (pushFront c current) := by
  unfold pushFront
  refine stays_bind (stays_setHeader ..) fun _ => stays_bind stays_ask fun _ =>
    stays_bind (stays_setPreviousFree ..) fun _ => stays_bind (stays_setNextFree ..) fun _ => ?_
  exact stays_when (stays_setPreviousFree ..) (stays_updateBlock fun _ => ⟨rfl, rfl⟩)

theorem stays_absorb (prev next : Option SlotHeader) : Stays (absorb p prev c current n next) := by
  cases prev with
  | none =>
      cases next with
      | none => exact stays_pushFront ..
      | some next => exact stays_ite (stays_mergeNext ..) (stays_pushFront ..)
  | some prev =>
      cases next with
      | none => exact stays_ite (stays_mergePrevious ..) (stays_pushFront ..)
      | some next =>
          exact stays_ite (stays_mergeAll ..) <| stays_ite (stays_mergePrevious ..) <|
            stays_ite (stays_mergeNext ..) (stays_pushFront ..)

theorem stays_freeAt? : Stays (freeAt? position) :=
  stays_ite (stays_pure _) (stays_bind (stays_header _) fun _ => stays_pure _)

theorem stays_deallocate (address : Nat) : Stays (deallocate address size) := by
  unfold deallocate
  refine stays_bind stays_ask fun b => stays_bind (stays_answer _) fun c =>
    stays_bind (stays_header _) fun current => stays_bind (stays_answer _) fun _ =>
    stays_bind (stays_answer _) fun p => stays_bind (stays_freeAt? _) fun prev =>
    stays_bind (stays_freeAt? _) fun next => ?_
  exact stays_bind (stays_updateBlock fun _ => ⟨rfl, rfl⟩) fun _ => stays_absorb ..

end AffinityHeap.SlotStep
