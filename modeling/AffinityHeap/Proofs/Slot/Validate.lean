import AffinityHeap.Proofs.Slot.Session
import AffinityHeap.Slot.Validate

namespace AffinityHeap

open Slot (Tiled)

theorem Slot.tiled_length {l : List Slot} {start back stop : Nat} (h : Tiled start back l stop)
    (hspan : ∀ s ∈ l, 0 < s.span) : start + l.length ≤ stop := by
  induction l generalizing start back with
  | nil => exact Nat.le_of_eq h
  | cons s l ih =>
      obtain ⟨rfl, -, h⟩ := h
      have hs := hspan s (List.mem_cons_self ..)
      have hrest := ih h fun t ht => hspan t (List.mem_cons_of_mem _ ht)
      simp only [Slot.stop, List.length_cons] at hrest ⊢
      omega

theorem Slot.tiled_nodup {l : List Slot} {start back stop : Nat} (h : Tiled start back l stop)
    (hspan : ∀ s ∈ l, 0 < s.span) : (freePositions l).Nodup := by
  have hlt : l.Pairwise fun s t => s.position ≠ t.position :=
    (Slot.tiled_pairwise h).imp_of_mem fun {s t} hs _ hst => by
      have hlong := hspan s hs
      simp only [Slot.stop] at hst
      omega
  exact (List.pairwise_map.2 hlt).sublist (List.filter_sublist.map _)

section Answers

variable {ε α β : Type} {x : Except ε α} {f : α → Except ε β} {a : α} {b : β}

theorem bind_eq_ok : (x >>= f) = .ok b ↔ ∃ a, x = .ok a ∧ f a = .ok b := by
  cases x with
  | error e => exact ⟨fun h => (nomatch h), fun ⟨_, h, _⟩ => (nomatch h)⟩
  | ok a => exact ⟨fun h => ⟨a, rfl, h⟩, fun ⟨_, ha, h⟩ => Except.ok.inj ha ▸ h⟩

theorem pure_eq_ok : (pure a : Except ε α) = .ok c ↔ a = c :=
  ⟨fun h => Except.ok.inj h, fun h => h ▸ rfl⟩

end Answers

namespace SlotHeap

variable {h : SlotHeap} {visited : Std.HashSet Nat} {fuel x position previous back back' : Nat}
  {stop : Nat} {A B slots slots' : List Slot} {s t : Slot} {listed behind : List Nat} {chain : Chain}

/-- The slots read off the words from `position` on reach `stop`, each header with a valid status
and a span, and each but the first tells the span of the slot in front of it. -/
structure Readable (h : SlotHeap) (position back : Nat) (slots : List Slot) (stop : Nat) :
    Prop where
  headers : ∀ s ∈ slots, h.header s.position = .ok s.toSlotHeader
  spans : ∀ s ∈ slots, 0 < s.span
  tiled : Tiled position back slots stop

/-- A back span that reaches past position 0 is read as that of the first slot. -/
structure Intact (h : SlotHeap) (slots : List Slot) (listed : List Nat) : Prop where
  readable : ∃ back, (back = 0 ∨ h.block.first ≤ back) ∧
    h.Readable h.block.first back slots h.block.capacity
  walk : h.FreeWalk 0 h.block.freeHead listed
  complete : listed.Perm (freePositions slots)
  counted : h.block.freeCount = listed.length

theorem slot_eq_of_header (hs : h.header s.position = .ok s.toSlotHeader)
    (ht : h.header t.position = .ok t.toSlotHeader) (hst : s.position = t.position) : s = t := by
  rw [hst, ht] at hs
  cases s
  cases t
  cases hst
  cases hs
  rfl

theorem Readable.position_inj (hr : h.Readable position back slots stop) (hs : s ∈ slots)
    (ht : t ∈ slots) (hst : s.position = t.position) : s = t :=
  slot_eq_of_header (hr.headers s hs) (hr.headers t ht) hst

theorem Readable.split (hr : h.Readable position back (A ++ s :: B) stop) :
    h.Readable position back A s.position ∧ Slot.lastSpan back A = s.back ∧
      h.Readable s.stop s.span B stop := by
  obtain ⟨m, hfront, rfl, hback, hbehind⟩ := Slot.tiled_append.1 hr.tiled
  exact ⟨⟨fun t ht => hr.headers t (by simp [ht]), fun t ht => hr.spans t (by simp [ht]), hfront⟩,
    hback.symm,
    ⟨fun t ht => hr.headers t (by simp [ht]), fun t ht => hr.spans t (by simp [ht]), hbehind⟩⟩

theorem Readable.lt (hr : h.Readable position back (A ++ s :: B) stop) : position < stop := by
  obtain ⟨hlow, hstop⟩ := Slot.tiled_bounds hr.tiled s (by simp)
  have hspan := hr.spans s (by simp)
  simp only [Slot.stop] at hstop
  omega

theorem Readable.exists_cons (hr : h.Readable position back slots stop) (hlt : position < stop) :
    ∃ s B, slots = s :: B ∧ s.position = position := by
  cases slots with
  | nil => exact absurd hr.tiled (Nat.ne_of_lt hlt)
  | cons s B => exact ⟨s, B, rfl, hr.tiled.1⟩

/-- The words settle the chain: the header at a position tells where the next one is. -/
theorem Readable.unique (hr : h.Readable position back slots stop)
    (hr' : h.Readable position back' slots' stop) : slots = slots' := by
  induction slots generalizing position back back' slots' with
  | nil =>
      cases slots' with
      | nil => rfl
      | cons t rest => exact absurd hr.tiled (Nat.ne_of_lt (Readable.lt (A := []) hr'))
  | cons s rest ih =>
      obtain ⟨t, rest', rfl, ht⟩ := hr'.exists_cons (Readable.lt (A := []) hr)
      obtain rfl : s = t := slot_eq_of_header (hr.headers s (List.mem_cons_self ..))
        (hr'.headers t (List.mem_cons_self ..)) (hr.tiled.1.trans ht.symm)
      rw [ih (Readable.split (A := []) hr).2.2 (Readable.split (A := []) hr').2.2]

theorem Consistent.readable (hc : h.Consistent slots listed) :
    h.Readable h.block.first 0 slots h.block.capacity where
  headers := hc.headers
  spans s hs := Nat.lt_of_lt_of_le (by decide) (hc.spans s hs).1
  tiled := hc.tiled

theorem Consistent.intact (hc : h.Consistent slots listed) : h.Intact slots listed :=
  ⟨⟨0, .inl rfl, hc.readable⟩, hc.walk, hc.complete, hc.counted⟩

theorem Intact.zero_notMem (hi : h.Intact slots listed) : 0 ∉ listed := by
  intro hmem
  obtain ⟨s, hs, -, hpos⟩ := mem_freePositions.1 (hi.complete.mem_iff.1 hmem)
  obtain ⟨back, -, hr⟩ := hi.readable
  have hfirst := Layout.Sound.first_pos h.block
  have hle := (Slot.tiled_bounds hr.tiled s hs).1
  omega

theorem Intact.mem_listed (hi : h.Intact slots listed) (hs : s ∈ slots) :
    s.position ∈ listed ↔ s.status = .free := by
  obtain ⟨back, -, hr⟩ := hi.readable
  rw [hi.complete.mem_iff, mem_freePositions]
  constructor
  · rintro ⟨t, ht, hfree, hts⟩
    rwa [← hr.position_inj ht hs hts]
  · exact fun hfree => ⟨s, hs, hfree, rfl⟩

theorem Readable.cons (hs : h.header s.position = .ok s.toSlotHeader)
    (hspan : 0 < s.span) (hr : h.Readable s.stop s.span slots stop) :
    h.Readable s.position s.back (s :: slots) stop := by
  refine ⟨fun t ht => ?_, fun t ht => ?_, rfl, rfl, hr.tiled⟩
  · rcases List.mem_cons.1 ht with rfl | ht
    · exact hs
    · exact hr.headers t ht
  · rcases List.mem_cons.1 ht with rfl | ht
    · exact hspan
    · exact hr.spans t ht

theorem walkChain_stop (position previous : Nat) (behind : List Nat) :
    SlotStep.walkChain position position previous behind h =
      (.ok ⟨position, behind.reverse⟩, h) := by
  rw [SlotStep.walkChain, dif_neg (Nat.lt_irrefl _)]
  rfl

theorem walkChain_step (hlow : position < stop) :
    (SlotStep.walkChain stop position previous behind h).1 = .ok chain ↔
      ∃ slot, h.header position = .ok slot ∧ 0 < slot.span ∧ position + slot.span ≤ stop ∧
        backPosition position slot = previous ∧
        (SlotStep.walkChain stop (position + slot.span) position
          (if slot.isFree then position :: behind else behind) h).1 = .ok chain := by
  rw [SlotStep.walkChain, dif_pos hlow, SlotStep.bind_eq_ok (SlotStep.reads_look ..)]
  simp only [SlotStep.bind_eq_ok (SlotStep.reads_header _), SlotStep.header_apply]
  refine ⟨fun ⟨_, _, slot, hheader, hrest⟩ => ?_, fun ⟨slot, hheader, hspan, hstop, hback, hrest⟩ =>
    ⟨(), rfl, slot, hheader, ?_⟩⟩
  · by_cases hspan : slot.span = 0
    · rw [dif_pos hspan] at hrest
      cases hrest
    rw [dif_neg hspan] at hrest
    by_cases hstop : stop < position + slot.span
    · rw [if_pos hstop] at hrest
      cases hrest
    rw [if_neg hstop] at hrest
    by_cases hback : backPosition position slot ≠ previous
    · rw [if_pos hback] at hrest
      cases hrest
    rw [if_neg hback] at hrest
    exact ⟨slot, hheader, Nat.pos_of_ne_zero hspan, Nat.le_of_not_lt hstop,
      Decidable.of_not_not hback, hrest⟩
  · rwa [dif_neg (Nat.ne_of_gt hspan), if_neg (Nat.not_lt.2 hstop), if_neg (not_not_intro hback)]

theorem Readable.walkChain (hr : h.Readable position back slots stop)
    (hback : (if back = 0 then 0 else position - back) = previous) (behind : List Nat) :
    (SlotStep.walkChain stop position previous behind h).1 =
      .ok ⟨stop, behind.reverse ++ freePositions slots⟩ := by
  induction slots generalizing position back previous behind with
  | nil =>
      obtain rfl : position = stop := hr.tiled
      rw [walkChain_stop, show freePositions [] = [] from rfl, List.append_nil]
  | cons s rest ih =>
      obtain ⟨rfl, rfl, htiled⟩ := hr.tiled
      have hspan := hr.spans s (List.mem_cons_self ..)
      have hstop : s.position + s.span ≤ stop := Slot.tiled_le htiled
      refine (walkChain_step (by omega)).2 ⟨s.toSlotHeader, hr.headers s (List.mem_cons_self ..),
        hspan, hstop, hback, ?_⟩
      have hrest : h.Readable (s.position + s.span) s.span rest stop :=
        ⟨fun t ht => hr.headers t (List.mem_cons_of_mem _ ht),
          fun t ht => hr.spans t (List.mem_cons_of_mem _ ht), htiled⟩
      rw [ih hrest (by rw [if_neg (Nat.ne_of_gt hspan), Nat.add_sub_cancel])]
      by_cases hfree : s.status = .free <;>
        simp [freePositions_cons, SlotHeader.isFree_iff, hfree]

theorem exists_readable
    (hok : (SlotStep.walkChain stop position previous behind h).1 = .ok chain)
    (hreached : chain.reached = stop) (hlt : previous < position) :
    ∃ back slots, (if back = 0 then 0 else position - back) = previous ∧
      h.Readable position back slots stop ∧
      chain.free = behind.reverse ++ freePositions slots := by
  induction hn : stop - position using Nat.strongRecOn
    generalizing position previous behind with
  | ind n ih =>
    by_cases hlow : position < stop
    · obtain ⟨slot, hheader, hspan, hstop, hprevious, hnext⟩ := (walkChain_step hlow).1 hok
      obtain ⟨back, slots, hback, hr, hfree⟩ :=
        ih _ (by omega) hnext (Nat.lt_add_of_pos_right hspan) rfl
      -- The rest of the chain was told where this slot starts, hence its span.
      have hbehind : back = slot.span := by
        split at hback <;> omega
      let s : Slot := ⟨slot, position⟩
      refine ⟨slot.back, s :: slots, hprevious, .cons (s := s) hheader hspan (hbehind ▸ hr), ?_⟩
      rw [hfree]
      by_cases hslot : slot.status = .free <;>
        simp [freePositions_cons, SlotHeader.isFree_iff, hslot, s]
    · rw [SlotStep.walkChain, dif_neg hlow] at hok
      obtain rfl := Except.ok.inj hok
      refine ⟨position - previous, [], ?_, ⟨fun s hs => absurd hs List.not_mem_nil,
        fun s hs => absurd hs List.not_mem_nil, hreached⟩, (List.append_nil _).symm⟩
      split <;> omega

theorem walkFree_zero (fuel : Nat) :
    SlotStep.walkFree visited behind fuel 0 previous h = (.ok behind.reverse, h) := by
  cases fuel <;> rfl

theorem walkFree_succ {p fuel : Nat} :
    (SlotStep.walkFree visited behind (fuel + 1) (p + 1) previous h).1 = .ok listed ↔
      ∃ slot next, h.header (p + 1) = .ok slot ∧ slot.status = .free ∧ p + 1 ∉ visited ∧
        h.previousFree (p + 1) = .ok previous ∧ h.nextFree (p + 1) = .ok next ∧
        (SlotStep.walkFree (visited.insert (p + 1)) ((p + 1) :: behind) fuel next (p + 1) h).1 =
          .ok listed := by
  rw [SlotStep.walkFree, SlotStep.bind_eq_ok (SlotStep.reads_look ..)]
  simp only [SlotStep.bind_eq_ok (SlotStep.reads_header _), SlotStep.header_apply,
    SlotStep.guard_eq_ok, SlotStep.bind_eq_ok (SlotStep.reads_link _), SlotStep.previousFree,
    SlotStep.nextFree, SlotStep.link_apply, Std.HashSet.contains_iff_mem]
  constructor
  · rintro ⟨_, _, slot, hheader, hslot, hseen, back, hback, hprevious, next, hnext, hrest⟩
    obtain rfl := Decidable.of_not_not hprevious
    have hfree : slot.isFree = true := by
      simpa only [Bool.not_eq_true', Bool.not_eq_false] using hslot
    exact ⟨slot, next, hheader, SlotHeader.isFree_iff.1 hfree, hseen, hback, hnext, hrest⟩
  · rintro ⟨slot, next, hheader, hfree, hseen, hback, hnext, hrest⟩
    exact ⟨(), rfl, slot, hheader, by simp [SlotHeader.isFree_iff.2 hfree], hseen, previous, hback,
      fun h => h rfl, next, hnext, hrest⟩

theorem FreeWalk.walkFree (hwalk : h.FreeWalk previous x listed) (hlength : listed.length ≤ fuel)
    (hfree : ∀ p ∈ listed, 0 < p ∧ ∃ slot, h.header p = .ok slot ∧ slot.status = .free)
    (hnd : listed.Nodup) (hvisited : ∀ p ∈ listed, p ∉ visited) (behind : List Nat) :
    (SlotStep.walkFree visited behind fuel x previous h).1 = .ok (behind.reverse ++ listed) := by
  -- What is still to be listed was not visited, so that the walk never meets its own trail.
  induction listed generalizing fuel x previous visited behind with
  | nil =>
      obtain rfl : x = 0 := hwalk
      rw [walkFree_zero, List.append_nil]
  | cons p rest ih =>
      obtain ⟨rfl, hprevious, next, hnext, hwalk⟩ := hwalk
      obtain ⟨hpos, slot, hheader, hslot⟩ := hfree x (List.mem_cons_self ..)
      obtain ⟨p, rfl⟩ := Nat.exists_eq_add_one_of_ne_zero (Nat.ne_of_gt hpos)
      obtain ⟨hnot, hnd⟩ := List.nodup_cons.1 hnd
      cases fuel with
      | zero => exact absurd hlength (Nat.not_succ_le_zero _)
      | succ fuel =>
          refine walkFree_succ.2 ⟨slot, next, hheader, hslot, hvisited _ (List.mem_cons_self ..),
            hprevious, hnext, ?_⟩
          rw [ih hwalk (Nat.le_of_succ_le_succ hlength)
            (fun q hq => hfree q (List.mem_cons_of_mem _ hq)) hnd, List.reverse_cons,
            List.append_assoc, List.singleton_append]
          intro q hq
          rw [Std.HashSet.mem_insert, not_or]
          refine ⟨fun heq => ?_, hvisited q (List.mem_cons_of_mem _ hq)⟩
          rw [beq_iff_eq.1 heq] at hnot
          exact hnot hq

theorem freeWalk_of_walkFree
    (hok : (SlotStep.walkFree visited behind fuel x previous h).1 = .ok listed) :
    ∃ met, listed = behind.reverse ++ met ∧ h.FreeWalk previous x met := by
  induction fuel generalizing x previous visited behind with
  | zero =>
      cases x with
      | zero =>
          obtain rfl := Except.ok.inj hok
          exact ⟨[], (List.append_nil _).symm, rfl⟩
      | succ p => cases hok
  | succ fuel ih =>
      cases x with
      | zero =>
          obtain rfl := Except.ok.inj hok
          exact ⟨[], (List.append_nil _).symm, rfl⟩
      | succ p =>
          obtain ⟨slot, next, -, -, -, hprevious, hnext, hrest⟩ := walkFree_succ.1 hok
          obtain ⟨met, rfl, hwalk⟩ := ih hrest
          refine ⟨(p + 1) :: met, ?_, rfl, hprevious, next, hnext, hwalk⟩
          rw [List.reverse_cons, List.append_assoc, List.singleton_append]

theorem Intact.walkFree (hi : h.Intact slots listed) :
    (SlotStep.walkFree ∅ [] h.block.capacity h.block.freeHead 0 h).1 = .ok listed := by
  obtain ⟨back, -, hr⟩ := hi.readable
  have hlength : listed.length ≤ h.block.capacity := by
    have hslots := Slot.tiled_length hr.tiled hr.spans
    have hle : (freePositions slots).length ≤ slots.length := by
      rw [freePositions, List.length_map]
      exact List.length_filter_le ..
    rw [hi.complete.length_eq]
    omega
  refine hi.walk.walkFree hlength (fun p hp => ?_)
    (hi.complete.nodup_iff.2 (Slot.tiled_nodup hr.tiled hr.spans))
    (fun p _ => Std.HashSet.not_mem_empty) []
  obtain ⟨s, hs, hfree, rfl⟩ := mem_freePositions.1 (hi.complete.mem_iff.1 hp)
  have hfirst := (Slot.tiled_bounds hr.tiled s hs).1
  exact ⟨Nat.lt_of_lt_of_le (Layout.Sound.first_pos h.block) hfirst, s.toSlotHeader,
    hr.headers s hs, hfree⟩

theorem exists_intact
    (hchain : (SlotStep.walkChain h.block.capacity h.block.first 0 [] h).1 = .ok chain)
    (hreached : chain.reached = h.block.capacity)
    (hlisted : (SlotStep.walkFree ∅ [] h.block.capacity h.block.freeHead 0 h).1 = .ok listed)
    (hcounted : listed.length = h.block.freeCount)
    (hlength : listed.length = chain.free.length) (hmem : ∀ p ∈ chain.free, p ∈ listed) :
    ∃ slots, h.Intact slots listed := by
  have hfirst := Layout.Sound.first_pos h.block
  obtain ⟨back, slots, hback, hr, hfree⟩ := exists_readable hchain hreached hfirst
  obtain ⟨met, hmet, hwalk⟩ := freeWalk_of_walkFree hlisted
  obtain rfl : listed = met := hmet
  have hsub : (freePositions slots).Subperm listed :=
    List.subperm_of_subset (Slot.tiled_nodup hr.tiled hr.spans) fun p hp => hmem p (hfree ▸ hp)
  refine ⟨slots, ⟨back, ?_, hr⟩, hwalk, (hsub.perm_of_length_le ?_).symm, hcounted.symm⟩
  · split at hback <;> omega
  · exact Nat.le_of_eq (hlength.trans (congrArg _ hfree))

theorem reads_walkChain (stop position previous : Nat) (behind : List Nat) :
    (SlotStep.walkChain stop position previous behind).Reads := by
  induction hn : stop - position using Nat.strongRecOn generalizing position previous behind with
  | ind n ih =>
    rw [SlotStep.walkChain]
    split
    · refine SlotStep.reads_bind (SlotStep.reads_look ..) fun _ =>
        SlotStep.reads_bind (SlotStep.reads_header _) fun slot => ?_
      split
      · exact SlotStep.reads_answer _
      · exact SlotStep.reads_ite (SlotStep.reads_answer _) <|
          SlotStep.reads_ite (SlotStep.reads_answer _) (ih _ (by omega) _ _ _ rfl)
    · exact SlotStep.reads_answer _

theorem reads_walkFree (visited : Std.HashSet Nat) (behind : List Nat) (fuel x previous : Nat) :
    (SlotStep.walkFree visited behind fuel x previous).Reads := by
  induction fuel generalizing visited behind x previous with
  | zero => cases x <;> exact SlotStep.reads_answer _
  | succ fuel ih =>
      cases x with
      | zero => exact SlotStep.reads_answer _
      | succ p =>
          rw [SlotStep.walkFree]
          refine SlotStep.reads_bind (SlotStep.reads_look ..) fun _ =>
            SlotStep.reads_bind (SlotStep.reads_header _) fun slot =>
            SlotStep.reads_when (SlotStep.reads_answer _) <|
            SlotStep.reads_when (SlotStep.reads_answer _) <|
            SlotStep.reads_bind (SlotStep.reads_link _) fun back =>
            SlotStep.reads_when (SlotStep.reads_answer _) ?_
          exact SlotStep.reads_bind (SlotStep.reads_link _) fun next => ih ..

theorem validate_eq_ok : h.validate = .ok () ↔
    ∃ chain, (SlotStep.walkChain h.block.capacity h.block.first 0 [] h).1 = .ok chain ∧
      chain.reached = h.block.capacity ∧
      ∃ listed, (SlotStep.walkFree ∅ [] h.block.capacity h.block.freeHead 0 h).1 = .ok listed ∧
        listed.length = h.block.freeCount ∧ listed.length = chain.free.length ∧
        ∀ p ∈ chain.free, p ∈ listed := by
  rw [validate, SlotStep.validate, SlotStep.bind_eq_ok SlotStep.reads_ask]
  simp only [SlotStep.ask_apply, Except.ok.injEq, exists_eq_left',
    SlotStep.bind_eq_ok (reads_walkChain ..), SlotStep.guard_eq_ok,
    SlotStep.bind_eq_ok (reads_walkFree ..), SlotStep.last_guard_eq_ok, ne_eq, not_or, not_not,
    Bool.not_eq_true', Bool.not_eq_false, List.all_eq_true, Std.HashSet.contains_ofList,
    List.contains_iff_mem]

theorem exists_intact_of_validate (hv : h.validate = .ok ()) :
    ∃ slots listed, h.Intact slots listed := by
  obtain ⟨chain, hchain, hreached, listed, hlisted, hcounted, hlength, hmem⟩ := validate_eq_ok.1 hv
  obtain ⟨slots, hi⟩ := exists_intact hchain hreached hlisted hcounted hlength hmem
  exact ⟨slots, listed, hi⟩

theorem Intact.validate (hi : h.Intact slots listed) : h.validate = .ok () := by
  have hfirst := Layout.Sound.first_pos h.block
  obtain ⟨back, hback, hr⟩ := hi.readable
  refine validate_eq_ok.2 ⟨⟨h.block.capacity, freePositions slots⟩, hr.walkChain ?_ [], rfl, listed,
    hi.walkFree, hi.counted.symm, hi.complete.length_eq, fun p hp => hi.complete.mem_iff.2 hp⟩
  split <;> omega

/-- The check passes on exactly the memories whose words show a chain of slots from the first
position to the capacity and a free list that goes through its free ones once each. -/
theorem validate_eq_ok_iff (h : SlotHeap) :
    h.validate = .ok () ↔ ∃ slots listed, h.Intact slots listed :=
  ⟨exists_intact_of_validate, fun ⟨_, _, hi⟩ => hi.validate⟩

end SlotHeap

end AffinityHeap
