import AffinityHeap.Proofs.Slot.Completes

namespace AffinityHeap

/-- What the release of an allocated slot asks of it where the block passes its check. -/
structure Slot.Returnable (b : SlotBlock) (slots : List Slot) (r : Slot) : Prop where
  aligned : b.unit ∣ r.position + 1
  inside : r.position + 1 < b.buffer.len
  front : r.position = b.first → r.back = 0
  room : r.position + 2 < b.capacity ∨
    ∃ P ∈ slots, P.status = .free ∧ P.stop = r.position ∧ P.span + r.span ≤ maxSpan

namespace SlotStep

variable {b : SlotBlock} {address c : Nat}

theorem slotOf_contains (hslot : slotOf address b = .ok c) : b.buffer.contains address = true := by
  simp only [slotOf, Buffer.offsetOf?] at hslot
  by_cases hcontains : b.buffer.contains address = true
  · exact hcontains
  · rw [if_neg hcontains] at hslot
    cases hslot

theorem precedingOf_first {slot : SlotHeader} {p : Nat}
    (h : precedingOf b.first slot b = .ok p) : slot.back = 0 := by
  have hfirst := Layout.Sound.first_pos b
  rw [precedingOf] at h
  split at h
  · assumption
  · rw [if_neg (by omega)] at h
    cases h

theorem checkRelease_of_held {slot : SlotHeader} {p : Nat} (hspan : 0 < slot.span)
    (hallocated : slot.status = .allocated) (hstop : p + slot.span ≤ b.capacity) :
    checkRelease p 0 slot b = .ok () := by
  rw [checkRelease, if_neg (Nat.ne_of_gt hspan), SlotHeader.isFree_eq_false_iff.2 hallocated,
    if_neg Bool.false_ne_true, if_neg (Nat.not_lt_zero _), if_neg (Nat.not_lt.2 hstop)]

end SlotStep

namespace SlotHeap

variable {h : SlotHeap} {slots A B : List Slot} {listed : List Nat} {r : Slot}
  {position back stop previous x q : Nat}

theorem FreeWalk.congr {h' : SlotHeap} (hw : h.FreeWalk previous x listed)
    (hlinks : ∀ p ∈ listed, h'.previousFree p = h.previousFree p ∧
      h'.nextFree p = h.nextFree p) : h'.FreeWalk previous x listed := by
  induction listed generalizing previous x with
  | nil => exact hw
  | cons p rest ih =>
      obtain ⟨rfl, hback, next, hnext, hrest⟩ := hw
      obtain ⟨hprevious, hforward⟩ := hlinks x (List.mem_cons_self ..)
      exact ⟨rfl, hprevious.trans hback, next, hforward.trans hnext,
        ih hrest fun q hq => hlinks q (List.mem_cons_of_mem _ hq)⟩

theorem FreeWalk.threaded (hw : h.FreeWalk previous x listed)
    (hprevious : previous ≠ 0 →
      h.block.InRange (previous + 1) ∧ h.block.InRange (previous + 2)) :
    (x ≠ 0 → h.block.InRange (x + 1) ∧ h.block.InRange (x + 2)) ∧
      ∀ p ∈ listed, h.Threaded p := by
  induction listed generalizing previous x with
  | nil => exact ⟨fun h0 => absurd hw h0, fun p hp => nomatch hp⟩
  | cons p rest ih =>
      obtain ⟨rfl, hback, next, hnext, hrest⟩ := hw
      have hx := And.intro (inRange_of_link hback) (inRange_of_link hnext)
      obtain ⟨hnext', hthreaded⟩ := ih hrest fun _ => hx
      refine ⟨fun _ => hx, fun q hq => ?_⟩
      rcases List.mem_cons.1 hq with rfl | hq
      · exact ⟨⟨previous, hback, hprevious⟩, ⟨next, hnext, hnext'⟩⟩
      · exact hthreaded q hq

theorem Intact.threaded (hi : h.Intact slots listed) :
    (h.block.freeHead ≠ 0 →
      h.block.InRange (h.block.freeHead + 1) ∧ h.block.InRange (h.block.freeHead + 2)) ∧
      ∀ s ∈ slots, s.status = .free → h.Threaded s.position := by
  obtain ⟨hhead, hthreaded⟩ := hi.walk.threaded fun h0 => absurd rfl h0
  refine ⟨hhead, fun s hs hfree => hthreaded _ ?_⟩
  exact hi.complete.mem_iff.2 (mem_freePositions.2 ⟨s, hs, hfree, rfl⟩)

theorem Readable.congr {h' : SlotHeap} (hr : h.Readable position back slots stop)
    (hheaders : ∀ s ∈ slots, h'.header s.position = h.header s.position) :
    h'.Readable position back slots stop :=
  ⟨fun s hs => (hheaders s hs).trans (hr.headers s hs), hr.spans, hr.tiled⟩

/-- The slot behind can be told of the span of one in front of it. -/
theorem Readable.behind (hr : h.Readable position back (A ++ r :: B) stop) (hq : q ≤ r.position) :
    (B.map (·.position)).headD 0 ≠ 0 → q ≠ (B.map (·.position)).headD 0 ∧
      ∃ slot, h.header ((B.map (·.position)).headD 0) = .ok slot := by
  cases B with
  | nil => exact fun h0 => absurd rfl h0
  | cons N B =>
      obtain ⟨m, -, -, -, hstop, -⟩ := Slot.tiled_append.1 hr.tiled
      have hspan := hr.spans r (by simp)
      simp only [Slot.stop] at hstop
      refine fun _ => ⟨?_, N.toSlotHeader, hr.headers N (by simp)⟩
      show q ≠ N.position
      omega

theorem Readable.following (hr : h.Readable position back (A ++ r :: B) h.block.capacity) :
    h.block.following r.position r.toSlotHeader = (B.map (·.position)).headD 0 := by
  obtain ⟨m, -, rfl, htiled⟩ := Slot.tiled_append.1 hr.tiled
  exact Layout.following_of_tiled ⟨rfl, htiled⟩ fun t ht => hr.spans t (by simp [ht])

theorem Readable.ordered (hr : h.Readable position back (A ++ r :: B) stop) :
    (∀ P ∈ A, P.position < r.position) ∧ ∀ N ∈ B, r.position < N.position := by
  have hpair := Slot.tiled_pairwise hr.tiled
  obtain ⟨-, hbehind, hfront⟩ := List.pairwise_append.1 hpair
  obtain ⟨hbehind, -⟩ := List.pairwise_cons.1 hbehind
  have hspan := fun s hs => hr.spans s hs
  simp only [Slot.stop] at hbehind hfront
  constructor
  · intro P hP
    have hstop := hfront P hP r (List.mem_cons_self ..)
    have hlong := hspan P (by simp [hP])
    omega
  · intro N hN
    have hnext := hbehind N hN
    have hlong := hspan r (by simp)
    omega

theorem Readable.mem_front (hr : h.Readable position back (A ++ r :: B) stop) {t : Slot}
    (ht : t ∈ A ++ r :: B) (hlt : t.position < r.position) : t ∈ A := by
  refine (List.mem_append.1 ht).resolve_right fun hmem => ?_
  rcases List.mem_cons.1 hmem with rfl | hB
  · exact Nat.lt_irrefl _ hlt
  · exact Nat.lt_asymm hlt (hr.ordered.2 t hB)

/-- The slot in front takes in the one at `r`. -/
def Fuses (A : List Slot) (r : Slot) : Prop :=
  ∃ P ∈ A.getLast?, P.status = .free ∧ P.span + r.span ≤ maxSpan

section Absorb

variable (hi : h.Intact (A ++ r :: B) listed)
include hi

theorem Intact.completes_mergePrevious {P : Slot} (hA : P ∈ A.getLast?) :
    SlotStep.Completes (SlotStep.mergePrevious ((A.map (·.position)).getLastD 0) P.toSlotHeader
      r.position r.toSlotHeader ((B.map (·.position)).headD 0)) h := by
  obtain ⟨back, -, hr⟩ := hi.readable
  obtain ⟨A, rfl⟩ := List.getLast?_eq_some_iff.1 hA
  have hlt := hr.ordered.1 P (by simp)
  have hhead : ((A ++ [P]).map (·.position)).getLastD 0 = P.position := by simp
  rw [hhead]
  exact SlotStep.completes_mergePrevious (SlotStep.header_ok (hr.headers P (by simp))).1
    (SlotStep.header_ok (hr.headers r (by simp))).1 (hr.behind (Nat.le_of_lt hlt))

theorem Intact.completes_mergeNext {N : Slot} (hB : N ∈ B.head?) (hN : N.status = .free) :
    h.block.InRange (r.position + 2) ∧
      SlotStep.Completes (SlotStep.mergeNext r.position r.toSlotHeader
        ((B.map (·.position)).headD 0) N.toSlotHeader) h := by
  obtain ⟨back, -, hr⟩ := hi.readable
  obtain ⟨B, rfl⟩ := List.head?_eq_some_iff.1 hB
  have hthreaded := hi.threaded.2 N (by simp) hN
  have hlt := hr.ordered.2 N (by simp)
  have hpos := (SlotStep.header_ok (hr.headers r (by simp))).1.1
  have hr' : h.Readable h.block.first back ((A ++ [r]) ++ N :: B) h.block.capacity := by
    simpa using hr
  refine ⟨hthreaded.inRange.le (by omega) (by omega), ?_⟩
  refine SlotStep.completes_mergeNext (n := N.position) hpos hlt hthreaded ?_
  rw [hr'.following]
  exact hr'.behind (Nat.le_of_lt hlt)

theorem Intact.completes_mergeAll {P N : Slot} (hA : P ∈ A.getLast?) (hP : P.status = .free)
    (hB : N ∈ B.head?) (hN : N.status = .free) :
    SlotStep.Completes (SlotStep.mergeAll ((A.map (·.position)).getLastD 0) P.toSlotHeader
      r.position r.toSlotHeader ((B.map (·.position)).headD 0) N.toSlotHeader) h := by
  obtain ⟨back, -, hr⟩ := hi.readable
  obtain ⟨A, rfl⟩ := List.getLast?_eq_some_iff.1 hA
  obtain ⟨B, rfl⟩ := List.head?_eq_some_iff.1 hB
  have hlt := hr.ordered.1 P (by simp)
  have hlt' := hr.ordered.2 N (by simp)
  have hpos := (SlotStep.header_ok (hr.headers P (by simp))).1.1
  have hr' : h.Readable h.block.first back ((A ++ [P] ++ [r]) ++ N :: B) h.block.capacity := by
    simpa using hr
  have hhead : ((A ++ [P]).map (·.position)).getLastD 0 = P.position := by simp
  rw [hhead]
  refine SlotStep.completes_mergeAll (n := N.position) hpos hlt hlt'
    (hi.threaded.2 P (by simp) hP) (hi.threaded.2 N (by simp) hN) ?_
  rw [hr'.following]
  exact hr'.behind (by omega)

theorem Intact.completes_absorb_iff :
    SlotStep.Completes (SlotStep.absorb ((A.map (·.position)).getLastD 0)
      (SlotStep.freeHeader? A.getLast?) r.position r.toSlotHeader ((B.map (·.position)).headD 0)
      (SlotStep.freeHeader? B.head?)) h ↔ h.block.InRange (r.position + 2) ∨ Fuses A r := by
  obtain ⟨back, -, hr⟩ := hi.readable
  have hpos := (SlotStep.header_ok (hr.headers r (by simp))).1.1
  have hpush : SlotStep.Completes (SlotStep.pushFront r.position r.toSlotHeader) h ↔
      h.block.InRange (r.position + 2) :=
    SlotStep.completes_pushFront_iff hpos fun h0 => (hi.threaded.1 h0).1
  have halone : ¬ Fuses A r → (h.block.InRange (r.position + 2) ↔
      h.block.InRange (r.position + 2) ∨ Fuses A r) := fun hno => (or_iff_left hno).symm
  rcases SlotStep.freeHeader?_cases A.getLast? with ⟨hp, hP⟩ | ⟨P, hA, hP, hp⟩ <;>
    rcases SlotStep.freeHeader?_cases B.head? with ⟨hn, hN⟩ | ⟨N, hB, hN, hn⟩ <;>
    simp only [hp, hn, SlotStep.absorb]
  · refine hpush.trans (halone ?_)
    rintro ⟨P, hA, hfree, -⟩
    simp [hP P hA] at hfree
  · have hno : ¬ Fuses A r := by
      rintro ⟨P, hA, hfree, -⟩
      simp [hP P hA] at hfree
    split_ifs with hnext
    · obtain ⟨hroom, hrun⟩ := hi.completes_mergeNext hB hN
      exact iff_of_true hrun (.inl hroom)
    · exact hpush.trans (halone hno)
  · split_ifs with hprev
    · exact iff_of_true (hi.completes_mergePrevious hA) (.inr ⟨P, hA, hP, hprev⟩)
    · refine hpush.trans (halone ?_)
      rintro ⟨Q, hQ, -, hspan⟩
      exact hprev (Option.mem_unique hQ hA ▸ hspan)
  · have hno : ¬ P.span + r.span ≤ maxSpan → ¬ Fuses A r := by
      rintro hlong ⟨Q, hQ, -, hspan⟩
      exact hlong (Option.mem_unique hQ hA ▸ hspan)
    split_ifs with hall hprev hnext
    · exact iff_of_true (hi.completes_mergeAll hA hP hB hN) (.inr ⟨P, hA, hP, by omega⟩)
    · exact iff_of_true (hi.completes_mergePrevious hA) (.inr ⟨P, hA, hP, hprev⟩)
    · obtain ⟨hroom, hrun⟩ := hi.completes_mergeNext hB hN
      exact iff_of_true hrun (.inl hroom)
    · exact hpush.trans (halone (hno hprev))

end Absorb

theorem Intact.recount (hi : h.Intact slots listed) (allocations reserved : Nat) :
    Intact ⟨{ h.block with allocations, reserved }, h.memory⟩ slots listed := by
  obtain ⟨back, hback, hr⟩ := hi.readable
  exact ⟨⟨back, hback, hr.congr fun s _ => header_congr rfl⟩,
    hi.walk.congr fun p _ => ⟨link_congr rfl, link_congr rfl⟩, hi.complete, hi.counted⟩

/-- The pointer to the payload of the slot is taken back. -/
def TakesBack (h : SlotHeap) (r : Slot) : Prop :=
  SlotStep.Completes (SlotStep.deallocate (h.block.addressOf (r.position + 1)) 0) h

/-- Behind the checks of a release there is nothing left but the merge. -/
theorem Intact.takesBack_iff_absorb (hi : h.Intact (A ++ r :: B) listed)
    (hr : r.status = .allocated)
    (hslot : SlotStep.slotOf (h.block.addressOf (r.position + 1)) h.block = .ok r.position)
    (hfirst : A = [] → r.back = 0) :
    h.TakesBack r ↔ h.block.InRange (r.position + 2) ∨ Fuses A r := by
  obtain ⟨back, -, hread⟩ := hi.readable
  have hheader : ∀ s ∈ A ++ r :: B, s.position ≠ 0 ∧ h.header s.position = .ok s.toSlotHeader :=
    fun s hs => ⟨Nat.ne_of_gt (SlotStep.header_ok (hread.headers s hs)).1.1, hread.headers s hs⟩
  have hspan := hread.spans r (by simp)
  have hstop : r.position + r.span ≤ h.block.capacity :=
    (Slot.tiled_bounds hread.tiled r (by simp)).2
  have hcheck := SlotStep.checkRelease_of_held hspan hr hstop
  have hpreceding := SlotStep.precedingOf_of_tiled hread.tiled
    (fun s hs => hread.spans s (by simp [hs])) hfirst
  have hprev : SlotStep.freeAt? ((A.map (·.position)).getLastD 0) h =
      (.ok (SlotStep.freeHeader? A.getLast?), h) := by
    rw [List.getLastD_eq_getLast?, List.getLast?_map]
    exact SlotStep.freeAt?_eq fun s hs => hheader s (by simp [List.mem_of_getLast? hs])
  have hnext : SlotStep.freeAt? ((B.map (·.position)).headD 0) h =
      (.ok (SlotStep.freeHeader? B.head?), h) := by
    rw [List.headD_eq_head?_getD, List.head?_map]
    exact SlotStep.freeAt?_eq fun s hs => hheader s (by simp [List.mem_of_mem_head? hs])
  unfold TakesBack SlotStep.deallocate
  refine (SlotStep.completes_bind_iff (SlotStep.ask_apply h)).trans ?_
  refine (SlotStep.completes_bind_iff (SlotStep.answer_gives hslot)).trans ?_
  refine (SlotStep.completes_bind_iff (SlotStep.header_gives (hheader r (by simp)).2)).trans ?_
  refine (SlotStep.completes_bind_iff (SlotStep.answer_gives hcheck)).trans ?_
  refine (SlotStep.completes_bind_iff (SlotStep.answer_gives hpreceding)).trans ?_
  simp only [hread.following]
  refine (SlotStep.completes_bind_iff hprev).trans ?_
  refine (SlotStep.completes_bind_iff hnext).trans ?_
  refine SlotStep.completes_updateBlock_iff.trans ?_
  exact (hi.recount _ _).completes_absorb_iff

/-- The slot that ends where `r` starts is the last one in front of it. -/
theorem Readable.getLast?_iff (hr : h.Readable position back (A ++ r :: B) stop) {P : Slot} :
    P ∈ A.getLast? ↔ P ∈ A ++ r :: B ∧ P.stop = r.position := by
  have hlast : ∀ Q ∈ A.getLast?, Q.stop = r.position := by
    intro Q hQ
    obtain ⟨A, rfl⟩ := List.getLast?_eq_some_iff.1 hQ
    obtain ⟨m, hlow, rfl, -⟩ := Slot.tiled_append.1 hr.tiled
    obtain ⟨m, -, -, -, hstop⟩ := Slot.tiled_append.1 hlow
    exact hstop
  constructor
  · intro hP
    exact ⟨List.mem_append_left _ (List.mem_of_getLast? hP), hlast P hP⟩
  · rintro ⟨hmem, hstop⟩
    have hspan := hr.spans P hmem
    simp only [Slot.stop] at hstop hlast
    have hA := hr.mem_front hmem (by omega)
    rcases List.eq_nil_or_concat A with rfl | ⟨A, Q, rfl⟩
    · cases hA
    rw [List.concat_eq_append] at hr hlast hA ⊢
    have hQ := hlast Q (by simp)
    rcases List.mem_append.1 hA with hA | hA
    · have hr' : h.Readable position back (A ++ Q :: r :: B) stop := by simpa using hr
      have hpair := (List.pairwise_append.1 (Slot.tiled_pairwise hr'.tiled)).2.2
      have hle : P.position + P.span ≤ Q.position := hpair P hA Q (List.mem_cons_self ..)
      have hspan' := hr'.spans Q (by simp)
      omega
    · obtain rfl := List.mem_singleton.1 hA
      simp

theorem Readable.fuses_iff (hr : h.Readable position back (A ++ r :: B) stop) :
    Fuses A r ↔ ∃ P ∈ A ++ r :: B,
      P.status = .free ∧ P.stop = r.position ∧ P.span + r.span ≤ maxSpan := by
  constructor
  · rintro ⟨P, hA, hP, hspan⟩
    obtain ⟨hmem, hstop⟩ := hr.getLast?_iff.1 hA
    exact ⟨P, hmem, hP, hstop, hspan⟩
  · rintro ⟨P, hmem, hP, hstop, hspan⟩
    exact ⟨P, hr.getLast?_iff.2 ⟨hmem, hstop⟩, hP, hspan⟩

theorem Intact.takesBack_iff (hi : h.Intact slots listed) (hrecord : h.block.buffer.record = 4)
    (hcapacity : h.block.capacity ≤ h.block.buffer.len) (hr : r ∈ slots)
    (hallocated : r.status = .allocated) : h.TakesBack r ↔ r.Returnable h.block slots := by
  obtain ⟨A, B, rfl⟩ := List.append_of_mem hr
  obtain ⟨back, -, hread⟩ := hi.readable
  have hlow := (Slot.tiled_bounds hread.tiled r hr).1
  have hrange : h.block.InRange (r.position + 2) ↔ r.position + 2 < h.block.capacity :=
    ⟨fun hp => hp.2.1, fun hp => ⟨by omega, hp, by omega⟩⟩
  have hfront : A = [] → r.position = h.block.first := by
    rintro rfl
    exact hread.tiled.1
  constructor
  · intro hrel
    obtain ⟨c, hslot, hrun⟩ := SlotStep.exists_of_completes (SlotStep.reads_answer _)
      ((SlotStep.completes_bind_iff (SlotStep.ask_apply h)).1 hrel)
    obtain ⟨haddress, -, haligned⟩ := SlotStep.slotOf_ok hslot
    obtain rfl : r.position = c := addressOf_inj haddress
    obtain ⟨slot, hheader, hrun⟩ := SlotStep.exists_of_completes (SlotStep.reads_header _) hrun
    obtain rfl := Except.ok.inj ((hread.headers r hr).symm.trans hheader)
    obtain ⟨-, -, hrun⟩ := SlotStep.exists_of_completes (SlotStep.reads_answer _) hrun
    obtain ⟨p, hpreceding, -⟩ := SlotStep.exists_of_completes (SlotStep.reads_answer _) hrun
    have hfirst : r.position = h.block.first → r.back = 0 := fun heq =>
      SlotStep.precedingOf_first (heq ▸ hpreceding)
    have hinside := (Buffer.contains_iff.1 (SlotStep.slotOf_contains hslot)).2
    have hroom := (hi.takesBack_iff_absorb hallocated hslot fun hA => hfirst (hfront hA)).1 hrel
    refine ⟨haligned, ?_, hfirst, hroom.imp hrange.1 hread.fuses_iff.1⟩
    simp only [Buffer.byteLen, hrecord, SlotBlock.addressOf] at hinside
    omega
  · rintro ⟨haligned, hinside, hfirst, hroom⟩
    have hslot := SlotStep.slotOf_aligned hrecord hlow hinside haligned
    refine (hi.takesBack_iff_absorb hallocated hslot fun hA => hfirst (hfront hA)).2 ?_
    exact hroom.imp hrange.2 hread.fuses_iff.2

end SlotHeap

end AffinityHeap
