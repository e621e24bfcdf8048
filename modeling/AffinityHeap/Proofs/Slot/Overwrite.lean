import AffinityHeap.Proofs.Slot.Refinement
import AffinityHeap.Proofs.Slot.Returnable

namespace AffinityHeap

open Slot (lastSpan)

/-- The counters of the block hold what the release of the slot takes off them; else they go on from
the top of their range. -/
structure Slot.Counted (b : SlotBlock) (r : Slot) : Prop where
  allocations : 0 < b.allocations
  reserved : r.span ≤ b.reserved

namespace Layout.Sound

variable {b : SlotBlock} {L : Layout} {s r : Slot}

theorem back_of_first (hS : L.Sound b) (hs : s ∈ L.slots) (hfirst : s.position = b.first) :
    s.back = 0 := by
  have htiled := hS.tiled
  cases hL : L.slots with
  | nil =>
      rw [hL] at hs
      cases hs
  | cons t rest =>
      rw [hL] at htiled
      obtain ⟨hpos, hback, -⟩ := htiled
      obtain rfl := hS.position_inj hs (hL ▸ List.mem_cons_self ..) (hfirst.trans hpos.symm)
      exact hback

/-- Where a slot of the block starts there is room for a payload. -/
theorem returnable_iff (hS : L.Sound b) (hs : s ∈ L.slots) (hrs : r.position = s.position)
    {slots : List Slot} : r.Returnable b slots ↔ (r.position = b.first → r.back = 0) := by
  have hroom := hS.room hs
  have hstop := hS.stop_le hs
  have hinside := hS.inside (List.ne_nil_of_mem hs)
  refine ⟨fun hr => hr.front, fun hfront => ⟨?_, by omega, hfront, .inl (by omega)⟩⟩
  rw [hrs]
  exact (hS.each s hs).aligned

end Layout.Sound

namespace SlotHeap

variable {h h' : SlotHeap} {A B X Y slots slots' : List Slot} {listed : List Nat}
  {s s' t u r : Slot} {start back back' stop : Nat} {w : UInt32}

section Chains

variable (hsame : ∀ q, q ≠ s.position → h'.header q = h.header q)
include hsame

theorem Readable.eq_of_same (hr : h.Readable start back X stop)
    (hr' : h'.Readable start back' Y stop) (ht : t ∈ X) (hu : u ∈ Y)
    (hut : u.position = t.position) (hne : t.position ≠ s.position) : u = t := by
  refine slot_eq_of_header (h := h) ?_ (hr.headers t ht) hut
  rw [← hsame _ (hut ▸ hne)]
  exact hr'.headers u hu

/-- Up to the word that differs the chains are one. -/
theorem Readable.follows (hr : h.Readable start back (A ++ s :: B) stop)
    (hr' : h'.Readable start back' slots' stop) :
    ∃ s' B', slots' = A ++ s' :: B' ∧ s'.position = s.position := by
  induction A generalizing start back back' slots' with
  | nil =>
      obtain ⟨s', B', rfl, hs'⟩ := hr'.exists_cons hr.lt
      exact ⟨s', B', rfl, hs'.trans hr.tiled.1.symm⟩
  | cons a A ih =>
      obtain ⟨a', rest, rfl, ha'⟩ := hr'.exists_cons hr.lt
      have hlt := (Readable.ordered hr).1 a (List.mem_cons_self ..)
      obtain rfl : a' = a := hr.eq_of_same hsame hr' (List.mem_cons_self ..)
        (List.mem_cons_self ..) (ha'.trans hr.tiled.1.symm) (Nat.ne_of_lt hlt)
      obtain ⟨s', B', rfl, hs'⟩ := ih (Readable.split (A := []) hr).2.2
        (Readable.split (A := []) hr').2.2
      exact ⟨s', B', rfl, hs'⟩

/-- Chains that meet again behind the word that differs are told the same spans all the way back
to it. -/
theorem Readable.span_eq (hr : h.Readable start back X stop) (hr' : h'.Readable start back' Y stop)
    (hlast : lastSpan back X = lastSpan back' Y) (hs : s ∈ X) (hs' : s' ∈ Y)
    (hpos : s'.position = s.position) : s'.span = s.span := by
  induction X using List.reverseRecOn generalizing Y stop with
  | nil => cases hs
  | append_singleton X t ih =>
      rcases List.eq_nil_or_concat Y with rfl | ⟨Y, u, rfl⟩
      · cases hs'
      rw [List.concat_eq_append] at hr' hs' hlast
      rw [Slot.lastSpan_concat, Slot.lastSpan_concat] at hlast
      obtain ⟨hfront, hback, hend⟩ := hr.split
      obtain ⟨hfront', hback', hend'⟩ := hr'.split
      -- They end at one place and are told one span, so they start at one place.
      have hut : u.position = t.position := by
        have hstop : t.position + t.span = stop := hend.tiled
        have hstop' : u.position + u.span = stop := hend'.tiled
        omega
      by_cases hts : t.position = s.position
      · obtain rfl := hr.position_inj hs (by simp) hts.symm
        obtain rfl := hr'.position_inj hs' (by simp) (hpos.trans hut.symm)
        exact hlast.symm
      · obtain rfl := hr.eq_of_same hsame hr' (by simp) (by simp) hut hts
        have hsX : s ∈ X := (List.mem_append.1 hs).resolve_right fun hsu =>
          hts (by rw [List.mem_singleton.1 hsu])
        have hsY : s' ∈ Y := (List.mem_append.1 hs').resolve_right fun hsu =>
          hts (by rw [← hpos, List.mem_singleton.1 hsu])
        exact ih hfront hfront' (hback.trans hback'.symm) hsX hsY

/-- Behind a word that tells another span there is no slot that was there before. -/
theorem Readable.notMem_of_span_ne (hr : h.Readable start back X stop)
    (hr' : h'.Readable start back' Y stop) (hs : s ∈ X) (hs' : s' ∈ Y)
    (hpos : s'.position = s.position) (hspan : s'.span ≠ s.span) (hu : u ∈ Y)
    (hbehind : s.position < u.position) : u.position ∉ X.map (·.position) := by
  intro hmem
  obtain ⟨t, ht, htu⟩ := List.mem_map.1 hmem
  obtain rfl := hr.eq_of_same hsame hr' ht hu htu.symm (by omega)
  obtain ⟨C, D, rfl⟩ := List.append_of_mem ht
  obtain ⟨E, F, rfl⟩ := List.append_of_mem hu
  obtain ⟨hC, hback, -⟩ := hr.split
  obtain ⟨hE, hback', -⟩ := hr'.split
  exact hspan (hC.span_eq hsame hE (hback.trans hback'.symm) (hr.mem_front hs hbehind)
    (hr'.mem_front hs' (by omega)) hpos)

end Chains

section Counts

variable (hc : h.Consistent slots listed)
include hc

theorem Consistent.counted_of_mem (hr : r ∈ slots) (hallocated : r.status = .allocated) :
    r.Counted h.block := by
  have hmem := mem_taken.2 ⟨hr, hallocated⟩
  constructor
  · rw [hc.allocations]
    exact List.length_pos_of_mem hmem
  · obtain ⟨X, Y, hXY⟩ := List.append_of_mem hmem
    rw [hc.reserved, hXY]
    simp only [List.map_append, List.map_cons, sumOf_append, sumOf_cons]
    omega

/-- Where nothing behind `s` is free the counters hold all that is there. -/
theorem Consistent.rest_le_reserved (hslots : slots = A ++ s :: B)
    (hB : ∀ t ∈ s :: B, t.status = .allocated) :
    h.block.capacity ≤ s.position + h.block.reserved := by
  obtain ⟨m, -, rfl, hback, htiled⟩ := Slot.tiled_append.1 (hslots ▸ hc.tiled)
  have hspan := Slot.tiled_span (l := s :: B) ⟨rfl, hback, htiled⟩
  have htaken : taken (s :: B) = s :: B := List.filter_eq_self.2 fun t ht => by simp [hB t ht]
  rw [hc.reserved, hslots, taken_append, htaken, List.map_append, sumOf_append]
  omega

end Counts

/-- What the check reads, and what a release makes of it, where the word in front of the slot `s`
has become `w` and the check still passes: `s'` is the slot that then starts where `s` does. A slot
that starts where none did is forged from the words of payloads. -/
structure Overwritten (h : SlotHeap) (slots : List Slot) (s : Slot) (w : UInt32)
    (slots' : List Slot) (s' : Slot) : Prop where
  intact : ∃ listed, (h.setWord s.position w).Intact slots' listed
  mem : s' ∈ slots'
  position : s'.position = s.position
  decoded : SlotHeader.decode w s.position = .ok s'.toSlotHeader
  status : s'.status = s.status
  others : ∀ r ∈ slots', r.position ∈ slots.map (·.position) → r = s' ∨ r ∈ slots
  kept : s'.span = s.span → slots'.map (·.position) = slots.map (·.position)
  forged : s'.span ≠ s.span → ∀ r ∈ slots', s.position < r.position →
    r.status = .allocated ∧ r.position ∉ slots.map (·.position)
  counted : s.status = .allocated ∨ s'.span = s.span →
    ∀ r ∈ slots', r.status = .allocated → r.Counted h.block
  takesBack_iff : ∀ r ∈ slots', r.status = .allocated →
    ((h.setWord s.position w).TakesBack r ↔ r.Returnable h.block slots')
  takesBack_known : ∀ r ∈ slots', r.status = .allocated → r.position ∈ slots.map (·.position) →
    ((h.setWord s.position w).TakesBack r ↔ (r.position = h.block.first → r.back = 0))
  agrees : s'.span = s.span → ((∀ r ∈ slots', r.status = .allocated →
    (h.setWord s.position w).TakesBack r) ↔
      (s.status = .allocated → s.position = h.block.first → s'.back = 0))

section Keeps

variable {L : Layout} {live : List Grant} (hk : h.Keeps L live) (hs : s ∈ L.slots)
include hk hs

/-- The links of the free slots are not headers. -/
theorem Keeps.walk_setWord (w : UInt32) :
    (h.setWord s.position w).FreeWalk 0 h.block.freeHead L.free := by
  have hne : ∀ t ∈ L.slots, ∀ k, 0 < k → k < 4 → s.position ≠ t.position + k := by
    intro t ht k h0 h4 heq
    have hroom := hk.sound.room ht
    have hpayload : t.Payload (t.position + k) := ⟨by omega, by omega⟩
    exact hk.sound.notMem_positions ht hpayload (heq ▸ List.mem_map_of_mem hs)
  refine hk.consistent.walk.congr fun p hp => ?_
  obtain ⟨t, ht, -, rfl⟩ := hk.sound.mem_free.1 hp
  exact ⟨link_setWord_of_ne (hne t ht 1 (by decide) (by decide)),
    link_setWord_of_ne (hne t ht 2 (by decide) (by decide))⟩

section Front

variable {back : Nat} (hw : SlotHeader.decode w s.position = .ok { s with back })
include hw

theorem Keeps.header_of_front : (h.setWord s.position w).header s.position = .ok { s with back } :=
  (header_setWord_self (hk.sound.inRange hs (k := 0) (hk.sound.span_pos s hs))).trans hw

variable (hfirst : s.position = h.block.first) (hallocated : s.status = .allocated)
  (hlow : h.block.first ≤ back)
include hfirst hlow

/-- To the check a back span that reaches past position 0 is that of the first slot. -/
theorem Keeps.front_passes : (h.setWord s.position w).validate = .ok () := by
  obtain ⟨A, B, hL⟩ := List.append_of_mem hs
  have hold := hL ▸ hk.consistent.readable
  obtain rfl : A = [] := by
    cases A with
    | nil => rfl
    | cons t A =>
        have hlt := hold.ordered.1 t (List.mem_cons_self ..)
        exact absurd (hold.tiled.1.trans hfirst.symm) (Nat.ne_of_lt hlt)
  obtain ⟨-, -, hB⟩ := hold.split
  let s' : Slot := { s with back }
  have hnew : (h.setWord s.position w).Readable s'.position s'.back (s' :: B) h.block.capacity :=
    .cons (hk.header_of_front hs hw) (hk.sound.span_pos s hs)
      (hB.congr fun t ht => header_setWord_of_ne (Nat.ne_of_lt (hold.ordered.2 t ht)))
  have hcomplete : L.free.Perm (freePositions (s' :: B)) := by
    have hlisted := hk.sound.listed
    rw [hL] at hlisted
    simpa [s'] using hlisted
  exact Intact.validate ⟨⟨back, .inr hlow, hfirst ▸ hnew⟩, hk.walk_setWord hs w, hcomplete,
    hk.shows.counted⟩

include hallocated in
/-- To a release it is a corruption. -/
theorem Keeps.front_refused (hrecord : h.block.buffer.record = 4) :
    SlotStep.deallocate (h.block.addressOf (s.position + 1)) 0 (h.setWord s.position w) =
      (.error (.backSpanMismatch s.position h.block.first
        ((s.position + UInt64.size - back) % UInt64.size)), h.setWord s.position w) := by
  have hslot := SlotStep.slotOf_addressOf hrecord hk.sound hs
  have hcheck : SlotStep.checkRelease s.position 0 { s with back } h.block = .ok () :=
    SlotStep.checkRelease_of_held (hk.sound.span_pos s hs) hallocated (hk.sound.stop_le hs)
  have hpreceding : SlotStep.precedingOf s.position { s with back } h.block =
      .error (.backSpanMismatch s.position h.block.first
        ((s.position + UInt64.size - back) % UInt64.size)) := by
    have hpos := Layout.Sound.first_pos h.block
    rw [SlotStep.precedingOf, if_neg (show ¬ back = 0 by omega), if_neg]
    rintro ⟨-, hle⟩
    have hle : h.block.first ≤ s.position - back := hle
    omega
  rw [SlotStep.deallocate, SlotStep.ask_bind, SlotStep.answer_bind,
    show SlotStep.slotOf _ (h.setWord s.position w).block = _ from hslot]
  refine (SlotStep.header_bind ..).trans ?_
  rw [hk.header_of_front hs hw]
  refine (SlotStep.answer_bind ..).trans ?_
  rw [show SlotStep.checkRelease _ 0 _ (h.setWord s.position w).block = _ from hcheck]
  refine (SlotStep.answer_bind ..).trans ?_
  rw [show SlotStep.precedingOf _ _ (h.setWord s.position w).block = _ from hpreceding]

end Front

variable (hi : (h.setWord s.position w).Intact slots' listed)
include hi

theorem Keeps.listed_eq : listed = L.free :=
  freeWalk_unique hi.walk (hk.walk_setWord hs w) hi.zero_notMem hk.consistent.intact.zero_notMem

theorem Keeps.status_eq (ht : t ∈ L.slots) (hr : r ∈ slots') (hrt : r.position = t.position) :
    r.status = t.status := by
  have hfree : r.status = .free ↔ t.status = .free := by
    rw [← hi.mem_listed hr, ← hk.consistent.intact.mem_listed ht, hk.listed_eq hs hi, hrt]
  cases hts : t.status with
  | free => exact hfree.2 hts
  | allocated =>
      cases hrs : r.status with
      | free => exact absurd (hts.symm.trans (hfree.1 hrs)) (by decide)
      | allocated => rfl

theorem Keeps.allocated_of_notMem (hr : r ∈ slots')
    (hnew : r.position ∉ L.slots.map (·.position)) : r.status = .allocated := by
  cases hrs : r.status with
  | allocated => rfl
  | free =>
      have hmem := hk.listed_eq hs hi ▸ (hi.mem_listed hr).2 hrs
      exact absurd (hk.sound.free_subset hmem) hnew

/-- In front of `s` nothing has changed, and there is a slot where it was. -/
theorem Keeps.exists_reread : ∃ A B s' B', L.slots = A ++ s :: B ∧ slots' = A ++ s' :: B' ∧
    s'.position = s.position := by
  obtain ⟨A, B, hL⟩ := List.append_of_mem hs
  obtain ⟨back, -, hnew⟩ := hi.readable
  have hold := hL ▸ hk.consistent.readable
  obtain ⟨s', B', hslots, hpos⟩ := hold.follows (fun q hq => header_setWord_of_ne hq.symm) hnew
  exact ⟨A, B, s', B', hL, hslots, hpos⟩

variable (hs' : s' ∈ slots') (hpos : s'.position = s.position)
include hs' hpos

omit hs in
theorem Keeps.reread_others (hr : r ∈ slots') (hmem : r.position ∈ L.slots.map (·.position)) :
    r = s' ∨ r ∈ L.slots := by
  obtain ⟨t, ht, htr⟩ := List.mem_map.1 hmem
  obtain ⟨back, -, hnew⟩ := hi.readable
  by_cases hrs : r.position = s.position
  · exact .inl (hnew.position_inj hr hs' (hrs.trans hpos.symm))
  · obtain rfl := hk.consistent.readable.eq_of_same (fun q hq => header_setWord_of_ne hq.symm) hnew ht hr
      htr.symm (htr ▸ hrs)
    exact .inr ht

theorem Keeps.reread_kept (hspan : s'.span = s.span) :
    slots'.map (·.position) = L.slots.map (·.position) := by
  obtain ⟨back, -, hnew⟩ := hi.readable
  obtain ⟨A, B, u, B', hL, rfl, hu⟩ := hk.exists_reread hs hi
  obtain rfl := hnew.position_inj hs' (by simp) (hpos.trans hu.symm)
  have hold := hL ▸ hk.consistent.readable
  obtain ⟨-, -, hB⟩ := hold.split
  obtain ⟨-, -, hB'⟩ := hnew.split
  have hsame : (h.setWord s.position w).Readable s.stop s.span B h.block.capacity :=
    hB.congr fun t ht => header_setWord_of_ne (Nat.ne_of_lt (hold.ordered.2 t ht))
  have hstop : s'.stop = s.stop := by
    simp only [Slot.stop]
    omega
  obtain rfl := (hstop ▸ hB').unique hsame
  simp [hL, hpos]

theorem Keeps.reread_forged (hspan : s'.span ≠ s.span) (hr : r ∈ slots')
    (hlt : s.position < r.position) :
    r.status = .allocated ∧ r.position ∉ L.slots.map (·.position) := by
  obtain ⟨back, -, hnew⟩ := hi.readable
  have hnot := hk.consistent.readable.notMem_of_span_ne (fun q hq => header_setWord_of_ne hq.symm) hnew
    hs hs' hpos hspan hr hlt
  exact ⟨hk.allocated_of_notMem hs hi hr hnot, hnot⟩

/-- A free slot stays where it is, so none was behind `s` if nothing is there any more. -/
theorem Keeps.allocated_of_forged (hspan : s'.span ≠ s.span) (ht : t ∈ L.slots)
    (hlt : s.position < t.position) : t.status = .allocated := by
  cases hfree : t.status with
  | allocated => rfl
  | free =>
      have hmem := hk.listed_eq hs hi ▸ (hk.consistent.intact.mem_listed ht).2 hfree
      obtain ⟨r, hr, -, hrt⟩ := mem_freePositions.1 (hi.complete.mem_iff.1 hmem)
      refine absurd ?_ (hk.reread_forged hs hi hs' hpos hspan hr (hrt ▸ hlt)).2
      exact hrt ▸ List.mem_map_of_mem ht

theorem Keeps.reread_counted (hheld : s.status = .allocated ∨ s'.span = s.span) (hr : r ∈ slots')
    (hallocated : r.status = .allocated) : r.Counted h.block := by
  have hc := hk.consistent
  have hstatus := hk.status_eq hs hi hs hs' hpos
  by_cases hspan : s'.span = s.span
  · have hmem := hk.reread_kept hs hi hs' hpos hspan ▸ List.mem_map_of_mem hr
    rcases hk.reread_others hi hs' hpos hr hmem with rfl | hold
    · obtain ⟨hpositive, hle⟩ := hc.counted_of_mem hs (hstatus.symm.trans hallocated)
      exact ⟨hpositive, hspan ▸ hle⟩
    · exact hc.counted_of_mem hold hallocated
  · have hsheld := hheld.resolve_right hspan
    obtain ⟨back, -, hnew⟩ := hi.readable
    obtain ⟨A, B, u, B', hL, rfl, hu⟩ := hk.exists_reread hs hi
    rcases List.mem_append.1 hr with hA | hB
    · exact hc.counted_of_mem (hL ▸ List.mem_append_left _ hA) hallocated
    have hrest := hc.rest_le_reserved hL fun t ht => by
      rcases List.mem_cons.1 ht with rfl | ht
      · exact hsheld
      · have hold := hL ▸ hc.readable
        exact hk.allocated_of_forged hs hi hs' hpos hspan (by simp [hL, ht]) (hold.ordered.2 t ht)
    have hlow : s.position ≤ r.position := by
      rcases List.mem_cons.1 hB with rfl | hB
      · exact Nat.le_of_eq hu.symm
      · exact hu ▸ Nat.le_of_lt (hnew.ordered.2 r hB)
    have hstop : r.position + r.span ≤ h.block.capacity :=
      (Slot.tiled_bounds hnew.tiled r (by simp [hB])).2
    exact ⟨(hc.counted_of_mem hs hsheld).allocations, by omega⟩

end Keeps

theorem Keeps.overwritten {L : Layout} {live : List Grant} (hk : h.Keeps L live)
    (hrecord : h.block.buffer.record = 4) (hs : s ∈ L.slots)
    (hv : (h.setWord s.position w).validate = .ok ()) :
    ∃ slots' s', h.Overwritten L.slots s w slots' s' := by
  obtain ⟨slots', listed, hi⟩ := exists_intact_of_validate hv
  have hcapacity := hk.sound.inside (List.ne_nil_of_mem hs)
  obtain ⟨A, B, s', B', -, hslots, hpos⟩ := hk.exists_reread hs hi
  have hs' : s' ∈ slots' := by simp [hslots]
  have hstatus := hk.status_eq hs hi hs hs' hpos
  have hkept := hk.reread_kept hs hi hs' hpos
  have hothers := fun {r : Slot} => hk.reread_others (r := r) hi hs' hpos
  have hiff := fun {r : Slot} => hi.takesBack_iff (r := r) hrecord hcapacity
  have hknown : ∀ r ∈ slots', r.status = .allocated → r.position ∈ L.slots.map (·.position) →
      ((h.setWord s.position w).TakesBack r ↔ (r.position = h.block.first → r.back = 0)) := by
    intro r hr hallocated hmem
    obtain ⟨t, ht, htr⟩ := List.mem_map.1 hmem
    exact (hiff hr hallocated).trans (hk.sound.returnable_iff ht htr.symm)
  obtain ⟨back, -, hnew⟩ := hi.readable
  have hdecoded := (SlotStep.header_ok (hnew.headers s' hs')).2
  rw [word_setWord, if_pos hpos.symm, hpos] at hdecoded
  refine ⟨slots', s', ⟨listed, hi⟩, hs', hpos, hdecoded, hstatus, fun r hr => hothers hr, hkept,
    fun hspan r hr => hk.reread_forged hs hi hs' hpos hspan hr,
    fun hheld r hr => hk.reread_counted hs hi hs' hpos hheld hr,
    fun r hr hallocated => hiff hr hallocated, hknown, fun hspan => ⟨?_, ?_⟩⟩
  · intro hall hallocated hfirst
    have hallocated' := hstatus.trans hallocated
    exact (hknown s' hs' hallocated' (hpos ▸ List.mem_map_of_mem hs)).1 (hall s' hs' hallocated')
      (hpos.trans hfirst)
  · intro hback r hr hallocated
    have hmem := hkept hspan ▸ List.mem_map_of_mem hr
    refine (hknown r hr hallocated hmem).2 fun hfirst => ?_
    rcases hothers hr hmem with rfl | hold
    · exact hback (hstatus.symm.trans hallocated) (hpos.symm.trans hfirst)
    · exact hk.sound.back_of_first hold hfirst

end SlotHeap

namespace SlotSession

/-- What comes of a word written over the header of one slot. Where the check still passes, every
allocated slot that starts where one did can be released, but for a first slot that has got a back
span, and a forged one can where there is room for a payload. -/
structure Rechecked (s : SlotSession) : Prop where
  readable : ∃ slots listed, s.heap.Consistent slots listed
  overwritten : ∀ slots listed, s.heap.Consistent slots listed → ∀ t ∈ slots, ∀ w,
    (s.heap.setWord t.position w).validate = .ok () →
      ∃ slots' t', s.heap.Overwritten slots t w slots' t'
  front : ∀ slots listed, s.heap.Consistent slots listed → ∀ t ∈ slots,
    t.position = s.heap.block.first → t.status = .allocated → ∀ w back,
      s.heap.block.first ≤ back → SlotHeader.decode w t.position = .ok { t with back } →
        (s.heap.setWord t.position w).validate = .ok () ∧
          SlotStep.deallocate (s.heap.block.addressOf (t.position + 1)) 0
              (s.heap.setWord t.position w) =
            (.error (.backSpanMismatch t.position s.heap.block.first
              ((t.position + UInt64.size - back) % UInt64.size)), s.heap.setWord t.position w)

variable {b : SlotBlock} {s : SlotSession}

theorem Kept.rechecked (hk : Kept b s) : s.Rechecked := by
  obtain ⟨L, hL⟩ := hk.keeps
  refine ⟨⟨L.slots, L.free, hL.consistent⟩, fun slots listed hc t ht w hv => ?_,
    fun slots listed hc t ht hfirst hallocated w back hlow hw => ?_⟩
  · obtain ⟨rfl, rfl⟩ := hL.consistent.unique hc
    exact hL.overwritten hk.record ht hv
  · obtain ⟨rfl, rfl⟩ := hL.consistent.unique hc
    exact ⟨hL.front_passes ht hw hfirst hlow,
      hL.front_refused ht hw hfirst hallocated hlow hk.record⟩

theorem run_rechecked {space space' : AddressSpace} {blockSize alignment : Nat}
    (hp : space.policy.Aligned) (hsmall : alignment < 131072)
    (hcreate : SlotBlock.create blockSize alignment space = (.ok b, space'))
    {requests : List SlotRequest} (hr : (start b space'.memory).ProperRun requests) :
    ∃ s, (start b space'.memory).run requests = .ok s ∧ s.Rechecked := by
  obtain ⟨s, hs, hk⟩ := (kept_start hp hsmall hcreate).run hr
  exact ⟨s, hs, hk.rechecked⟩

theorem run_rechecked_small : ∃ b space',
    SlotBlock.create 64 4 (.new (.sideBySide false 16 0x100000000)) = (.ok b, space') ∧
      ∃ s, (start b space'.memory).run [.allocate 12, .allocate 16] = .ok s ∧ s.Rechecked := by
  obtain ⟨b, space', hcreate⟩ := Obtain.exists_of_isOk
    (x := SlotBlock.create 64 4) (s := .new (.sideBySide false 16 0x100000000)) (by decide +kernel)
  have hr : (start b space'.memory).ProperRun [.allocate 12, .allocate 16] :=
    ⟨trivial, fun _ _ => ⟨trivial, fun _ _ => trivial⟩⟩
  exact ⟨b, space', hcreate, run_rechecked
    (Policy.sideBySide_aligned (isPowerOfTwo_iff.2 ⟨4, rfl⟩) false 0x100000000) (by decide) hcreate
    hr⟩

/-- The first slot of a block of 16 words is told of a span of one word in front of it: the check
passes and the release of the one live pointer fails. -/
theorem front_release_refused : ∃ b space' s,
    SlotBlock.create 64 4 (.new (.sideBySide false 16 0x100000000)) = (.ok b, space') ∧
      (start b space'.memory).run [.allocate 12] = .ok s ∧
      (∃ slots listed, s.heap.Consistent slots listed ∧ ⟨⟨0, 4, .allocated⟩, 1⟩ ∈ slots) ∧
      (s.heap.setWord 1 131073).validate = .ok () ∧
      (s.heap.setWord 1 131073).header 1 = .ok ⟨1, 4, .allocated⟩ ∧
      SlotStep.deallocate (b.addressOf 2) 0 (s.heap.setWord 1 131073) =
        (.error (.backSpanMismatch 1 1 0), s.heap.setWord 1 131073) := by
  obtain ⟨b, space', hcreate, hb⟩ := Obtain.exists_of_any
    (x := SlotBlock.create 64 4) (s := .new (.sideBySide false 16 0x100000000))
    (p := fun b => b.unit == 1 && b.buffer.len == 16 && b.maximumAllocationSize == 56)
    (by decide +kernel)
  simp only [Bool.and_eq_true, beq_iff_eq] at hb
  obtain ⟨⟨hunit, hlen⟩, hmax⟩ := hb
  have hp := AddressSpace.aligned_of_policy (s := .new (.sideBySide false 16 0x100000000))
    (Policy.sideBySide_aligned (isPowerOfTwo_iff.2 ⟨4, rfl⟩) false 0x100000000)
  obtain ⟨hsited, -, hkeeps⟩ := SlotBlock.create_keeps hp (by decide) hcreate
  have hfresh : SlotBlock.freshLayout 16 1 = ⟨[⟨⟨0, 15, .free⟩, 1⟩], [1]⟩ := by decide +kernel
  rw [hlen, hunit, hfresh] at hkeeps
  rcases hkeeps.allocate 12 with ⟨h', -, -, -, hno⟩ | ⟨K, L, h', hserved, hrun, hk, -, hlike, -⟩
  · rcases hno with h | h
    · exact absurd h (by rw [hmax]; decide)
    · exact absurd (h ⟨⟨0, 15, .free⟩, 1⟩ (by simp) rfl) (by decide)
  · rcases hserved.at_head hkeeps.sound (A := []) (B := []) (F := ⟨⟨0, 15, .free⟩, 1⟩) (r := 5) rfl
      rfl (by decide) (by rw [hunit]; rfl) with ⟨hshort, -⟩ | ⟨-, rfl, rfl⟩
    · exact absurd hshort (by decide)
    have hs := List.mem_cons_self (a := (⟨⟨0, 4, .allocated⟩, 1⟩ : Slot)) (l := [⟨⟨4, 11, .free⟩, 5⟩])
    have hrecord := (hlike.sited hsited).record
    have hfirst : 1 = h'.block.first := by
      rw [SlotBlock.first, SlotBlock.unit, hlike.alignment, ← SlotBlock.unit, hunit]
      rfl
    have hw : SlotHeader.decode 131073 1 = .ok ⟨1, 4, .allocated⟩ := by rfl
    have hrefused := hk.front_refused hs hw hfirst rfl (Nat.le_of_eq hfirst.symm) hrecord
    rw [hlike.addressOf, ← hfirst] at hrefused
    have hstep : (start b space'.memory).apply (.allocate 12) =
        .ok ⟨h', [⟨b.addressOf 2, 12⟩]⟩ := by
      rw [apply, start, hrun]
      rfl
    refine ⟨b, space', ⟨h', [⟨b.addressOf 2, 12⟩]⟩, hcreate, by rw [run, hstep]; rfl,
      ⟨_, _, hk.consistent, hs⟩, ?_, hk.header_of_front hs hw, hrefused⟩
    exact hk.front_passes hs hw hfirst (Nat.le_of_eq hfirst.symm)

end SlotSession

end AffinityHeap
