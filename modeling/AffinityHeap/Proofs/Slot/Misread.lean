import AffinityHeap.Proofs.Slot.Stale

namespace AffinityHeap

open SlotStep SlotGeometry

variable {b : SlotBlock} {L L' : Layout} {s s₀ : SlotSession} {g : Grant} {A B : List Slot}
  {F C N : Slot} {X Y : List Nat} {p x d r n : Nat}

namespace SlotStep

theorem freeAt?_of_zero {h : SlotHeap} {q : Nat} (hq : h.block.InRange q) (h0 : h.word q = 0) :
    freeAt? q h = (.ok none, h) := by
  have hheader : h.header q = .ok ⟨0, 0, .allocated⟩ := by
    rw [SlotHeap.header_of_inRange hq, h0]
    exact SlotHeader.decode_of_lt (by decide) q
  rw [freeAt?, if_neg (Nat.ne_of_gt hq.1), header_bind, hheader]
  rfl

/-- A next link from 32,768 on reads as a held slot one word long. -/
theorem header_of_link {h : SlotHeap} {q : Nat} (hq : h.block.InRange q)
    (hword : (h.word q).toNat = 0x8000 + d) (hback : d < 0x8000) :
    h.header q = .ok ⟨d, 1, .allocated⟩ := by
  rw [SlotHeap.header_of_inRange hq]
  refine SlotHeader.decode_of_fields
    ⟨Nat.le_of_lt_succ hback, show 1 ≤ maxSpan by decide⟩ (hword.trans ?_) _
  simp only [SlotStatus.code]
  omega

/-- What a release of the word behind `p + 2` makes of a view if that word reads as a slot of its
own, one word long. -/
def misread (p d : Nat) (v : SlotView) : SlotView :=
  let u := v.setBlock (·.discharged 1)
  ((((u.setWord (p + 2) (⟨d, 1, .free⟩ : SlotHeader).encode).setWord (p + 3)
    (UInt32.ofNat 0)).setWord (p + 4) (UInt32.ofNat v.block.freeHead)).setPrevious v.block.freeHead
    (p + 2)).setBlock fun b => { b with freeHead := p + 2, freeCount := wrap (b.freeCount + 1) }

/-- The next link of the first free slot is taken for a header: the word behind the link and the
one its d span leads to are zero, so that no neighbour is free. -/
theorem yields_misread {v : SlotView} (hr : v.block.buffer.record = 4) (hS : L.Sound v.block)
    (hV : v.Shows L) (hfree : L.free = p :: x :: Y) (hunit : v.block.unit ∣ p + 3)
    (hx : x = 0x8000 + d) (hpx : p < x) (hback : d < 0x8000)
    (hprev : d = 0 ∨ v.block.first + d ≤ p + 2 ∧ v.word (p + 2 - d) = 0)
    (hzero : v.word (p + 3) = 0) :
    Yields (deallocate (v.block.addressOf (p + 3)) 0) v () (misread p d v) := by
  have hp : p ∈ L.positions := hS.free_subset (by simp [hfree])
  have hxL : x ∈ L.positions := hS.free_subset (by simp [hfree])
  have hp0 := hS.spaced.pos p hp
  obtain ⟨P, hPL, hPp⟩ := List.mem_map.1 hp
  have hfirst : v.block.first ≤ p := hPp ▸ hS.first_le hPL
  have hfar : p + 4 ≤ x := (hS.spaced.apart p hp x hxL (by omega)).resolve_right (by omega)
  have hxr := hS.inRange_position hxL
  have hin : ∀ {q}, 0 < q → q ≤ p + 4 → v.block.InRange q := fun h0 hq =>
    ⟨h0, Nat.lt_of_le_of_lt (Nat.le_trans hq hfar) hxr.2.1,
      Nat.lt_of_le_of_lt (Nat.le_trans hq hfar) hxr.2.2⟩
  let current : SlotHeader := ⟨d, 1, .allocated⟩
  have hhead : Yields (header (p + 2)) v current v := by
    obtain ⟨-, -, hnext, -, -⟩ := SlotView.linked_split (X := []) (hfree ▸ hV.linked)
    have hword : (v.word (p + 2)).toNat = 0x8000 + d := by
      simpa [SlotView.next, Nat.ne_of_gt hp0, hx] using hnext
    refine yields_of_header ?_
    rintro h rfl
    exact header_of_link (hin (by omega) (by omega)) hword hback
  have hfit : p + 3 < v.block.capacity := (hin (by omega) (by omega)).2.1
  have hcheck : checkRelease (p + 2) 0 current v.block = .ok () := by
    have hfit : ¬ v.block.capacity < p + 2 + 1 := by omega
    simp [checkRelease, current, SlotHeader.isFree, hfit]
  let q := if d = 0 then 0 else p + 2 - d
  have hbefore : precedingOf (p + 2) current v.block = .ok q := by
    simp only [precedingOf, current, q]
    split_ifs with h0 hfit
    · rfl
    · rfl
    · obtain ⟨hfit', -⟩ := hprev.resolve_left h0
      omega
  have hfollow : v.block.following (p + 2) current = p + 3 := if_neg (Nat.not_le.2 hfit)
  have hfront : Yields (freeAt? q) v none v := by
    refine yields_of_apply ?_
    rintro h rfl
    simp only [q]
    split_ifs with h0
    · rfl
    · obtain ⟨hfit, hz⟩ := hprev.resolve_left h0
      have hfit : h.block.first + d ≤ p + 2 := hfit
      have hpos : 0 < h.block.first := Layout.Sound.first_pos _
      exact freeAt?_of_zero (hin (by omega) (by omega)) hz
  have hbehind : Yields (freeAt? (v.block.following (p + 2) current)) v none v := by
    rw [hfollow]
    refine yields_of_apply ?_
    rintro h rfl
    exact freeAt?_of_zero (hin (by omega) (by omega)) hzero
  have hheadFree : v.block.freeHead = p := by
    rw [hV.linked.head_eq, hfree]
    rfl
  refine yields_deallocate (slotOf_aligned hr (by omega) (hin (by omega) (by omega)).2.2 hunit)
    hhead hcheck hbefore hfront hbehind ?_
  let u := v.setBlock (·.discharged 1)
  have hinu : ∀ {q}, 0 < q → q ≤ p + 4 → u.block.InRange q := hin
  have hpush := yields_pushFront (v := u) (c := p + 2) (hinu (by omega) (by omega))
    (hinu (by omega) (by omega)) (hinu (by omega) (by omega))
    (fun _ => hheadFree.symm ▸ hinu (by omega) (by omega)) current
  exact hpush

end SlotStep

namespace SlotSession

/-- A point of a run at which the third payload word of some slots was never written. -/
structure Staged (b : SlotBlock) (s₀ : SlotSession) (L : Layout) (ps : List Nat)
    (s : SlotSession) : Prop where
  reached : Reached s₀ s
  traced : Traced b L s
  zero : ∀ p ∈ ps, p + 3 ∉ L.positions ∧ s.heap.word (p + 3) = 0

namespace Staged

variable {ps : List Nat} {s' : SlotSession}

theorem follow (hs : Staged b s₀ L ps s) (hreached : Reached s₀ s') (ht : Traced b L' s')
    (hr : SlotView.Rewrites L L' s.heap.view s'.heap.view) (hps : ∀ p ∈ ps, p ∈ L'.positions) :
    Staged b s₀ L' ps s' := by
  refine ⟨hreached, ht, fun p hp => ?_⟩
  have hp' := hps p hp
  have hspaced := ht.sound.spaced
  have hnot : p + 3 ∉ L'.positions := fun h =>
    hspaced.add_ne hp' h (i := 3) (j := 0) (by omega) (by omega) (by omega) rfl
  obtain ⟨hold, h0⟩ := hs.zero p hp
  refine ⟨hnot, ?_⟩
  rcases hr.written (p + 3) (.inl hold) with h | h | ⟨x, hx, hpx, -⟩
  · exact h.trans h0
  · exact absurd h hnot
  · have hxL := ht.sound.free_subset hx
    rcases hpx with h | h
    · exact absurd h (hspaced.add_ne hp' hxL (by omega) (by omega) (by omega))
    · exact absurd h (hspaced.add_ne hp' hxL (by omega) (by omega) (by omega))

section Allocate

variable (hs : Staged b s₀ L ps s) (hL : L.slots = A ++ F :: B) (hF : F.status = .free)
  (hfree : L.free = F.position :: Y) (hsize : n ≤ F.payloadBytes)
  (hmax : n ≤ b.maximumAllocationSize)
  (hr : r = remainderAfter b.unit F.position (neededWords n))

include hs hL hF hfree hsize hmax hr

theorem serve : ∃ K L', (F.stop ≤ r + 1 + minPayloadWords ∧ K = { F with status := .allocated } ∧
      L' = ⟨A ++ { F with status := .allocated } :: B, Y⟩ ∨
    r + 1 + minPayloadWords < F.stop ∧ K = F.front r ∧
      L' = ⟨A ++ F.front r :: F.rest r :: Slot.rebase (F.stop - r) B, r :: Y⟩) ∧
    ((∀ p ∈ ps, p ∈ L'.positions) → Staged b s₀ L' ps (s.allocate n)) ∧
    (s.allocate n).live = ⟨b.addressOf (K.position + 1), n⟩ :: s.live := by
  rcases hs.traced.allocate n with ⟨-, hnone⟩ | ⟨K, L', hserved, ht, hlive, hrw⟩
  · rcases hnone with h | h
    · exact absurd h (Nat.not_lt.2 hmax)
    · exact absurd (h F (by simp [hL]) hF) (Nat.not_lt.2 hsize)
  · exact ⟨K, L', hserved.at_head hs.traced.sound hL hfree hsize hr,
      hs.follow (hs.reached.allocate n) ht hrw, hlive⟩

theorem cut (hroom : r + 1 + minPayloadWords < F.stop)
    (hps : ∀ p ∈ ps, p ∈ Layout.positions
      ⟨A ++ F.front r :: F.rest r :: Slot.rebase (F.stop - r) B, r :: Y⟩) :
    Staged b s₀ ⟨A ++ F.front r :: F.rest r :: Slot.rebase (F.stop - r) B, r :: Y⟩ ps
        (s.allocate n) ∧
      (s.allocate n).live = ⟨b.addressOf (F.position + 1), n⟩ :: s.live := by
  obtain ⟨K, L', ⟨h, -⟩ | ⟨-, rfl, rfl⟩, hstaged, hlive⟩ := serve hs hL hF hfree hsize hmax hr
  · omega
  · exact ⟨hstaged hps, hlive⟩

theorem whole (hroom : F.stop ≤ r + 1 + minPayloadWords)
    (hps : ∀ p ∈ ps, p ∈ Layout.positions ⟨A ++ { F with status := .allocated } :: B, Y⟩) :
    Staged b s₀ ⟨A ++ { F with status := .allocated } :: B, Y⟩ ps (s.allocate n) ∧
      (s.allocate n).live = ⟨b.addressOf (F.position + 1), n⟩ :: s.live := by
  obtain ⟨K, L', ⟨-, rfl, rfl⟩ | ⟨h, -⟩, hstaged, hlive⟩ := serve hs hL hF hfree hsize hmax hr
  · exact ⟨hstaged hps, hlive⟩
  · omega

end Allocate

section Release

variable (hs : Staged b s₀ L ps s) (hg : g ∈ s.live) (hC : C.status = .allocated)
  (hgC : g.address = b.addressOf (C.position + 1))

include hs hg hC hgC

theorem free (hCL : C ∈ L.slots) : ∃ L', Freed C L L' ∧
    ((∀ p ∈ ps, p ∈ L'.positions) → Staged b s₀ L' ps (s.release g g.size)) ∧
    (s.release g g.size).live = s.live.erase g := by
  obtain ⟨D, hD, hDf, hgD, hsize⟩ := hs.traced.slot hg
  obtain rfl : D = C := hs.traced.sound.position_inj hD hCL (addressOf_inj (hgD.symm.trans hgC))
  rcases hs.traced.release hg hCL hC hgC g.size with ⟨h, -⟩ | ⟨L', hfreed, ht, hlive, hrw⟩
  · exact absurd h (Nat.not_lt.2 hsize)
  · exact ⟨L', hfreed, hs.follow (hs.reached.release hg g.size) ht hrw, hlive⟩

theorem alone (hL : L.slots = A ++ C :: B) (hA : ∀ P ∈ A.getLast?, P.status = .allocated)
    (hB : ∀ N ∈ B.head?, N.status = .allocated)
    (hps : ∀ p ∈ ps, p ∈ Layout.positions
      ⟨A ++ { C with status := .free } :: B, C.position :: L.free⟩) :
    Staged b s₀ ⟨A ++ { C with status := .free } :: B, C.position :: L.free⟩ ps
      (s.release g g.size) := by
  obtain ⟨L', hfreed, hstaged, -⟩ := free hs hg hC hgC (by simp [hL])
  obtain rfl := hfreed.between_taken hs.traced.sound hL hA hB
  exact hstaged hps

theorem next (hL : L.slots = A ++ C :: N :: B) (hfree : L.free = X ++ N.position :: Y)
    (hA : ∀ P ∈ A.getLast?, P.status = .allocated) (hN : N.status = .free)
    (hspan : C.span + N.span ≤ maxSpan)
    (hps : ∀ p ∈ ps, p ∈ Layout.positions
      ⟨A ++ { C with span := C.span + N.span, status := .free } ::
        Slot.rebase (C.span + N.span) B, X ++ C.position :: Y⟩) :
    Staged b s₀ ⟨A ++ { C with span := C.span + N.span, status := .free } ::
        Slot.rebase (C.span + N.span) B, X ++ C.position :: Y⟩ ps (s.release g g.size) ∧
      (s.release g g.size).live = s.live.erase g := by
  obtain ⟨L', hfreed, hstaged, hlive⟩ := free hs hg hC hgC (by simp [hL])
  obtain rfl := hfreed.before_free hs.traced.sound hL hfree hA hN hspan
  exact ⟨hstaged hps, hlive⟩

end Release

section Misread

variable (hs : Staged b s₀ L ps s) (hfree : L.free = p :: x :: Y) (hp : p ∈ ps)
  (hfirst : b.first = 1) (hunit : b.unit ∣ p + 3) (hx : x = 0x8000 + d) (hpx : p < x)
  (hlt : d < 0x8000) (hd : d = 0 ∨ d = 1 ∨ ∃ q ∈ ps, q + 3 + d = p + 2)

include hs hfree hp hfirst hunit hx hpx hlt hd

theorem accepts :
    ∃ h', SlotStep.deallocate (b.addressOf (p + 3)) 0 s.heap = (.ok (), h') := by
  have ht := hs.traced
  have hfirst' : s.heap.block.first = 1 := by
    rw [SlotBlock.first, ht.unit_eq, ← hfirst]
    rfl
  have hpL : p ∈ L.positions := ht.sound.free_subset (by simp [hfree])
  have hp0 := ht.sound.spaced.pos p hpL
  obtain ⟨-, hprevious, -, -, -⟩ := SlotView.linked_split (X := []) (hfree ▸ ht.keeps.shows.linked)
  have hprev : d = 0 ∨ s.heap.block.first + d ≤ p + 2 ∧ s.heap.word (p + 2 - d) = 0 := by
    rw [hfirst']
    rcases hd with h | rfl | ⟨q, hq, hqp⟩
    · exact .inl h
    · exact .inr ⟨by omega, UInt32.toNat_inj.1 hprevious⟩
    · rw [show p + 2 - d = q + 3 by omega]
      exact .inr ⟨by omega, (hs.zero q hq).2⟩
  have hmisread := SlotStep.yields_misread (v := s.heap.view) ht.record ht.keeps.sound
    ht.keeps.shows hfree (ht.unit_eq ▸ hunit) hx hpx hlt hprev (hs.zero p hp).2
  obtain ⟨h', hrun, -⟩ := hmisread.run s.heap rfl
  exact ⟨h', ht.like.addressOf (p + 3) ▸ hrun⟩

theorem misreads : ¬ s.Detects := by
  have ht := hs.traced
  have hS := ht.keeps.sound
  have hpL : p ∈ L.positions := hS.free_subset (by simp [hfree])
  have hxL : x ∈ L.positions := hS.free_subset (by simp [hfree])
  have hlen : p + 3 < s.heap.block.buffer.len := by
    have hbehind := (hS.spaced.apart p hpL x hxL (by omega)).resolve_right (by omega)
    have hend := (hS.inRange_position hxL).2.2
    omega
  have hbad : ∀ g ∈ s.live, g.address ≠ s.heap.block.addressOf (p + 3) := by
    intro g hg hgp
    obtain ⟨C, hC, -, hgC, -⟩ := ht.keeps.slot hg
    have hpos : C.position = p + 2 := addressOf_inj (hgC.symm.trans hgp)
    exact hS.spaced.add_ne (List.mem_map_of_mem hC) hpL (i := 0) (j := 2) (by omega) (by omega)
      (by omega) hpos
  intro hdetects
  obtain ⟨e, he⟩ := hdetects _ 0 (SlotStep.contains_addressOf ht.record hlen) hbad
  obtain ⟨h', hrun⟩ := accepts hs hfree hp hfirst hunit hx hpx hlt hd
  rw [← ht.like.addressOf] at hrun
  cases hrun.symm.trans he

end Misread

end Staged

end SlotSession

namespace SlotBlock

theorem freshLayout_two {n unit span : Nat} (hspan : maxAlignedSpan unit = span)
    (hfirst : SlotGeometry.first unit = 1) (h4 : 4 ≤ span) (hlen : span + 1 + 4 ≤ n) :
    ∃ width R, freshLayout n unit = ⟨⟨⟨0, span, .free⟩, 1⟩ ::
        ⟨⟨span, width, .free⟩, span + 1⟩ :: R, 1 :: (span + 1) :: R.map (·.position)⟩ ∧
      4 ≤ width ∧ (width = span ∨ span + 1 + width = n) := by
  refine ⟨min (span + 1 + span) n - (span + 1), fill n span (min (span + 1 + span) n)
    (min (span + 1 + span) n - (span + 1)), ?_, by omega, by omega⟩
  have hone : fill n span 1 0 = ⟨⟨0, span, .free⟩, 1⟩ :: fill n span (span + 1) span := by
    rw [fill_cons (show 3 + 1 ≤ n - 1 by omega) (by omega),
      show min (1 + span) n = span + 1 by omega, Nat.add_sub_cancel]
  rw [freshLayout, hspan, hfirst, hone,
    fill_cons (show 3 + 1 ≤ n - (span + 1) by omega) (by omega)]
  rfl

end SlotBlock

namespace SlotSession

variable {space space' : AddressSpace} {blockSize alignment : Nat}

theorem start_zero (hp : space.policy.Aligned) (hzero : space.Pristine)
    (hsmall : alignment < 131072)
    (hcreate : SlotBlock.create blockSize alignment space = (.ok b, space'))
    (hF : F ∈ (SlotBlock.freshLayout b.buffer.len b.unit).slots) {q : Nat}
    (hq : F.position + 2 < q ∧ q < F.stop) :
    q ∉ (SlotBlock.freshLayout b.buffer.len b.unit).positions ∧
      (start b space'.memory).heap.word q = 0 := by
  obtain ⟨hsited, -, -, hc, -⟩ := SlotBlock.create_carved (AddressSpace.aligned_of_policy hp) hsmall hcreate
  have hS := hc.sound
  have hnot := hS.notMem_positions hF (show F.Payload q from ⟨by omega, hq.2⟩)
  refine ⟨hnot, ?_⟩
  rcases hc.rewrites.written q (.inl List.not_mem_nil) with h | h | ⟨x, hx, hqx, -⟩
  · refine Eq.trans h (hzero.word_hold ?_)
    have hdvd := hsited.four_dvd_base
    have hstop := hS.stop_le hF
    have hlen := hS.inside (List.ne_nil_of_mem hF)
    simp only [SlotBlock.wordIndex, SlotBlock.blank, Region.stop] at hstop hlen ⊢
    omega
  · exact absurd h hnot
  · obtain ⟨G, hG, -, rfl⟩ := hS.mem_free.1 hx
    have hroom := hS.room hG
    obtain rfl := hS.eq_of_within hF hG ⟨by omega, hq.2⟩
      (show G.position ≤ q ∧ q < G.stop by omega)
    omega

/-- The two slots a long block starts with, and what its bound on sizes is. -/
theorem start_staged (hp : space.policy.Aligned) (hzero : space.Pristine)
    (hsmall : alignment < 131072)
    (hcreate : SlotBlock.create blockSize alignment space = (.ok b, space'))
    {span : Nat} (hspan : maxAlignedSpan b.unit = span) (hlong : b.LongLinks)
    (hcap : span + 5 ≤ b.capacity) (h9 : 9 ≤ span) :
    b.first = 1 ∧ b.maximumAllocationSize = (span - 1) * 4 ∧ b.capacity ≤ b.buffer.len ∧
      ∃ width R, 4 ≤ width ∧ (width = span ∨ span + 1 + width = b.buffer.len) ∧
      Staged b (start b space'.memory)
        ⟨⟨⟨0, span, .free⟩, 1⟩ :: ⟨⟨span, width, .free⟩, span + 1⟩ :: R,
          1 :: (span + 1) :: R.map (·.position)⟩ [1, 5] (start b space'.memory) := by
  have ht := start_traced hp hzero hsmall hcreate
  obtain ⟨-, hal, -, hc, -⟩ := SlotBlock.create_carved (AddressSpace.aligned_of_policy hp) hsmall hcreate
  have hunit := hlong.1
  have hfirst : b.first = 1 := by
    simp only [SlotBlock.first, SlotGeometry.first]
    omega
  have hne : (SlotBlock.freshLayout b.buffer.len b.unit).slots ≠ [] := fun hnil => by
    have htiled := hc.sound.tiled
    rw [hnil] at htiled
    have hcapacity : b.first = b.capacity := htiled
    omega
  have hlen : b.capacity ≤ b.buffer.len := hc.sound.inside hne
  obtain ⟨width, R, hfresh, hwidth, hrest⟩ := SlotBlock.freshLayout_two (n := b.buffer.len) hspan
    (by rw [← hfirst]; rfl) (by omega) (by omega)
  refine ⟨hfirst, ?_, hlen, width, R, hwidth, hrest, .start, hfresh ▸ ht, ?_⟩
  · rw [SlotBlock.create_maximum (AddressSpace.aligned_of_policy hp) hsmall hcreate, hspan, hfirst]
    omega
  · have hF : (⟨⟨0, span, .free⟩, 1⟩ : Slot) ∈
        (SlotBlock.freshLayout b.buffer.len b.unit).slots := by simp [hfresh]
    intro p hmem
    rw [← hfresh]
    refine start_zero hp hzero hsmall hcreate hF ?_
    simp only [List.mem_cons, List.not_mem_nil, or_false] at hmem
    simp only [Slot.stop]
    omega

section Runs

variable {width : Nat} {R : List Slot}

/-- Payloads lie on any word: the link is read in the slot just cut. -/
theorem misreads_words (hs : Staged b s₀ ⟨⟨⟨0, 32767, .free⟩, 1⟩ ::
      ⟨⟨32767, width, .free⟩, 32768⟩ :: R, 1 :: 32768 :: Y⟩ [1, 5] s₀)
    (hu : b.unit = 1) (hfirst : b.first = 1) (hmax : b.maximumAllocationSize = 32766 * 4) :
    ∃ s, Reached s₀ s ∧ ¬ s.Detects := by
  have hs₁ : Staged b s₀ ⟨⟨⟨0, 4, .allocated⟩, 1⟩ :: ⟨⟨4, 32763, .free⟩, 5⟩ ::
      ⟨⟨32763, width, .free⟩, 32768⟩ :: R, 5 :: 32768 :: Y⟩ [1, 5]
      (s₀.allocate 12) :=
    (hs.cut (A := []) (n := 12) (r := 5) rfl rfl rfl (by decide) (by omega) (by rw [hu]; rfl) (by decide)
      (by simp [Layout.positions, Slot.front, Slot.rest])).1
  exact ⟨_, hs₁.reached, hs₁.misreads (d := 0) rfl (by simp) hfirst (by rw [hu]; decide) rfl
    (by decide) (by decide) (.inl rfl)⟩

/-- Payloads lie on every second word and the second slot can be cut. -/
theorem misreads_pairs (hs : Staged b s₀ ⟨⟨⟨0, 32766, .free⟩, 1⟩ ::
      ⟨⟨32766, width, .free⟩, 32767⟩ :: R, 1 :: 32767 :: Y⟩ [1, 5] s₀)
    (hu : b.unit = 2) (hfirst : b.first = 1) (hmax : b.maximumAllocationSize = 32765 * 4)
    (hwidth : 8 < width) : ∃ s, Reached s₀ s ∧ ¬ s.Detects := by
  have hs₁ : Staged b s₀ ⟨⟨⟨0, 4, .allocated⟩, 1⟩ :: ⟨⟨4, 32762, .free⟩, 5⟩ ::
      ⟨⟨32762, width, .free⟩, 32767⟩ :: R, 5 :: 32767 :: Y⟩ [1, 5]
      (s₀.allocate 12) :=
    (hs.cut (A := []) (n := 12) (r := 5) rfl rfl rfl (by decide) (by omega) (by rw [hu]; rfl) (by decide)
      (by simp [Layout.positions, Slot.front, Slot.rest])).1
  obtain ⟨hs₂, hlive⟩ := hs₁.whole (A := [_]) (n := 131044) rfl rfl rfl (by decide) (by omega)
    (by rw [hu]) (by decide) (by simp [Layout.positions])
  have hg : ⟨b.addressOf 6, 131044⟩ ∈ ((s₀.allocate 12).allocate 131044).live := by simp [hlive]
  obtain ⟨hs₃, hlive₃⟩ := hs₂.cut (A := [_, _]) (n := 12) (r := 32771) rfl rfl rfl
    (show 12 ≤ (width - 1) * 4 by omega) (by omega)
    (hu ▸ show 32771 = remainderAfter 2 32767 3 by decide) (show 32775 < 32767 + width by omega)
    (by simp [Layout.positions])
  obtain ⟨K, T, hK, hs₃⟩ : ∃ (K : Slot) (T : List Slot), K.status = .allocated ∧
      Staged b s₀ ⟨⟨⟨0, 4, .allocated⟩, 1⟩ :: ⟨⟨4, 32762, .allocated⟩, 5⟩ :: K :: T, 32771 :: Y⟩ [1, 5]
      (((s₀.allocate 12).allocate 131044).allocate 12) := ⟨_, _, rfl, hs₃⟩
  have hg₃ : ⟨b.addressOf 6, 131044⟩ ∈
      (((s₀.allocate 12).allocate 131044).allocate 12).live := by simp [hlive₃, hlive]
  have hs₄ := hs₃.alone (A := [_]) (C := ⟨⟨4, 32762, .allocated⟩, 5⟩) hg₃ rfl rfl rfl (by simp)
    (by simpa using hK) (by simp [Layout.positions])
  exact ⟨_, hs₄.reached, hs₄.misreads (d := 3) rfl (by simp) hfirst (by rw [hu]; decide) rfl
    (by decide) (by decide) (.inr (.inr ⟨1, by simp, rfl⟩))⟩

/-- The second slot is too short to be cut: it is joined to the first and cut elsewhere. -/
theorem misreads_joined (hs : Staged b s₀ ⟨⟨⟨0, 32766, .free⟩, 1⟩ ::
      ⟨⟨32766, 7, .free⟩, 32767⟩ :: R, 1 :: 32767 :: Y⟩ [1] s₀)
    (hu : b.unit = 2) (hfirst : b.first = 1) (hmax : b.maximumAllocationSize = 32765 * 4) :
    ∃ s, Reached s₀ s ∧ ¬ s.Detects := by
  obtain ⟨hs₁, hlive₁⟩ := hs.cut (A := []) (n := 20) (r := 7) rfl rfl rfl (by decide)
    (by omega) (by rw [hu]; rfl) (by decide) (by simp [Layout.positions, Slot.front])
  have hg : ⟨b.addressOf 2, 20⟩ ∈ (s₀.allocate 20).live := by simp [hlive₁]
  have hs₁ : Staged b s₀ ⟨⟨⟨0, 6, .allocated⟩, 1⟩ :: ⟨⟨6, 32760, .free⟩, 7⟩ ::
      ⟨⟨32760, 7, .free⟩, 32767⟩ :: R, 7 :: 32767 :: Y⟩ [1]
      (s₀.allocate 20) := hs₁
  obtain ⟨hs₂, hlive₂⟩ := hs₁.whole (A := [_]) (n := 131036) rfl rfl rfl (by decide)
    (by omega) (by rw [hu]) (by decide) (by simp [Layout.positions])
  have hk : ⟨b.addressOf 8, 131036⟩ ∈ ((s₀.allocate 20).allocate 131036).live := by simp [hlive₂]
  obtain ⟨hs₃, hlive₃⟩ := hs₂.next (A := [_]) (X := []) hk rfl rfl rfl rfl (by simp) rfl
    (by decide) (by simp [Layout.positions])
  have hg₃ : ⟨b.addressOf 2, 20⟩ ∈ (((s₀.allocate 20).allocate 131036).release
      ⟨b.addressOf 8, 131036⟩ 131036).live := by
    rw [hlive₃, hlive₂]
    exact (List.mem_erase_of_ne (by simp)).2 (List.mem_cons_of_mem _ hg)
  obtain ⟨hs₄, hlive₄⟩ := hs₃.cut (A := [_]) (n := 131044) (r := 32769) rfl rfl rfl
    (by decide) (by omega) (by rw [hu]; rfl) (by decide) (by simp [Layout.positions])
  have hg₄ : ⟨b.addressOf 2, 20⟩ ∈ ((((s₀.allocate 20).allocate 131036).release
      ⟨b.addressOf 8, 131036⟩ 131036).allocate 131044).live := by
    rw [hlive₄]
    exact List.mem_cons_of_mem _ hg₃
  have hs₅ := hs₄.alone (A := []) (C := ⟨⟨0, 6, .allocated⟩, 1⟩) hg₄ rfl rfl rfl (by simp)
    (by simp [Slot.front]) (by simp [Layout.positions])
  exact ⟨_, hs₅.reached, hs₅.misreads (d := 1) rfl (by simp) hfirst (by rw [hu]; decide) rfl
    (by decide) (by decide) (.inr (.inl rfl))⟩

end Runs

/-- In a long block some run ends where a pointer that is not live is taken. -/
theorem exists_misread (hp : space.policy.Aligned) (hzero : space.Pristine)
    (hsmall : alignment < 131072)
    (hcreate : SlotBlock.create blockSize alignment space = (.ok b, space'))
    (hlong : b.LongLinks) : ∃ s, Reached (start b space'.memory) s ∧ ¬ s.Detects := by
  obtain ⟨hunit, hcap⟩ := hlong
  have hcap : 32767 + b.unit + 4 ≤ b.capacity := hcap
  rcases (show b.unit = 1 ∨ b.unit = 2 by have hone := unit_pos b; omega) with hu | hu
  · obtain ⟨hfirst, hmax, -, width, R, -, -, hs⟩ := start_staged hp hzero hsmall hcreate
      (show maxAlignedSpan b.unit = 32767 by rw [hu]; rfl) ⟨hunit, hcap⟩ (by omega) (by decide)
    exact misreads_words hs hu hfirst hmax
  · obtain ⟨hfirst, hmax, hlen, width, R, -, hrest, hs⟩ := start_staged hp hzero hsmall hcreate
      (show maxAlignedSpan b.unit = 32766 by rw [hu]; rfl) ⟨hunit, hcap⟩ (by omega) (by decide)
    obtain ⟨hsited, hal, hround, -⟩ :=
      SlotBlock.create_carved (AddressSpace.aligned_of_policy hp) hsmall hcreate
    have height : max alignment 4 = 8 := by
      rw [← hal, hsited.alignment_eq, hu]
    rw [height] at hround
    have hdvd : 8 ∣ wrap (roundUp blockSize 8) :=
      dvd_wrap (isPowerOfTwo_iff.2 ⟨3, rfl⟩) (dvd_roundUp ..)
    by_cases hwidth : 8 < width
    · exact misreads_pairs hs hu hfirst hmax hwidth
    · obtain rfl : width = 7 := by omega
      exact misreads_joined ⟨hs.reached, hs.traced, fun p hp => hs.zero p (by simp_all)⟩ hu hfirst
        hmax

/-- Bad releases are detected after every run exactly where no link can be taken for a header. -/
theorem badFrees_detected_iff (hp : space.policy.Aligned) (hzero : space.Pristine)
    (hsmall : alignment < 131072)
    (hcreate : SlotBlock.create blockSize alignment space = (.ok b, space')) :
    (∀ s, Reached (start b space'.memory) s → s.Detects) ↔ ¬ b.LongLinks := by
  constructor
  · intro hdetects hlong
    obtain ⟨s, hs, hmissed⟩ := exists_misread hp hzero hsmall hcreate hlong
    exact hmissed (hdetects s hs)
  · intro hshort s hs
    obtain ⟨L, hL⟩ := (start_traced hp hzero hsmall hcreate).reached hs
    exact hL.detects hshort

theorem badFrees_detected_small : ∃ b space',
    SlotBlock.create 64 4 (.new (.sideBySide false 16 0x100000000)) = (.ok b, space') ∧
      ((∀ s, Reached (start b space'.memory) s → s.Detects) ↔ ¬ b.LongLinks) := by
  obtain ⟨b, space', hcreate⟩ := Obtain.exists_of_isOk
    (x := SlotBlock.create 64 4) (s := .new (.sideBySide false 16 0x100000000)) (by decide +kernel)
  exact ⟨b, space', hcreate, badFrees_detected_iff
    (Policy.sideBySide_aligned (isPowerOfTwo_iff.2 ⟨4, rfl⟩) false 0x100000000)
    (AddressSpace.new_pristine _) (by decide) hcreate⟩

/-- In a block of the default size one allocation is live, at word 2, and a release of word 8 is
taken. -/
theorem badFree_taken : ∃ b space' h',
    SlotBlock.create 1048576 4 (.new (.sideBySide false 16 0x100000000)) = (.ok b, space') ∧
      ((start b space'.memory).allocate 12).live = [⟨b.addressOf 2, 12⟩] ∧
      b.buffer.contains (b.addressOf 8) = true ∧
      SlotStep.deallocate (b.addressOf 8) 0 ((start b space'.memory).allocate 12).heap =
        (.ok (), h') := by
  obtain ⟨b, space', hcreate, hb⟩ := Obtain.exists_of_any
    (x := SlotBlock.create 1048576 4) (s := .new (.sideBySide false 16 0x100000000))
    (p := fun b => b.unit == 1 && b.capacity == 262144) (by decide +kernel)
  simp only [Bool.and_eq_true, beq_iff_eq] at hb
  obtain ⟨hu, hcap⟩ := hb
  have hp := Policy.sideBySide_aligned (isPowerOfTwo_iff.2 ⟨4, rfl⟩) false 0x100000000
  have hzero := AddressSpace.new_pristine (.sideBySide false 16 0x100000000)
  obtain ⟨hfirst, hmax, hlen, width, R, -, -, hs⟩ := start_staged hp hzero (by decide) hcreate
    (show maxAlignedSpan b.unit = 32767 by rw [hu]; rfl) ⟨by omega, by rw [hu, hcap]; decide⟩
    (by omega) (by decide)
  obtain ⟨hs₁, hlive⟩ := hs.cut (A := []) (n := 12) (r := 5) rfl rfl rfl (by decide) (by omega)
    (by rw [hu]; rfl) (by decide) (by simp [Layout.positions, Slot.front, Slot.rest])
  obtain ⟨h', hrun⟩ := hs₁.accepts (d := 0) rfl (by simp) hfirst (by rw [hu]; decide) rfl
    (by decide) (by decide) (.inl rfl)
  exact ⟨b, space', h', hcreate, hlive, SlotStep.contains_addressOf hs.traced.sited.record
    (by omega), hrun⟩

end SlotSession

end AffinityHeap
