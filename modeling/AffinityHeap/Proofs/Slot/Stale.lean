import AffinityHeap.Proofs.Slot.Session

namespace AffinityHeap

namespace SlotBlock

/-- Where a slot may keep or may have kept a link, and to what. -/
structure MayLink (b : SlotBlock) (q x : Nat) : Prop where
  source : b.unit ∣ q ∨ b.unit ∣ q - 1
  target : b.unit ∣ x + 1
  room : x + minSlotSpan ≤ b.capacity

/-- A slot may lie so far behind that a link to it reads as a header with a span, and a word that
holds such a link may stand in front of an aligned address. -/
def LongLinks (b : SlotBlock) : Prop :=
  b.unit ≤ 2 ∧ maxSpan + b.unit + minSlotSpan ≤ b.capacity

instance (b : SlotBlock) : Decidable b.LongLinks := inferInstanceAs (Decidable (_ ∧ _))

theorem MayLink.short {b : SlotBlock} {q x : Nat} (h : b.MayLink q x) (hb : ¬ b.LongLinks)
    (hq0 : 0 < q) (hq : b.unit ∣ q + 1) : x < 0x8000 := by
  have hpos : 0 < b.unit := unit_pos b
  have hunit : b.unit ∣ 2 := by
    rcases h.source with hs | hs
    · exact Nat.dvd_trans ((Nat.dvd_add_right hs).1 hq) (by decide)
    · refine (Nat.dvd_add_right hs).1 ?_
      rwa [show q - 1 + 2 = q + 1 by omega]
  have hle : b.unit ≤ 2 := Nat.le_of_dvd (by decide) hunit
  have hroom : x + 4 ≤ b.capacity := h.room
  have hcap : ¬ 32767 + b.unit + 4 ≤ b.capacity := fun hcap => hb ⟨hle, hcap⟩
  rcases (show b.unit = 1 ∨ b.unit = 2 by omega) with hu | hu
  · omega
  · have htarget := h.target
    rw [hu] at htarget hcap
    omega

end SlotBlock

namespace SlotView

variable {b : SlotBlock} {L L' : Layout} {v v' : SlotView}

/-- A word that is no header is zero or a link, some of them left behind. -/
def Stale (b : SlotBlock) (L : Layout) (v : SlotView) : Prop :=
  ∀ q < b.buffer.len, q ∉ L.positions →
    (v.word q).toNat = 0 ∨ b.MayLink q (v.word q).toNat

theorem Rewrites.stale (hr : Rewrites L L' v v') (hS : L'.Sound b) (hs : v.Stale b L) :
    v'.Stale b L' := by
  intro q hq hnew
  by_cases hold : q ∈ L.positions
  · rw [hr.cleared q hold hnew]
    exact .inl rfl
  rcases hr.written q (.inl hold) with h | h | ⟨x, hx, hqx, hnode⟩
  · rw [h]
    exact hs q hq hold
  · exact absurd h hnew
  · refine hnode.imp_right fun hz => ?_
    obtain ⟨s, hsL, -, hsx⟩ := hS.mem_free.1 hx
    obtain ⟨t, htL, -, htz⟩ := hS.mem_free.1 hz
    have hsource := (hS.each s hsL).aligned
    have hroom := hS.room htL
    have hstop := hS.stop_le htL
    rw [hsx] at hsource
    refine ⟨?_, htz ▸ (hS.each t htL).aligned, ?_⟩
    · rcases hqx with rfl | rfl
      · exact .inl hsource
      · exact .inr hsource
    · show _ + 4 ≤ _
      omega

/-- Before there are slots all is zero, and what is written then is headers and links. -/
theorem Rewrites.stale_of_zero (hr : Rewrites ⟨[], []⟩ L v v') (hS : L.Sound b)
    (hzero : ∀ q < b.buffer.len, v.word q = 0) : v'.Stale b L :=
  hr.stale hS fun q hq _ => .inl (congrArg UInt32.toNat (hzero q hq))

end SlotView

namespace SlotStep

variable {h : SlotHeap} {L : Layout} {live : List Grant} {address size c : Nat}

/-- A release that fails a check of the header changes nothing. -/
theorem deallocate_rejects (hcheck : ∀ c current, slotOf address h.block = .ok c →
      h.header c = .ok current → ∃ e, checkRelease c size current h.block = .error e) :
    ∃ e, deallocate address size h = (.error e, h) := by
  cases hslot : slotOf address h.block with
  | error e => exact ⟨e, by rw [deallocate, ask_bind, answer_bind, hslot]⟩
  | ok c =>
      cases hhead : h.header c with
      | error e =>
          refine ⟨e, ?_⟩
          rw [deallocate, ask_bind, answer_bind, hslot]
          exact (header_bind ..).trans (by rw [hhead])
      | ok current =>
          obtain ⟨e, he⟩ := hcheck c current hslot hhead
          refine ⟨e, ?_⟩
          rw [deallocate, ask_bind, answer_bind, hslot]
          refine (header_bind ..).trans ?_
          rw [hhead]
          exact (answer_bind ..).trans (by rw [he])

theorem slotOf_ok {b : SlotBlock} (hslot : slotOf address b = .ok c) :
    address = b.addressOf (c + 1) ∧ b.first ≤ c ∧ b.unit ∣ c + 1 := by
  simp only [slotOf, Buffer.offsetOf?] at hslot
  by_cases hcontains : b.buffer.contains address = true
  · rw [if_pos hcontains] at hslot
    simp only at hslot
    split at hslot
    · cases hslot
    · rename_i hcond
      simp only [not_or, not_not, Nat.not_le] at hcond
      obtain ⟨hfour, hfirst, hunit⟩ := hcond
      obtain rfl := Except.ok.inj hslot
      simp only [Buffer.contains, Bool.and_eq_true, decide_eq_true_eq] at hcontains
      have hsucc : (address - b.buffer.base) / 4 - 1 + 1 = (address - b.buffer.base) / 4 := by omega
      refine ⟨?_, by omega, ?_⟩
      · rw [SlotBlock.addressOf, hsucc]
        omega
      · rw [hsucc]
        exact Nat.dvd_of_mod_eq_zero hunit
  · rw [if_neg hcontains] at hslot
    cases hslot

theorem deallocate_oversize {C : Slot} (hk : h.Keeps L live) (hr : h.block.buffer.record = 4)
    (hC : C ∈ L.slots) (hf : C.status = .allocated) (hsize : C.payloadBytes < size) :
    ∃ e, deallocate (h.block.addressOf (C.position + 1)) size h = (.error e, h) := by
  refine deallocate_rejects fun c current hslot hhead => ?_
  obtain rfl := Except.ok.inj (hslot.symm.trans (slotOf_addressOf hr hk.sound hC))
  obtain rfl := Except.ok.inj (hhead.symm.trans (header_eq hk.sound hC (hk.shows.headed C hC)))
  have hspan : C.span ≠ 0 := Nat.ne_of_gt (hk.sound.span_pos C hC)
  rw [checkRelease, if_neg hspan, SlotHeader.isFree_eq_false_iff.2 hf, if_neg Bool.false_ne_true]
  exact ⟨_, if_pos hsize⟩

/-- No pointer but that of a live allocation passes the checks of a release. -/
theorem checkRelease_rejects {current : SlotHeader} (hk : h.Keeps L live)
    (hs : h.view.Stale h.block L) (hshort : ¬ h.block.LongLinks)
    (hbad : ∀ g ∈ live, g.address ≠ address) (hslot : slotOf address h.block = .ok c)
    (hhead : h.header c = .ok current) :
    ∃ e, checkRelease c size current h.block = .error e := by
  obtain ⟨haddr, hfirst, hunit⟩ := slotOf_ok hslot
  obtain ⟨hin, hdecode⟩ := header_ok hhead
  by_cases hc : c ∈ L.positions
  · obtain ⟨s, hsL, rfl⟩ := List.mem_map.1 hc
    have hcurrent : current = s.toSlotHeader :=
      Except.ok.inj (hhead.symm.trans (header_eq hk.sound hsL (hk.shows.headed s hsL)))
    have hspan : current.span ≠ 0 := by
      rw [hcurrent]
      exact Nat.ne_of_gt (hk.sound.span_pos s hsL)
    rw [checkRelease, if_neg hspan]
    cases hst : s.status with
    | free =>
        have hfree : current.isFree = true := by
          rw [hcurrent]
          exact SlotHeader.isFree_iff.2 hst
        exact ⟨_, if_pos hfree⟩
    | allocated =>
        have hheld : (s.position, s.span) ∈ holdings L.slots := mem_holdings.2 ⟨s, hsL, hst, rfl, rfl⟩
        have hmem := hk.granted.addresses.mem_iff.2 (List.mem_map_of_mem hheld)
        obtain ⟨g, hg, hgs⟩ := List.mem_map.1 hmem
        exact absurd (hgs.trans haddr.symm) (hbad g hg)
  · have hlt : (h.word c).toNat < 0x8000 := by
      rcases hs c hin.2.2 hc with h0 | hlink
      · have h0 : (h.word c).toNat = 0 := h0
        omega
      · exact hlink.short hshort hin.1 hunit
    rw [SlotHeader.decode_of_lt hlt] at hdecode
    obtain rfl := Except.ok.inj hdecode
    exact ⟨_, if_pos rfl⟩

end SlotStep

namespace SlotSession

def allocate (s : SlotSession) (size : Nat) : SlotSession :=
  match SlotStep.allocate size s.heap with
  | (.ok (some address), heap) => ⟨heap, ⟨address, size⟩ :: s.live⟩
  | (_, heap) => { s with heap }

def release (s : SlotSession) (g : Grant) (size : Nat) : SlotSession :=
  match SlotStep.deallocate g.address size s.heap with
  | (.ok (), heap) => ⟨heap, s.live.erase g⟩
  | (.error _, heap) => { s with heap }

/-- What allocations and releases of live pointers lead to, no client writing to memory. -/
inductive Reached (s₀ : SlotSession) : SlotSession → Prop
  | start : Reached s₀ s₀
  | allocate {s : SlotSession} (hs : Reached s₀ s) (size : Nat) : Reached s₀ (s.allocate size)
  | release {s : SlotSession} (hs : Reached s₀ s) {g : Grant} (hg : g ∈ s.live) (size : Nat) :
      Reached s₀ (s.release g size)

/-- A release of a pointer into the buffer that is not live is an error and changes nothing. -/
def Detects (s : SlotSession) : Prop :=
  ∀ address size, s.heap.block.buffer.contains address = true →
    (∀ g ∈ s.live, g.address ≠ address) →
    ∃ e, SlotStep.deallocate address size s.heap = (.error e, s.heap)

structure Traced (b : SlotBlock) (L : Layout) (s : SlotSession) : Prop where
  sited : b.Sited
  like : b.Like s.heap.block
  keeps : s.heap.Keeps L s.live
  stale : s.heap.view.Stale b L

namespace Traced

variable {b : SlotBlock} {L L' : Layout} {s : SlotSession} {g : Grant}

theorem sound (ht : Traced b L s) : L.Sound b :=
  SlotBlock.Like.sound ⟨ht.like.buffer.symm, ht.like.alignment.symm, ht.like.capacity.symm,
    ht.like.maximum.symm⟩ ht.keeps.sound

theorem unit_eq (ht : Traced b L s) : s.heap.block.unit = b.unit := by
  rw [SlotBlock.unit, SlotBlock.unit, ht.like.alignment]

theorem record (ht : Traced b L s) : s.heap.block.buffer.record = 4 :=
  (ht.like.sited ht.sited).record

theorem allocate (ht : Traced b L s) (size : Nat) :
    Traced b L (s.allocate size) ∧
        (b.maximumAllocationSize < size ∨
          ∀ F ∈ L.slots, F.status = .free → F.payloadBytes < size) ∨
      ∃ K L', Served b.unit size L K L' ∧ Traced b L' (s.allocate size) ∧
        (s.allocate size).live = ⟨b.addressOf (K.position + 1), size⟩ :: s.live ∧
        SlotView.Rewrites L L' s.heap.view (s.allocate size).heap.view := by
  rcases ht.keeps.allocate size with ⟨h', hrun, hview, -, hnone⟩ |
    ⟨K, L', h', hserved, hrun, hkeeps, -, hlike, hrw⟩
  · have hs : s.allocate size = ⟨h', s.live⟩ := by rw [SlotSession.allocate, hrun]
    have hblock : h'.block = s.heap.block := congrArg SlotView.block hview
    rw [hs]
    refine .inl ⟨⟨ht.sited, hblock ▸ ht.like, ?_, ?_⟩, ht.like.maximum ▸ hnone⟩
    · exact ht.keeps.of_word hblock fun q _ _ => congrFun (congrArg SlotView.word hview) q
    · show h'.view.Stale b L
      rw [hview]
      exact ht.stale
  · have hs : s.allocate size = ⟨h', ⟨b.addressOf (K.position + 1), size⟩ :: s.live⟩ := by
      rw [SlotSession.allocate, hrun, ← ht.like.addressOf]
    rw [ht.unit_eq] at hserved
    rw [ht.like.addressOf] at hkeeps
    rw [hs]
    exact .inr ⟨K, L', hserved, ⟨ht.sited, ht.like.trans hlike, hkeeps,
      hrw.stale (hserved.sound ht.sound) ht.stale⟩, rfl, hrw⟩

theorem slot (ht : Traced b L s) (hg : g ∈ s.live) : ∃ C ∈ L.slots, C.status = .allocated ∧
    g.address = b.addressOf (C.position + 1) ∧ g.size ≤ C.payloadBytes := by
  obtain ⟨C, hC, hf, hgC, hsize⟩ := ht.keeps.slot hg
  exact ⟨C, hC, hf, (ht.like.addressOf _) ▸ hgC, hsize⟩

theorem release (ht : Traced b L s) (hg : g ∈ s.live) {C : Slot} (hC : C ∈ L.slots)
    (hf : C.status = .allocated) (hgC : g.address = b.addressOf (C.position + 1)) (size : Nat) :
    C.payloadBytes < size ∧ s.release g size = s ∨
      ∃ L', Freed C L L' ∧ Traced b L' (s.release g size) ∧
        (s.release g size).live = s.live.erase g ∧
        SlotView.Rewrites L L' s.heap.view (s.release g size).heap.view := by
  rw [← ht.like.addressOf] at hgC
  by_cases hsize : size ≤ C.payloadBytes
  · obtain ⟨L', h', hfreed, hrun, hkeeps, -, hlike, hrw⟩ :=
      ht.keeps.release_slot ht.record hg hC hf hgC hsize
    have hs : s.release g size = ⟨h', s.live.erase g⟩ := by rw [SlotSession.release, hrun]
    rw [hs]
    exact .inr ⟨L', hfreed, ⟨ht.sited, ht.like.trans hlike, hkeeps,
      hrw.stale (hfreed.sound ht.sound hf) ht.stale⟩, rfl, hrw⟩
  · have hlt := Nat.lt_of_not_le hsize
    obtain ⟨e, he⟩ := SlotStep.deallocate_oversize ht.keeps ht.record hC hf hlt
    rw [SlotSession.release, hgC, he]
    exact .inl ⟨hlt, rfl⟩

theorem detects (ht : Traced b L s) (hb : ¬ b.LongLinks) : s.Detects := by
  intro address size _ hbad
  have hunit := ht.unit_eq
  have hcap := ht.like.capacity
  refine SlotStep.deallocate_rejects fun c current hslot hhead => ?_
  refine SlotStep.checkRelease_rejects ht.keeps (fun q hq hnot => ?_) ?_ hbad hslot hhead
  · rw [ht.like.buffer] at hq
    refine (ht.stale q hq hnot).imp_right fun hlink => ?_
    exact ⟨hunit ▸ hlink.source, hunit ▸ hlink.target, hcap ▸ hlink.room⟩
  · rwa [SlotBlock.LongLinks, hunit, hcap]

theorem reached {s₀ : SlotSession} (ht : Traced b L s₀) (hs : Reached s₀ s) :
    ∃ L', Traced b L' s := by
  induction hs with
  | start => exact ⟨L, ht⟩
  | allocate _ size ih =>
      obtain ⟨M, hM⟩ := ih
      rcases hM.allocate size with ⟨hM', -⟩ | ⟨_, L', -, hM', -⟩
      · exact ⟨M, hM'⟩
      · exact ⟨L', hM'⟩
  | release _ hg size ih =>
      obtain ⟨M, hM⟩ := ih
      obtain ⟨C, hC, hf, hgC, -⟩ := hM.slot hg
      rcases hM.release hg hC hf hgC size with ⟨-, hsame⟩ | ⟨L', -, hM', -⟩
      · rw [hsame]
        exact ⟨M, hM⟩
      · exact ⟨L', hM'⟩

end Traced

theorem start_traced {b : SlotBlock} {space space' : AddressSpace} {blockSize alignment : Nat}
    (hp : space.policy.Aligned) (hzero : space.Pristine) (hsmall : alignment < 131072)
    (hcreate : SlotBlock.create blockSize alignment space = (.ok b, space')) :
    Traced b (SlotBlock.freshLayout b.buffer.len b.unit) (start b space'.memory) := by
  obtain ⟨hsited, -, hkeeps⟩ := SlotBlock.create_keeps (AddressSpace.aligned_of_policy hp) hsmall hcreate
  obtain ⟨-, -, -, hc, -⟩ := SlotBlock.create_carved (AddressSpace.aligned_of_policy hp) hsmall hcreate
  refine ⟨hsited, .refl b, hkeeps, hc.rewrites.stale_of_zero hkeeps.sound fun q hq => ?_⟩
  have hdvd := hsited.four_dvd_base
  refine hzero.word_hold ?_
  simp only [SlotBlock.wordIndex, SlotBlock.blank, Region.stop]
  omega

end SlotSession

end AffinityHeap
