import AffinityHeap.Proofs.Memory
import AffinityHeap.Proofs.Slot.Allocate
import AffinityHeap.Proofs.Slot.Carve
import AffinityHeap.Proofs.Slot.Release

namespace AffinityHeap

/-- The live grants of a block are those of its allocated slots. -/
structure Granted (b : SlotBlock) (held : List (Nat × Nat)) (live : List Grant) : Prop where
  addresses : (live.map (·.address)).Perm (held.map fun h => b.addressOf (h.1 + 1))
  fits : ∀ g ∈ live, ∀ h ∈ held, g.address = b.addressOf (h.1 + 1) → g.size ≤ (h.2 - 1) * 4

/-- What no step of a block changes. -/
structure SlotBlock.Like (b b' : SlotBlock) : Prop where
  buffer : b'.buffer = b.buffer
  alignment : b'.alignment = b.alignment
  capacity : b'.capacity = b.capacity
  maximum : b'.maximumAllocationSize = b.maximumAllocationSize

namespace SlotHeap

structure Keeps (h : SlotHeap) (L : Layout) (live : List Grant) : Prop where
  sound : L.Sound h.block
  shows : h.view.Shows L
  granted : Granted h.block (holdings L.slots) live
  allocations : h.block.allocations = (holdings L.slots).length
  reserved : h.block.reserved = sumOf ((holdings L.slots).map (·.2))

end SlotHeap

variable {b b' : SlotBlock} {L L' : Layout} {live : List Grant} {g : Grant} {h h' : SlotHeap}
  {size : Nat}

namespace SlotBlock.Like

theorem refl (b : SlotBlock) : b.Like b := ⟨rfl, rfl, rfl, rfl⟩

theorem symm (hb : b.Like b') : b'.Like b :=
  ⟨hb.buffer.symm, hb.alignment.symm, hb.capacity.symm, hb.maximum.symm⟩

theorem trans {c : SlotBlock} (hb : b.Like b') (hc : b'.Like c) : b.Like c :=
  ⟨hc.buffer.trans hb.buffer, hc.alignment.trans hb.alignment, hc.capacity.trans hb.capacity,
    hc.maximum.trans hb.maximum⟩

theorem sound (hb : b.Like b') (hS : L.Sound b) : L.Sound b' := by
  have hunit : b'.unit = b.unit := by rw [SlotBlock.unit, SlotBlock.unit, hb.alignment]
  have hfirst : b'.first = b.first := by rw [SlotBlock.first, SlotBlock.first, hunit]
  refine ⟨?_, ?_, hS.listed, ?_, ?_⟩
  · rw [hfirst, hb.capacity]
    exact hS.tiled
  · rw [hunit]
    exact hS.each
  · rw [hb.capacity, hb.buffer]
    exact hS.inside
  · rw [hb.capacity]
    exact hS.short

theorem sited (hl : b.Like b') (hb : b.Sited) : b'.Sited := by
  obtain ⟨hrecord, hpower, hfour, hbase⟩ := hb
  refine ⟨?_, ?_, ?_, ?_⟩
  · rwa [hl.buffer]
  · rwa [hl.alignment]
  · rwa [hl.alignment]
  · rwa [hl.alignment, hl.buffer]

theorem addressOf (hb : b.Like b') (p : Nat) : b'.addressOf p = b.addressOf p := by
  rw [SlotBlock.addressOf, SlotBlock.addressOf, hb.buffer]

theorem granted (hb : b.Like b') {held : List (Nat × Nat)} (hg : Granted b held live) :
    Granted b' held live := by
  constructor
  · simpa only [hb.addressOf] using hg.addresses
  · simpa only [hb.addressOf] using hg.fits

end SlotBlock.Like

theorem SlotView.Turned.like {f : SlotBlock → SlotBlock} {v w : SlotView}
    (h : SlotView.Turned f L L' v w) (hf : v.block.Like (f v.block)) : v.block.Like w.block := by
  obtain ⟨head, count, hw⟩ := h.block
  rw [hw]
  exact ⟨hf.buffer, hf.alignment, hf.capacity, hf.maximum⟩

theorem addressOf_inj {p q : Nat} (h : b.addressOf (p + 1) = b.addressOf (q + 1)) : p = q := by
  simp only [SlotBlock.addressOf] at h
  omega

namespace Granted

variable {held held' : List (Nat × Nat)} {p n : Nat}

theorem perm (hg : Granted b held live) (h : held'.Perm held) : Granted b held' live :=
  ⟨hg.addresses.trans (h.symm.map _), fun g hl x hx => hg.fits g hl x (h.mem_iff.1 hx)⟩

theorem cons (hg : Granted b held live) (hnd : (((p, n) :: held).map (·.1)).Nodup)
    (hsize : size ≤ (n - 1) * 4) :
    Granted b ((p, n) :: held) (⟨b.addressOf (p + 1), size⟩ :: live) := by
  refine ⟨hg.addresses.cons _, fun g hl x hx hgx => ?_⟩
  have hfst : x.1 = p → x = (p, n) := fun hxp => by
    rcases List.mem_cons.1 hx with rfl | hx
    · rfl
    · exact absurd (List.mem_map.2 ⟨x, hx, hxp⟩) (List.nodup_cons.1 hnd).1
  rcases List.mem_cons.1 hl with rfl | hl
  · rw [hfst (addressOf_inj hgx).symm]
    exact hsize
  · rcases List.mem_cons.1 hx with rfl | hx
    · have hmem := hg.addresses.mem_iff.1 (List.mem_map_of_mem hl)
      obtain ⟨y, hy, hgy⟩ := List.mem_map.1 hmem
      have hyp : y.1 = p := addressOf_inj (hgy.trans hgx)
      exact absurd (List.mem_map.2 ⟨y, hy, hyp⟩) (List.nodup_cons.1 hnd).1
    · exact hg.fits g hl x hx hgx

theorem erase (hg : Granted b ((p, n) :: held) live) (hl : g ∈ live)
    (hgp : g.address = b.addressOf (p + 1)) : Granted b held (live.erase g) := by
  refine ⟨?_, fun x hx y hy => hg.fits x (List.mem_of_mem_erase hx) y (List.mem_cons_of_mem _ hy)⟩
  have hperm := ((List.perm_cons_erase hl).map (·.address)).symm.trans hg.addresses
  rw [List.map_cons, List.map_cons, hgp] at hperm
  exact hperm.cons_inv

theorem exists_held (hg : Granted b held live) (hl : g ∈ live) :
    ∃ x ∈ held, g.address = b.addressOf (x.1 + 1) ∧ g.size ≤ (x.2 - 1) * 4 := by
  have hmem := hg.addresses.mem_iff.1 (List.mem_map_of_mem hl)
  obtain ⟨x, hx, hgx⟩ := List.mem_map.1 hmem
  exact ⟨x, hx, hgx.symm, hg.fits g hl x hx hgx.symm⟩

end Granted

theorem Layout.Sound.nodup_holdings (hS : L.Sound b) : ((holdings L.slots).map (·.1)).Nodup := by
  rw [holdings, List.map_map]
  exact hS.nodup_positions.sublist (List.filter_sublist.map _)

namespace SlotHeap.Keeps

theorem slot (hk : h.Keeps L live) (hg : g ∈ live) : ∃ s ∈ L.slots, s.status = .allocated ∧
    g.address = h.block.addressOf (s.position + 1) ∧ g.size ≤ s.payloadBytes := by
  obtain ⟨⟨p, n⟩, hx, hgx, hsize⟩ := hk.granted.exists_held hg
  obtain ⟨s, hs, hf, rfl, rfl⟩ := mem_holdings.1 hx
  exact ⟨s, hs, hf, hgx, hsize⟩

theorem allocate (hk : h.Keeps L live) (size : Nat) :
    (∃ h', SlotStep.allocate size h = (.ok none, h') ∧ h'.view = h.view ∧ h.Confined h' ∧
        (h.block.maximumAllocationSize < size ∨
          ∀ s ∈ L.slots, s.status = .free → s.payloadBytes < size)) ∨
      ∃ K L' h', Served h.block.unit size L K L' ∧
        SlotStep.allocate size h = (.ok (some (h.block.addressOf (K.position + 1))), h') ∧
        h'.Keeps L' (⟨h.block.addressOf (K.position + 1), size⟩ :: live) ∧
        h.Confined h' ∧ h.block.Like h'.block ∧ SlotView.Rewrites L L' h.view h'.view := by
  by_cases hmax : h.block.maximumAllocationSize < size
  · obtain ⟨h', hrun, hview, hconf⟩ :=
      (SlotStep.yields_allocate_large (v := h.view) hmax).run h rfl
    exact .inl ⟨h', hrun, hview, hconf, .inl hmax⟩
  rcases SlotStep.allocate_answers hk.sound hk.shows (Nat.not_lt.1 hmax) with
    ⟨hy, hfull⟩ | ⟨K, L', hserved, w, hy, hturned⟩
  · obtain ⟨h', hrun, hview, hconf⟩ := hy.run h rfl
    exact .inl ⟨h', hrun, hview, hconf, .inr hfull⟩
  · obtain ⟨h', hrun, rfl, hconf⟩ := hy.run h rfl
    have hlike : h.block.Like h'.block := hturned.like ⟨rfl, rfl, rfl, rfl⟩
    have hsound : L'.Sound h'.block := hlike.sound (hserved.sound hk.sound)
    have hheld := hserved.holdings
    obtain ⟨head, count, hblock⟩ := hturned.block
    have hblock : h'.block = _ := hblock
    refine .inr ⟨K, L', h', hserved, hrun, ⟨hsound, hturned.shows, ?_, ?_, ?_⟩, hconf, hlike,
      hturned.rewrites⟩
    · refine hlike.granted (Granted.perm (Granted.cons hk.granted ?_ ?_) hheld)
      · exact (hheld.map _).nodup_iff.1 hsound.nodup_holdings
      · exact hserved.size_le (unit_pos _)
    · have hlength : (holdings L'.slots).length = h.block.allocations + 1 := by
        rw [hheld.length_eq, List.length_cons, ← hk.allocations]
      rw [hblock, hlength]
      exact wrap_of_small (hlength ▸ hsound.length_holdings_lt)
    · have hsum : sumOf ((holdings L'.slots).map (·.2)) = h.block.reserved + K.span := by
        rw [sumOf_perm (hheld.map (·.2)), List.map_cons, sumOf_cons, ← hk.reserved, Nat.add_comm]
      rw [hblock, hsum]
      exact wrap_of_small (hsum ▸ hsound.sumOf_holdings_lt)

theorem release_slot (hk : h.Keeps L live) (hr : h.block.buffer.record = 4) (hg : g ∈ live)
    {C : Slot} (hC : C ∈ L.slots) (hf : C.status = .allocated)
    (hgC : g.address = h.block.addressOf (C.position + 1)) (hsize : size ≤ C.payloadBytes) :
    ∃ L' h', Freed C L L' ∧ SlotStep.deallocate g.address size h = (.ok (), h') ∧
      h'.Keeps L' (live.erase g) ∧ h.Confined h' ∧ h.block.Like h'.block ∧
      SlotView.Rewrites L L' h.view h'.view := by
  obtain ⟨L', hfreed, w, hy, hturned⟩ :=
    SlotStep.deallocate_turns hr hk.sound hk.shows hC hf hsize
  obtain ⟨h', hrun, rfl, hconf⟩ := hy.run h rfl
  have hlike : h.block.Like h'.block := hturned.like ⟨rfl, rfl, rfl, rfl⟩
  have hheld := hfreed.holdings hf
  obtain ⟨head, count, hblock⟩ := hturned.block
  have hblock : h'.block = _ := hblock
  refine ⟨L', h', hfreed, hgC ▸ hrun,
    ⟨hlike.sound (hfreed.sound hk.sound hf), hturned.shows, ?_, ?_, ?_⟩, hconf, hlike,
    hturned.rewrites⟩
  · exact hlike.granted (Granted.erase (Granted.perm hk.granted hheld.symm) hg hgC)
  · have hcount := hheld.length_eq
    rw [← hk.allocations, List.length_cons] at hcount
    rw [hblock, show (holdings L'.slots).length = h.block.allocations - 1 by omega]
    exact wrapSub_of_le (show 1 ≤ h.block.allocations by omega)
  · have hsum := sumOf_perm (hheld.map (·.2))
    rw [← hk.reserved, List.map_cons, sumOf_cons] at hsum
    have hsum : C.span + sumOf ((holdings L'.slots).map (·.2)) = h.block.reserved := hsum.symm
    rw [hblock, show sumOf ((holdings L'.slots).map (·.2)) = h.block.reserved - C.span by omega]
    exact wrapSub_of_le (show C.span ≤ h.block.reserved by omega)

theorem release (hk : h.Keeps L live) (hr : h.block.buffer.record = 4) (hg : g ∈ live)
    (hsize : size ≤ g.size) :
    ∃ C L' h', C.status = .allocated ∧ Freed C L L' ∧
      SlotStep.deallocate g.address size h = (.ok (), h') ∧ h'.Keeps L' (live.erase g) ∧
      h.Confined h' ∧ h.block.Like h'.block ∧ SlotView.Rewrites L L' h.view h'.view := by
  obtain ⟨C, hC, hf, hgC, hgs⟩ := hk.slot hg
  obtain ⟨L', h', hfreed⟩ := hk.release_slot hr hg hC hf hgC (Nat.le_trans hsize hgs)
  exact ⟨C, L', h', hf, hfreed⟩

/-- Nothing but the payloads of allocated slots may change under the block's feet. -/
theorem of_word (hk : h.Keeps L live) (hb : h'.block = h.block)
    (hw : ∀ q, q < h.block.buffer.len →
      (∀ s ∈ L.slots, s.status = .allocated → ¬ s.Payload q) → h'.word q = h.word q) :
    h'.Keeps L live := by
  have hS := hk.sound
  have hlen : ∀ s ∈ L.slots, ∀ k, k < s.span → s.position + k < h.block.buffer.len :=
    fun s hs k hkn => (hS.inRange hs hkn).2.2
  have hfreeWord : ∀ s ∈ L.slots, s.status = .free → ∀ k, k < s.span →
      h'.word (s.position + k) = h.word (s.position + k) := by
    intro s hs hf k hkn
    refine hw _ (hlen s hs k hkn) fun t ht hta hq => ?_
    obtain rfl := hS.eq_of_within hs ht (q := s.position + k)
      ⟨Nat.le_add_right .., Nat.add_lt_add_left hkn _⟩ ⟨Nat.le_of_lt hq.1, hq.2⟩
    rw [hta] at hf
    exact absurd hf (by decide)
  have hhead : ∀ s ∈ L.slots, h'.word s.position = h.word s.position := fun s hs =>
    hw _ (hlen s hs 0 (hS.span_pos s hs)) fun t ht _ hq =>
      hS.notMem_positions ht hq (List.mem_map_of_mem hs)
  refine ⟨hb ▸ hS, ⟨?_, ?_, ?_⟩, hb ▸ hk.granted, hb ▸ hk.allocations, hb ▸ hk.reserved⟩
  · exact fun s hs => (hhead s hs).trans (hk.shows.headed s hs)
  · refine SlotView.linked_of_eq hk.shows.linked
      (fun p hp => hS.spaced.pos p (hS.free_subset hp)) (congrArg SlotBlock.freeHead hb) ?_
    intro p hp
    obtain ⟨s, hs, hf, rfl⟩ := hS.mem_free.1 hp
    have hspan : 3 + 1 ≤ s.span := (hS.each s hs).span_ge
    exact ⟨hfreeWord s hs hf 1 (by omega), hfreeWord s hs hf 2 (by omega)⟩
  · exact (congrArg SlotBlock.freeCount hb).trans hk.shows.counted

end SlotHeap.Keeps

/-- A payload that is held before and after is not written to. -/
theorem SlotView.Rewrites.payload {v v' : SlotView} {p n q : Nat} (hr : SlotView.Rewrites L L' v v')
    (hS : L.Sound b) (hS' : L'.Sound b') (hL : (p, n) ∈ holdings L.slots)
    (hL' : (p, n) ∈ holdings L'.slots) (hq : p < q ∧ q < p + n) : v'.word q = v.word q := by
  obtain ⟨s, hs, -, rfl, rfl⟩ := mem_holdings.1 hL
  obtain ⟨t, ht, hta, hts, htn⟩ := mem_holdings.1 hL'
  have htq : t.Payload q := ⟨hts ▸ hq.1, by rw [Slot.stop, hts, htn]; exact hq.2⟩
  rcases hr.written q (.inl (hS.notMem_positions hs hq)) with h | h | ⟨x, hx, hqx, -⟩
  · exact h
  · exact absurd h (hS'.notMem_positions ht htq)
  · obtain ⟨u, hu, huf, rfl⟩ := hS'.mem_free.1 hx
    have hroom := hS'.room hu
    obtain rfl := hS'.eq_of_within ht hu ⟨Nat.le_of_lt htq.1, htq.2⟩
      (show u.position ≤ q ∧ q < u.stop by omega)
    rw [hta] at huf
    exact absurd huf (by decide)

namespace SlotHeap

theorem wordIndex_of_payload (hb : 4 ∣ h.block.buffer.base) (p i : Nat) :
    (h.block.addressOf p + i) / 4 = h.block.wordIndex (p + i / 4) := by
  simp only [SlotBlock.addressOf, SlotBlock.wordIndex]
  omega

theorem agrees {kept : List Grant} (hb : 4 ∣ h.block.buffer.base) (hlike : h.block.Like h'.block)
    (hS : L.Sound h.block) (hS' : L'.Sound h'.block)
    (hr : SlotView.Rewrites L L' h.view h'.view)
    (hkept : ∀ g ∈ kept, ∃ x ∈ holdings L.slots, x ∈ holdings L'.slots ∧
      g.address = h.block.addressOf (x.1 + 1) ∧ g.size ≤ (x.2 - 1) * 4) :
    Memory.Agrees kept h.memory h'.memory := by
  intro g hg i hi
  obtain ⟨⟨p, n⟩, hx, hx', haddr, hsize⟩ := hkept g hg
  have hword : h'.word (p + 1 + i / 4) = h.word (p + 1 + i / 4) :=
    hr.payload hS hS' hx hx' (by omega)
  refine Memory.byte_congr ?_
  rw [haddr, wordIndex_of_payload hb]
  simpa only [word, SlotBlock.wordIndex, hlike.buffer] using hword

namespace Keeps

theorem allocate_agrees (hk : h.Keeps L live) (hb : 4 ∣ h.block.buffer.base) {K : Slot}
    (hserved : Served h.block.unit size L K L') (hlike : h.block.Like h'.block)
    (hr : SlotView.Rewrites L L' h.view h'.view) : Memory.Agrees live h.memory h'.memory := by
  refine agrees hb hlike hk.sound (hlike.sound (hserved.sound hk.sound)) hr fun g hg => ?_
  obtain ⟨x, hx, hgx⟩ := hk.granted.exists_held hg
  exact ⟨x, hx, hserved.holdings.mem_iff.2 (List.mem_cons_of_mem _ hx), hgx⟩

theorem release_agrees (hk : h.Keeps L live) (hk' : h'.Keeps L' (live.erase g))
    (hb : 4 ∣ h.block.buffer.base) {C : Slot} (hfreed : Freed C L L') (hC : C.status = .allocated)
    (hlike : h.block.Like h'.block) (hr : SlotView.Rewrites L L' h.view h'.view) :
    Memory.Agrees (live.erase g) h.memory h'.memory := by
  refine agrees hb hlike hk.sound hk'.sound hr fun k hg => ?_
  obtain ⟨x, hx, hgx⟩ := hk'.granted.exists_held hg
  rw [hlike.addressOf] at hgx
  exact ⟨x, (hfreed.holdings hC).mem_iff.2 (List.mem_cons_of_mem _ hx), hx, hgx⟩

theorem write (hk : h.Keeps L live) (hb : 4 ∣ h.block.buffer.base) (hg : g ∈ live) {offset : Nat}
    {bytes : List UInt8} (hfit : offset + bytes.length ≤ g.size) :
    SlotHeap.Keeps { h with memory := h.memory.setBytes (g.address + offset) bytes } L live := by
  obtain ⟨s, hs, hf, haddr, hsize⟩ := hk.slot hg
  refine hk.of_word rfl fun q _ hq => Memory.word_setBytes_of_outside ?_
  have hq := hq s hs hf
  have hroom := hk.sound.room hs
  simp only [Slot.Payload, Slot.stop, not_and_or, Nat.not_lt] at hq hroom
  simp only [haddr, SlotBlock.addressOf, SlotBlock.wordIndex, SlotHeader.payloadBytes] at hsize ⊢
  omega

end Keeps

end SlotHeap

/-- Where live grants lie: aligned, inside the buffer and apart from each other. -/
structure Placed (b : SlotBlock) (live : List Grant) : Prop where
  aligned : ∀ g ∈ live, b.alignment ∣ g.address
  inside : ∀ g ∈ live, b.buffer.base ≤ g.address ∧
    g.region.stop ≤ b.buffer.base + b.buffer.byteLen
  apart : live.Pairwise fun g k => g.region.Disjoint k.region

theorem SlotHeap.Keeps.placed (hk : h.Keeps L live) (hb : h.block.Sited) : Placed h.block live := by
  have hregion : ∀ g ∈ live, ∃ s ∈ L.slots, g.address = h.block.addressOf (s.position + 1) ∧
      g.region.stop ≤ h.block.addressOf s.stop := by
    intro g hg
    obtain ⟨s, hs, -, haddr, hsize⟩ := hk.slot hg
    have hroom := hk.sound.room hs
    refine ⟨s, hs, haddr, ?_⟩
    simp only [Grant.region, Region.stop, haddr, SlotBlock.addressOf, Slot.stop,
      SlotHeader.payloadBytes] at hsize hroom ⊢
    omega
  refine ⟨fun g hg => ?_, fun g hg => ?_, ?_⟩
  · obtain ⟨s, hs, haddr, -⟩ := hregion g hg
    rw [haddr, SlotBlock.addressOf]
    refine (Nat.dvd_add_right hb.base).2 ?_
    rw [hb.alignment_eq, Nat.mul_comm]
    exact Nat.mul_dvd_mul (hk.sound.each s hs).aligned (Nat.dvd_refl 4)
  · obtain ⟨s, hs, haddr, hstop⟩ := hregion g hg
    have hcap := hk.sound.stop_le hs
    have hlen := hk.sound.inside (List.ne_nil_of_mem hs)
    simp only [haddr, SlotBlock.addressOf, Buffer.byteLen, hb.record] at hstop ⊢
    omega
  · have hnd : (live.map (·.address)).Nodup := by
      refine hk.granted.addresses.nodup_iff.2 ?_
      have hpos := hk.sound.nodup_holdings
      rw [List.Nodup, List.pairwise_map] at hpos ⊢
      exact hpos.imp fun hne heq => hne (addressOf_inj heq)
    rw [List.Nodup, List.pairwise_map] at hnd
    refine hnd.imp_of_mem fun {g k} hg hk' hne => ?_
    obtain ⟨s, hs, haddr, hstop⟩ := hregion g hg
    obtain ⟨t, ht, haddr', hstop'⟩ := hregion k hk'
    have hst : s ≠ t := fun h => hne (haddr.trans (h ▸ haddr'.symm))
    simp only [SlotBlock.addressOf] at haddr haddr' hstop hstop'
    show g.region.stop ≤ k.address ∨ k.region.stop ≤ g.address
    rcases hk.sound.apart hs ht hst with h | h <;> omega

theorem holdings_eq_nil {l : List Slot} (h : ∀ s ∈ l, s.status = .free) : holdings l = [] := by
  induction l with
  | nil => rfl
  | cons s l ih =>
      rw [holdings_cons, if_pos (h s (List.mem_cons_self ..))]
      exact ih fun t ht => h t (List.mem_cons_of_mem _ ht)

theorem SlotHeap.Confined.confines (hc : h.Confined h') (hb : h.block.Sited) :
    h.block.buffer.region.Confines h.memory h'.memory := by
  intro x hx
  have hfour := hb.four_dvd_base
  refine Memory.byte_congr (hc.outside _ ?_)
  simp only [Region.Holds, Region.stop, Buffer.region, hb.record, SlotBlock.wordIndex] at hx ⊢
  omega

/-- How a block came to be: the system handed out its region and the carving divided it. -/
structure SlotBlock.Created (blockSize alignment : Nat) (s s' : AddressSpace) (b : SlotBlock) :
    Prop where
  buffer : b.buffer = sitedBuffer blockSize alignment b.buffer.base
  aligned : b.alignment = max alignment 4
  granted : s.policy s.asked s.handed s.held (4 * max b.buffer.len 1) b.buffer.alignment =
    some b.buffer.base
  bufferPower : IsPowerOfTwo b.buffer.alignment
  power : IsPowerOfTwo (max alignment 4)
  result : (blank b.buffer b.alignment).carved
    (Buffer.grantedSpace s 4 b.buffer.len b.buffer.base).memory = ⟨b, s'.memory⟩
  carved : Carved (blank b.buffer b.alignment)
    (Buffer.grantedSpace s 4 b.buffer.len b.buffer.base).memory
    (freshLayout b.buffer.len b.unit) ⟨b, s'.memory⟩
  space : s' = { Buffer.grantedSpace s 4 b.buffer.len b.buffer.base with
    memory := s'.memory
    overflowed := s.overflows (roundUp blockSize (max alignment 4)) }

theorem SlotBlock.create_created {s s' : AddressSpace} {blockSize alignment : Nat}
    (hsmall : alignment < 131072)
    (hcreate : SlotBlock.create blockSize alignment s = (.ok b, s')) :
    SlotBlock.Created blockSize alignment s s' b := by
  rcases create_cases s blockSize alignment with
    ⟨e, _, herr, -⟩ | ⟨base, hpolicy, hbufal, hpower, hlen, h, hcarved, hok⟩
  · rw [hcreate] at herr
    cases herr
  rw [hcreate] at hok
  cases hok
  have hunit : (blank (sitedBuffer blockSize alignment base) (max alignment 4)).unit ≤ maxSpan := by
    have hmax : maxSpan = 32767 := rfl
    simp only [unit, blank, SlotGeometry.unit]
    omega
  have hc := carved_spec
    (Buffer.grantedSpace s 4 (sitedBuffer blockSize alignment base).len base).memory hlen hunit
  rw [hcarved] at hc
  have hbuffer : h.block.buffer = sitedBuffer blockSize alignment base := hc.buffer
  have hal : h.block.alignment = max alignment 4 := hc.alignment
  constructor
  · rw [hbuffer]
    rfl
  · exact hal
  · rw [hbuffer]
    exact hpolicy
  · rw [hbuffer]
    exact hbufal
  · exact hpower
  · rw [hbuffer, hal]
    exact hcarved
  · rw [unit, hbuffer, hal]
    exact hc
  · rw [hbuffer]
    rfl

theorem SlotBlock.create_carved {s s' : AddressSpace} {blockSize alignment : Nat}
    (hp : s.Aligned) (hsmall : alignment < 131072)
    (hcreate : SlotBlock.create blockSize alignment s = (.ok b, s')) :
    b.Sited ∧ b.alignment = max alignment 4 ∧
      b.buffer.len = wrap (roundUp blockSize (max alignment 4)) / 4 ∧
      Carved (blank b.buffer b.alignment)
        (Buffer.grantedSpace s 4 b.buffer.len b.buffer.base).memory
        (freshLayout b.buffer.len b.unit) ⟨b, s'.memory⟩ ∧
      s.Obtained s' b.buffer.region b.buffer.alignment := by
  have hc := create_created hsmall hcreate
  have hbufal := hc.bufferPower
  have hpolicy := hc.granted
  have hbase := hp _ _ _ hbufal hpolicy
  have hsited : b.Sited := by
    refine ⟨?_, ?_, ?_, ?_⟩
    · rw [hc.buffer]
      rfl
    · rw [hc.aligned]
      exact hc.power
    · rw [hc.aligned]
      exact Nat.le_max_right ..
    · rw [hc.aligned]
      rw [hc.buffer] at hbase
      exact Nat.dvd_trans (dvd_max_sixteen hc.power (by decide)) hbase
  refine ⟨hsited, hc.aligned, ?_, hc.carved, ?_⟩
  · rw [hc.buffer]
    rfl
  · have hconf : b.buffer.region.Confines
        (Buffer.grantedSpace s 4 b.buffer.len b.buffer.base).memory s'.memory :=
      hc.carved.confined.confines ⟨hsited.record, hsited.power, hsited.four_le, hsited.base⟩
    rw [hc.space]
    rw [hc.buffer] at hbufal hpolicy hconf ⊢
    exact ((Buffer.zeroed_obtained hbufal hpolicy).store hconf).marked _

theorem SlotBlock.create_maximum {s s' : AddressSpace} {blockSize alignment : Nat}
    (hp : s.Aligned) (hsmall : alignment < 131072)
    (hcreate : SlotBlock.create blockSize alignment s = (.ok b, s')) :
    b.maximumAllocationSize = min ((SlotGeometry.maxAlignedSpan b.unit - 1) * 4)
      ((b.capacity - (b.first + 1)) * 4) := by
  obtain ⟨-, hal, -, hc, -⟩ := create_carved hp hsmall hcreate
  have hmaximum : b.maximumAllocationSize =
      min (SlotGeometry.maximumAllocationSize b.alignment) ((b.capacity - (b.first + 1)) * 4) :=
    hc.maximum
  rw [hmaximum, maximumAllocationSize_eq (by omega)]
  rfl

theorem SlotBlock.Carved.keeps {buffer : Buffer} {alignment : Nat} {m : Memory}
    (hc : Carved (blank buffer alignment) m L h) : h.Keeps L [] := by
  have hheld := holdings_eq_nil hc.free
  refine ⟨hc.sound, hc.shows, ?_, ?_, ?_⟩
  · rw [hheld]
    exact ⟨.nil, fun g hg => absurd hg List.not_mem_nil⟩
  · rw [hheld]
    exact hc.allocations
  · rw [hheld]
    exact hc.reserved

theorem SlotBlock.create_keeps {s s' : AddressSpace} {blockSize alignment : Nat}
    (hp : s.Aligned) (hsmall : alignment < 131072)
    (hcreate : SlotBlock.create blockSize alignment s = (.ok b, s')) :
    b.Sited ∧ b.alignment = max alignment 4 ∧
      SlotHeap.Keeps ⟨b, s'.memory⟩ (freshLayout b.buffer.len b.unit) [] := by
  obtain ⟨hsited, hal, -, hc, -⟩ := create_carved hp hsmall hcreate
  exact ⟨hsited, hal, hc.keeps⟩

end AffinityHeap
