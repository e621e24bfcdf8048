import AffinityHeap.Proofs.Slot.Merged
import AffinityHeap.Proofs.Slot.Session

namespace AffinityHeap

variable {b : SlotBlock} {L L' M : Layout} {live : List Grant} {h : SlotHeap} {slots : List Slot}

theorem Layout.Sound.nodup_vacancies (hS : L.Sound b) : (vacancies L.slots).Nodup := by
  refine List.Nodup.of_map Prod.fst ?_
  rw [vacancies, List.map_map]
  exact hS.nodup_positions.sublist (List.filter_sublist.map _)

namespace SlotHeap

theorem freeSlotsFrom_of_walk (slots : List Slot) {previous x : Nat} {l : List Nat}
    (hwalk : h.FreeWalk previous x l)
    (hl : ∀ p ∈ l, p ≠ 0 ∧ ∃ s ∈ slots, s.status = .free ∧ s.position = p ∧
      h.header p = .ok s.toSlotHeader) (found : List (Nat × Nat)) :
    ∃ pairs, SlotStep.freeSlotsFrom l.length x found h = (.ok (found.reverse ++ pairs), h) ∧
      pairs.map Prod.fst = l ∧ ∀ y ∈ pairs, y ∈ vacancies slots := by
  induction l generalizing previous x found with
  | nil =>
      obtain rfl : x = 0 := hwalk
      exact ⟨[], by rw [List.append_nil]; rfl, rfl, fun y hy => nomatch hy⟩
  | cons p rest ih =>
      obtain ⟨rfl, -, next, hnext, hwalk⟩ := hwalk
      obtain ⟨hne, s, hs, hf, hpos, hheader⟩ := hl x (List.mem_cons_self ..)
      obtain ⟨q, rfl⟩ := Nat.exists_eq_succ_of_ne_zero hne
      obtain ⟨pairs, hrun, hfst, hin⟩ :=
        ih hwalk (fun p hp => hl p (List.mem_cons_of_mem _ hp)) ((q + 1, s.span) :: found)
      refine ⟨(q + 1, s.span) :: pairs, ?_, ?_, ?_⟩
      · refine (SlotStep.bind_of_apply _ (SlotStep.header_apply ..)).trans ?_
        rw [hheader]
        refine (SlotStep.bind_of_apply _ (SlotStep.nextFree_apply ..)).trans ?_
        rw [hnext]
        refine hrun.trans ?_
        rw [List.reverse_cons, List.append_assoc, List.singleton_append]
      · rw [List.map_cons, hfst]
      · intro y hy
        rcases List.mem_cons.1 hy with rfl | hy
        · exact mem_vacancies.2 ⟨s, hs, hf, hpos, rfl⟩
        · exact hin y hy

theorem Keeps.freeSlots (hk : h.Keeps L live) :
    ∃ pairs, h.freeSlots = .ok pairs ∧ pairs.Perm (vacancies L.slots) := by
  have hc := hk.consistent
  have hS := hk.sound
  have hlisted : ∀ p ∈ L.free, p ≠ 0 ∧ ∃ s ∈ L.slots, s.status = .free ∧ s.position = p ∧
      h.header p = .ok s.toSlotHeader := fun p hp => by
    obtain ⟨s, hs, hf, rfl⟩ := hS.mem_free.1 hp
    exact ⟨Nat.ne_of_gt (hS.spaced.pos _ (hS.free_subset hp)), s, hs, hf, rfl, hc.headers s hs⟩
  obtain ⟨pairs, hrun, hfst, hin⟩ := freeSlotsFrom_of_walk L.slots hc.walk hlisted []
  have hlist : SlotStep.listFree h = SlotStep.freeSlotsFrom L.free.length h.block.freeHead [] h := by
    rw [← hc.counted]
    rfl
  refine ⟨pairs, by rw [SlotHeap.freeSlots, hlist, hrun]; rfl, ?_⟩
  have hnd : pairs.Nodup := List.Nodup.of_map Prod.fst (hfst ▸ hc.once)
  -- Each pair is a vacancy and each free position is listed, so that no vacancy is left out.
  refine (List.perm_ext_iff_of_nodup hnd hS.nodup_vacancies).2 fun y => ⟨hin y, fun hy => ?_⟩
  obtain ⟨p, n⟩ := y
  obtain ⟨s, hs, hf, rfl, rfl⟩ := mem_vacancies.1 hy
  have hmem : s.position ∈ pairs.map Prod.fst := hfst ▸ hS.mem_free.2 ⟨s, hs, hf, rfl⟩
  obtain ⟨⟨p, n⟩, hpair, hp⟩ := List.mem_map.1 hmem
  obtain ⟨t, ht, -, rfl, rfl⟩ := mem_vacancies.1 (hin _ hpair)
  obtain rfl := hS.position_inj ht hs hp
  exact hpair

/-- What can be read off the words of a block in which every maximal run of words outside the
allocated slots is one free slot. -/
structure Coalesced (h : SlotHeap) (slots : List Slot) : Prop where
  consistent : ∃ listed, h.Consistent slots listed
  merged : Merged slots
  gaps : ∀ p n, (p, n) ∈ vacancies slots ↔ Gap h.block.first h.block.capacity
    (fun p n => (p, n) ∈ holdings slots) p n
  listed : ∃ pairs, h.freeSlots = .ok pairs ∧ pairs.Perm (vacancies slots)

theorem Keeps.coalesced (hk : h.Keeps L live) (hM : Merged L.slots) : h.Coalesced L.slots :=
  ⟨⟨L.free, hk.consistent⟩, hM, fun _ _ => (hk.sound.division hM).free_iff, hk.freeSlots⟩

end SlotHeap

namespace SlotSession

variable {s t : SlotSession} {r : SlotRequest} {g : Grant} {size : Nat}

/-- Releases of grants, each with the size it is given back with. -/
def releases (l : List (Grant × Nat)) : List SlotRequest := l.map fun x => .release x.1 x.2

structure Releasable (live : List Grant) (l : List (Grant × Nat)) : Prop where
  nodup : (l.map Prod.fst).Nodup
  proper : ∀ x ∈ l, x.1 ∈ live ∧ x.2 ≤ x.1.size

theorem Releasable.perm {l l' : List (Grant × Nat)} (hl : Releasable live l) (h : l.Perm l') :
    Releasable live l' :=
  ⟨(h.map _).nodup_iff.1 hl.nodup, fun x hx => hl.proper x (h.mem_iff.2 hx)⟩

/-- The invariant of a block that is no longer than a slot can be. -/
structure Tight (b : SlotBlock) (L : Layout) (s : SlotSession) : Prop where
  sited : b.Sited
  like : b.Like s.heap.block
  keeps : s.heap.Keeps L s.live
  merged : Merged L.slots
  short : b.capacity ≤ b.first + maxSpan

namespace Tight

theorem sound (ht : Tight b L s) : L.Sound b := ht.like.symm.sound ht.keeps.sound

theorem coalesced (ht : Tight b L s) : s.heap.Coalesced L.slots := ht.keeps.coalesced ht.merged

theorem allocate (ht : Tight b L s) (size : Nat) :
    ∃ t L', s.apply (.allocate size) = .ok t ∧ Tight b L' t ∧
      (∀ x ∈ holdings L.slots, x ∈ holdings L'.slots) ∧
      (t.live = s.live ∨ ∃ address, t.live = ⟨address, size⟩ :: s.live) := by
  rcases ht.keeps.allocate size with ⟨h', hrun, hview, -, -⟩ |
    ⟨K, L', h', hserved, hrun, hkeeps, -, hlike, -⟩
  · have hblock : h'.block = s.heap.block := congrArg SlotView.block hview
    have hword : ∀ q, h'.word q = s.heap.word q := congrFun (congrArg SlotView.word hview)
    exact ⟨⟨h', s.live⟩, L, by rw [apply, hrun], ⟨ht.sited, hblock ▸ ht.like,
      ht.keeps.of_word hblock fun q _ _ => hword q, ht.merged, ht.short⟩, fun x hx => hx, .inl rfl⟩
  · exact ⟨⟨h', ⟨s.heap.block.addressOf (K.position + 1), size⟩ :: s.live⟩, L',
      by rw [apply, hrun],
      ⟨ht.sited, ht.like.trans hlike, hkeeps, hserved.merged ht.merged, ht.short⟩,
      fun x hx => hserved.holdings.mem_iff.2 (List.mem_cons_of_mem _ hx), .inr ⟨_, rfl⟩⟩

theorem release (ht : Tight b L s) (hg : g ∈ s.live) (hsize : size ≤ g.size) :
    ∃ t L', s.apply (.release g size) = .ok t ∧ Tight b L' t ∧
      (∀ x ∈ holdings L'.slots, x ∈ holdings L.slots) ∧ t.live = s.live.erase g := by
  have hr := (ht.like.sited ht.sited).record
  obtain ⟨C, L', h', hC, hfreed, hrun, hkeeps, -, hlike, -⟩ := ht.keeps.release hr hg hsize
  exact ⟨⟨h', s.live.erase g⟩, L', by rw [apply, hrun],
    ⟨ht.sited, ht.like.trans hlike, hkeeps, hfreed.merged ht.sound ht.short ht.merged, ht.short⟩,
    fun x hx => (hfreed.holdings hC).mem_iff.2 (List.mem_cons_of_mem _ hx), rfl⟩

theorem apply (ht : Tight b L s) (hr : r.Proper s.live) :
    ∃ t L', s.apply r = .ok t ∧ Tight b L' t := by
  cases r with
  | allocate size =>
      obtain ⟨t, L', hrun, ht', -⟩ := ht.allocate size
      exact ⟨t, L', hrun, ht'⟩
  | release g size =>
      obtain ⟨t, L', hrun, ht', -⟩ := ht.release hr.1 hr.2
      exact ⟨t, L', hrun, ht'⟩
  | write g offset bytes =>
      have hfour : 4 ∣ s.heap.block.buffer.base := by
        rw [ht.like.buffer]
        exact ht.sited.four_dvd_base
      exact ⟨_, L, rfl, ht.sited, ht.like, ht.keeps.write hfour hr.1 hr.2, ht.merged, ht.short⟩

theorem run (ht : Tight b L s) {requests : List SlotRequest} (hr : s.ProperRun requests) :
    ∃ t L', s.run requests = .ok t ∧ Tight b L' t := by
  induction requests generalizing s L with
  | nil => exact ⟨s, L, rfl, ht⟩
  | cons r rest ih =>
      obtain ⟨s', L', hs, ht'⟩ := ht.apply hr.1
      obtain ⟨t, L'', hrun, ht''⟩ := ih ht' (hr.2 s' hs)
      exact ⟨t, L'', by rw [SlotSession.run, hs]; exact hrun, ht''⟩

theorem releaseAll (ht : Tight b L s) {l : List (Grant × Nat)} (hl : Releasable s.live l) :
    ∃ t L', s.run (releases l) = .ok t ∧ Tight b L' t ∧
      (∀ x ∈ holdings L'.slots, x ∈ holdings L.slots) ∧ t.live = s.live.diff (l.map Prod.fst) := by
  induction l generalizing s L with
  | nil => exact ⟨s, L, rfl, ht, fun x hx => hx, rfl⟩
  | cons y rest ih =>
      obtain ⟨g, size⟩ := y
      obtain ⟨hg, hsize⟩ := hl.proper _ (List.mem_cons_self ..)
      obtain ⟨hnot, hnd⟩ := List.nodup_cons.1 hl.nodup
      obtain ⟨s', L', hs, ht', hsub, hlive⟩ := ht.release hg hsize
      have hrest : Releasable s'.live rest := by
        refine ⟨hnd, fun x hx => ?_⟩
        obtain ⟨hx', hsize'⟩ := hl.proper x (List.mem_cons_of_mem _ hx)
        rw [hlive]
        refine ⟨(List.mem_erase_of_ne ?_).2 hx', hsize'⟩
        rintro rfl
        exact hnot (List.mem_map.2 ⟨x, hx, rfl⟩)
      obtain ⟨t, L'', hrun, ht'', hsub', hlive'⟩ := ih ht' hrest
      refine ⟨t, L'', by rw [releases, List.map_cons, SlotSession.run, hs]; exact hrun, ht'',
        fun x hx => hsub x (hsub' x hx), ?_⟩
      rw [hlive', hlive, List.map_cons, List.diff_cons]

theorem mem_of_live (hs : Tight b L s) (ht : Tight b L' t) (hM : M.Sound b)
    (hsM : ∀ x ∈ holdings L.slots, x ∈ holdings M.slots)
    (htM : ∀ x ∈ holdings L'.slots, x ∈ holdings M.slots) (hlive : s.live = t.live) :
    ∀ x ∈ holdings L.slots, x ∈ holdings L'.slots := by
  intro x hx
  have hmem := hs.keeps.granted.addresses.mem_iff.2 (List.mem_map_of_mem hx)
  rw [hlive, ht.keeps.granted.addresses.mem_iff, hs.like.addressOf] at hmem
  obtain ⟨y, hy, heq⟩ := List.mem_map.1 hmem
  rw [ht.like.addressOf] at heq
  have hpos : y.1 = x.1 := addressOf_inj heq
  obtain ⟨u, hu, -, hup, hun⟩ := mem_holdings.1 (hsM x hx)
  obtain ⟨v, hv, -, hvp, hvn⟩ := mem_holdings.1 (htM y hy)
  obtain rfl := hM.position_inj hv hu (hvp.trans (hpos.trans hup.symm))
  obtain rfl : y = x := Prod.ext hpos (hvn.symm.trans hun)
  exact hy

/-- Two states that came from one and have the same grants have the same slots. -/
theorem eq_of_live (hs : Tight b L s) (ht : Tight b L' t) (hM : M.Sound b)
    (hsM : ∀ x ∈ holdings L.slots, x ∈ holdings M.slots)
    (htM : ∀ x ∈ holdings L'.slots, x ∈ holdings M.slots) (hlive : s.live = t.live) :
    L.slots = L'.slots :=
  hs.sound.slots_eq hs.merged ht.sound ht.merged fun x =>
    ⟨hs.mem_of_live ht hM hsM htM hlive x, ht.mem_of_live hs hM htM hsM hlive.symm x⟩

end Tight

/-- The allocated slots settle the free ones, whichever way they were come by. -/
structure Settled (b : SlotBlock) (first s : SlotSession) (slots : List Slot) : Prop where
  coalesced : s.heap.Coalesced slots
  unique : ∀ requests, first.ProperRun requests → ∃ t slots', first.run requests = .ok t ∧
    t.heap.Coalesced slots' ∧ ((∀ x, x ∈ holdings slots' ↔ x ∈ holdings slots) → slots' = slots)
  commute : ∀ l l', Releasable s.live l → l.Perm l' → ∃ t t' left,
    s.run (releases l) = .ok t ∧ s.run (releases l') = .ok t' ∧ t.heap.Coalesced left ∧
      t'.heap.Coalesced left
  undone : ∀ size g t, s.apply (.allocate size) = .ok t → t.live = g :: s.live →
    ∃ u, t.apply (.release g size) = .ok u ∧ u.live = s.live ∧ u.heap.Coalesced slots
  emptied : s.live = [] → s.heap.freeSlots = .ok [(b.first, b.capacity - b.first)]

namespace Tight

theorem undone (ht : Tight b L s) {u : SlotSession} (hrun : s.apply (.allocate size) = .ok u)
    (hlive : u.live = g :: s.live) : ∃ t, u.apply (.release g size) = .ok t ∧ t.live = s.live ∧
      t.heap.Coalesced L.slots := by
  obtain ⟨u', L', hrun', hu, hsub, hcases⟩ := ht.allocate size
  obtain rfl := Except.ok.inj (hrun.symm.trans hrun')
  rcases hcases with hsame | ⟨address, hnew⟩
  · exact absurd (hsame.symm.trans hlive) List.ne_cons_self
  · obtain ⟨rfl, -⟩ := List.cons.inj (hlive.symm.trans hnew)
    obtain ⟨t, L'', hrel, ht'', hsub', hlive'⟩ :=
      hu.release (hlive ▸ List.mem_cons_self ..) (Nat.le_refl size)
    have hback : t.live = s.live := by rw [hlive', hlive, List.erase_cons_head]
    have heq := ht''.eq_of_live ht hu.sound hsub' hsub hback
    exact ⟨t, hrel, hback, heq ▸ ht''.coalesced⟩

theorem holdings_eq_nil (ht : Tight b L s) (hlive : s.live = []) : holdings L.slots = [] := by
  have hperm := ht.keeps.granted.addresses
  rw [hlive, List.map_nil] at hperm
  exact List.map_eq_nil_iff.1 hperm.symm.eq_nil

theorem emptied (ht : Tight b L s) {first : SlotSession} {n : Nat} (hfirst : Tight b M first)
    (hone : M.slots = [⟨⟨0, n, .free⟩, b.first⟩]) (hlive : s.live = []) :
    s.heap.freeSlots = .ok [(b.first, b.capacity - b.first)] := by
  have hheld : holdings M.slots = [] := by simp [hone, holdings, taken]
  have hslots : L.slots = M.slots :=
    ht.sound.slots_eq ht.merged hfirst.sound hfirst.merged fun x => by
      rw [hheld, ht.holdings_eq_nil hlive]
  have hspan := Slot.tiled_span hfirst.sound.tiled
  obtain ⟨pairs, hrun, hperm⟩ := ht.keeps.freeSlots
  rw [hone] at hspan
  rw [hslots, hone] at hperm
  have hn : b.capacity - b.first = n := by
    simp only [List.map_cons, List.map_nil, sumOf_cons, sumOf_nil] at hspan
    omega
  rw [hn, hrun, List.perm_singleton.1 hperm]

theorem settled (ht : Tight b L s) {first : SlotSession} {n : Nat} (hfirst : Tight b M first)
    (hone : M.slots = [⟨⟨0, n, .free⟩, b.first⟩]) : Settled b first s L.slots := by
  constructor
  · exact ht.coalesced
  · intro requests hr
    obtain ⟨t, L', hrun, ht'⟩ := hfirst.run hr
    exact ⟨t, L'.slots, hrun, ht'.coalesced, ht'.sound.slots_eq ht'.merged ht.sound ht.merged⟩
  · intro l l' hl hperm
    obtain ⟨t, L', hrun, ht', hsub, hlive⟩ := ht.releaseAll hl
    obtain ⟨t', L'', hrun', ht'', hsub', hlive'⟩ := ht.releaseAll (hl.perm hperm)
    have heq := ht'.eq_of_live ht'' ht.sound hsub hsub'
      (by rw [hlive, hlive', (hperm.map Prod.fst).diff_left])
    exact ⟨t, t', L'.slots, hrun, hrun', ht'.coalesced, heq ▸ ht''.coalesced⟩
  · intro size g t hrun hlive
    exact ht.undone hrun hlive
  · exact ht.emptied hfirst hone

end Tight

theorem tight_start {space space' : AddressSpace} {blockSize alignment : Nat}
    (hp : space.policy.Aligned)
    (hcreate : SlotBlock.create blockSize alignment space = (.ok b, space'))
    (hlow : minSlotSpan ≤ b.buffer.len - b.first)
    (hhigh : b.buffer.len - b.first ≤ SlotGeometry.maxAlignedSpan b.unit) :
    Tight b (SlotBlock.freshLayout b.buffer.len b.unit) (start b space'.memory) := by
  have hunit : b.unit ≤ maxSpan := by
    refine Nat.not_lt.1 fun hlt => ?_
    rw [SlotGeometry.maxAlignedSpan, Nat.div_eq_of_lt hlt, Nat.mul_zero] at hhigh
    exact absurd (Nat.le_trans hlow hhigh) (by decide)
  have hsmall : alignment < 131072 := by
    have hmax : maxSpan = 32767 := rfl
    simp only [SlotBlock.unit, SlotGeometry.unit, SlotBlock.create_alignment hcreate] at hunit
    omega
  obtain ⟨hsited, -, hkeeps⟩ :=
    SlotBlock.create_keeps (AddressSpace.aligned_of_policy hp) hsmall hcreate
  have hslots := SlotBlock.freshLayout_slots hlow hhigh
  have hspan := Slot.tiled_span hkeeps.sound.tiled
  have hle := (SlotBlock.maxAlignedSpan_bounds hunit (unit_pos b)).2
  refine ⟨hsited, .refl b, hkeeps, ?_, ?_⟩
  · rw [hslots]
    exact List.isChain_singleton _
  · rw [hslots] at hspan
    simp only [List.map_cons, List.map_nil, sumOf_cons, sumOf_nil] at hspan
    have hfirst : b.first = SlotGeometry.first b.unit := rfl
    omega

/-- In a block that starts as one free slot, every run of words that no allocated slot takes in is
one free slot, after any run of proper requests. -/
theorem run_coalesced {space space' : AddressSpace} {blockSize alignment : Nat}
    (hp : space.policy.Aligned)
    (hcreate : SlotBlock.create blockSize alignment space = (.ok b, space'))
    (hlow : minSlotSpan ≤ b.buffer.len - b.first)
    (hhigh : b.buffer.len - b.first ≤ SlotGeometry.maxAlignedSpan b.unit)
    {requests : List SlotRequest} (hr : (start b space'.memory).ProperRun requests) :
    ∃ s slots, (start b space'.memory).run requests = .ok s ∧
      Settled b (start b space'.memory) s slots := by
  have hfirst := tight_start hp hcreate hlow hhigh
  obtain ⟨s, L, hrun, ht⟩ := hfirst.run hr
  exact ⟨s, L.slots, hrun, ht.settled hfirst (SlotBlock.freshLayout_slots hlow hhigh)⟩

theorem run_coalesced_small : ∃ b space',
    SlotBlock.create 64 4 (.new (.sideBySide false 16 0x100000000)) = (.ok b, space') ∧
      minSlotSpan ≤ b.buffer.len - b.first ∧
      b.buffer.len - b.first ≤ SlotGeometry.maxAlignedSpan b.unit ∧
      ∃ s slots, (start b space'.memory).run [.allocate 12, .allocate 16] = .ok s ∧
        Settled b (start b space'.memory) s slots := by
  obtain ⟨b, space', hcreate, hany⟩ := Obtain.exists_of_any
    (x := SlotBlock.create 64 4) (s := .new (.sideBySide false 16 0x100000000))
    (p := fun b => minSlotSpan ≤ b.buffer.len - b.first ∧
      b.buffer.len - b.first ≤ SlotGeometry.maxAlignedSpan b.unit) (by decide +kernel)
  obtain ⟨hlow, hhigh⟩ := of_decide_eq_true hany
  have hr : (start b space'.memory).ProperRun [.allocate 12, .allocate 16] :=
    ⟨trivial, fun _ _ => ⟨trivial, fun _ _ => trivial⟩⟩
  exact ⟨b, space', hcreate, hlow, hhigh, run_coalesced
    (Policy.sideBySide_aligned (isPowerOfTwo_iff.2 ⟨4, rfl⟩) false 0x100000000) hcreate hlow hhigh
    hr⟩

end SlotSession

end AffinityHeap
