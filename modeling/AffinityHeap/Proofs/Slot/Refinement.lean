import AffinityHeap.Proofs.Slot.Shape
import AffinityHeap.Proofs.Slot.Stale
import AffinityHeap.Proofs.Slot.Validate

namespace AffinityHeap

namespace SlotStep

variable {h h' : SlotHeap} {address size size' c : Nat}

/-- A release reads the size in its checks only. -/
theorem deallocate_congr {slot : SlotHeader} (hslot : slotOf address h.block = .ok c)
    (hhead : h.header c = .ok slot)
    (hcheck : checkRelease c size slot h.block = checkRelease c size' slot h.block) :
    deallocate address size h = deallocate address size' h := by
  rw [deallocate, deallocate, ask_bind, ask_bind, answer_bind, answer_bind, hslot]
  refine (header_bind ..).trans (.trans ?_ (header_bind ..).symm)
  rw [hhead]
  refine (answer_bind ..).trans (.trans ?_ (answer_bind ..).symm)
  rw [hcheck]

theorem deallocate_of_fits {L : Layout} (hr : h.block.buffer.record = 4) (hS : L.Sound h.block)
    (hV : h.view.Shows L) {C : Slot} (hC : C ∈ L.slots) (hsize : size ≤ C.payloadBytes)
    (hsize' : size' ≤ C.payloadBytes) :
    deallocate (h.block.addressOf (C.position + 1)) size h =
      deallocate (h.block.addressOf (C.position + 1)) size' h := by
  refine deallocate_congr (slotOf_addressOf hr hS hC) (header_eq hS hC (hV.headed C hC)) ?_
  simp only [checkRelease, if_neg (Nat.not_lt.2 hsize), if_neg (Nat.not_lt.2 hsize')]

section Refuses

variable {α β : Type} {x y : SlotStep (Option α)} {cond : Prop} [Decidable cond]

/-- Where the answer is that there is nothing to give, nothing was written. -/
def Refuses (x : SlotStep (Option α)) : Prop := ∀ h h', x h = (.ok none, h') → h' = h

theorem refuses_map (x : SlotStep α) : Refuses (some <$> x) := by
  rintro h h' hrun
  rw [map_eq_pure_bind, bind_apply] at hrun
  rcases hx : x h with ⟨e | a, t⟩
  · rw [hx] at hrun
    cases hrun
  · rw [hx] at hrun
    cases hrun

theorem refuses_of_reads {x : SlotStep (Option α)} (hx : Reads x) : Refuses x := by
  rintro h h' hrun
  exact (congrArg Prod.snd hrun).symm.trans (hx.heap h)

theorem refuses_bind {y : SlotStep β} {k : β → SlotStep (Option α)} (hy : Reads y)
    (hk : ∀ b, Refuses (k b)) : Refuses (y >>= k) := by
  rintro h h' hrun
  rw [bind_of_apply k (Prod.ext rfl (hy.heap h) : y h = ((y h).1, h))] at hrun
  revert hrun
  cases (y h).1 with
  | error e => exact fun hrun => nomatch hrun
  | ok b => exact hk b h h'

theorem refuses_ite (hx : Refuses x) (hy : Refuses y) : Refuses (if cond then x else y) := by
  split
  · exact hx
  · exact hy

/-- A guard that fails ends the step. -/
theorem refuses_unless {e : Corruption} {f : PUnit → SlotStep (Option α)} (hf : Refuses (f ⟨⟩)) :
    Refuses (if cond then fail e >>= f else f ⟨⟩) :=
  refuses_ite (fun _ _ hrun => nomatch hrun) hf

theorem refuses_allocateFrom (remaining x : Nat) : Refuses (allocateFrom size remaining x) := by
  induction remaining generalizing x with
  | zero =>
      cases x with
      | zero => exact refuses_of_reads (reads_answer _)
      | succ p => exact refuses_bind reads_ask fun _ => refuses_of_reads (reads_answer _)
  | succ remaining ih =>
      cases x with
      | zero => exact refuses_of_reads (reads_answer _)
      | succ p =>
          unfold allocateFrom
          refine refuses_bind (reads_look ..) fun _ => refuses_bind (reads_header _) fun slot =>
            refuses_unless (refuses_unless ?_)
          exact refuses_bind (reads_link _) fun _ => refuses_bind (reads_link _) fun next =>
            refuses_ite (refuses_map _) (ih next)

theorem refuses_allocate : Refuses (allocate size) :=
  refuses_bind reads_ask fun _ =>
    refuses_ite (refuses_of_reads (reads_answer _)) (refuses_allocateFrom _ _)

end Refuses

end SlotStep

namespace SlotHeap

variable {h h' : SlotHeap} {L : Layout} {slots slots' : List Slot} {listed listed' : List Nat}

theorem freeWalk_unique {previous x : Nat} (hw : h.FreeWalk previous x listed)
    (hw' : h.FreeWalk previous x listed') (h0 : 0 ∉ listed) (h0' : 0 ∉ listed') :
    listed = listed' := by
  induction listed generalizing previous x listed' with
  | nil =>
      obtain rfl : x = 0 := hw
      cases listed' with
      | nil => rfl
      | cons p rest =>
          obtain ⟨rfl, -⟩ := hw'
          exact absurd (List.mem_cons_self ..) h0'
  | cons p rest ih =>
      obtain ⟨rfl, -, next, hnext, hrest⟩ := hw
      cases listed' with
      | nil =>
          obtain rfl : x = 0 := hw'
          exact absurd (List.mem_cons_self ..) h0
      | cons q rest' =>
          obtain ⟨rfl, -, next', hnext', hrest'⟩ := hw'
          obtain rfl := Except.ok.inj (hnext.symm.trans hnext')
          rw [ih hrest hrest' (fun hmem => h0 (List.mem_cons_of_mem _ hmem))
            fun hmem => h0' (List.mem_cons_of_mem _ hmem)]

/-- The words of a block settle its slots and its free list. -/
theorem Consistent.unique (hc : h.Consistent slots listed) (hc' : h.Consistent slots' listed') :
    slots = slots' ∧ listed = listed' :=
  ⟨hc.readable.unique hc'.readable,
    freeWalk_unique hc.walk hc'.walk hc.intact.zero_notMem hc'.intact.zero_notMem⟩

/-- A release of the slot `C` between `A` and `B`, whatever size it is given back with. -/
structure Releases (h : SlotHeap) (A : List Slot) (C : Slot) (B : List Slot) (listed : List Nat)
    (h' : SlotHeap) : Prop where
  run : ∀ size ≤ C.payloadBytes,
    SlotStep.deallocate (h.block.addressOf (C.position + 1)) size h = (.ok (), h')
  joined : ∃ slots' listed', h'.Consistent slots' listed' ∧
    Shape.of slots' listed' =
      Shape.release (Shape.sites A) C.position C.span (Shape.sites B) listed ∧
    ∀ s ∈ A ++ C :: B, s.position ∉ slots'.map (·.position) → h'.word s.position = 0

theorem Keeps.releases {live : List Grant} {g : Grant} (hk : h.Keeps L live)
    (hr : h.block.buffer.record = 4) (hg : g ∈ live) : ∃ A C B, L.slots = A ++ C :: B ∧
      C.status = .allocated ∧ g.address = h.block.addressOf (C.position + 1) ∧
      g.size ≤ C.payloadBytes ∧ ∃ h', h.Releases A C B L.free h' := by
  obtain ⟨C, hC, hf, hgC, hsize⟩ := hk.slot hg
  obtain ⟨A, B, hL⟩ := List.append_of_mem hC
  obtain ⟨L', h', hfreed, hrun, hkeeps, -, -, hrw⟩ :=
    hk.release_slot hr hg hC hf hgC (Nat.zero_le _)
  refine ⟨A, C, B, hL, hf, hgC, hsize, h', fun size hfit => ?_, L'.slots, L'.free,
    hkeeps.consistent, hfreed.shape hk.sound hL, fun s hs => ?_⟩
  · rw [hgC] at hrun
    rw [← hrun]
    exact SlotStep.deallocate_of_fits hr hk.sound hk.shows hC hfit (Nat.zero_le _)
  · exact hrw.cleared _ (List.mem_map_of_mem (hL ▸ hs))

/-- First fit over what the words of a block say. -/
structure FirstFit (h : SlotHeap) (slots : List Slot) (listed : List Nat) (size : Nat) : Prop where
  answers : ∃ answer h', SlotStep.allocate size h = (.ok answer, h')
  served_iff : (∃ address h', SlotStep.allocate size h = (.ok (some address), h')) ↔
    size ≤ h.block.maximumAllocationSize ∧
      ∃ s ∈ slots, s.status = .free ∧ size ≤ s.payloadBytes
  refused : ∀ h', SlotStep.allocate size h = (.ok none, h') → h' = h
  served : ∀ address h', SlotStep.allocate size h = (.ok (some address), h') →
    ∃ p slots' listed', address = h.block.addressOf (p + 1) ∧ h'.Consistent slots' listed' ∧
      Shape.Served h.block.unit size (Shape.of slots listed) p (Shape.of slots' listed')

theorem Keeps.firstFit {live : List Grant} (hk : h.Keeps L live) (size : Nat) :
    h.FirstFit L.slots L.free size := by
  rcases hk.allocate size with ⟨h', hrun, -, -, hwhy⟩ | ⟨K, L', h', hserved, hrun, hkeeps, -⟩
  · refine ⟨⟨none, h', hrun⟩, ⟨?_, ?_⟩, SlotStep.refuses_allocate h, ?_⟩
    · rintro ⟨address, t, ht⟩
      rw [hrun] at ht
      cases ht
    · rintro ⟨hmax, s, hs, hf, hsize⟩
      rcases hwhy with hlarge | hfull
      · exact absurd hmax (Nat.not_le.2 hlarge)
      · exact absurd hsize (Nat.not_le.2 (hfull s hs hf))
    · intro address t ht
      rw [hrun] at ht
      cases ht
  · have hmax : size ≤ h.block.maximumAllocationSize := by
      refine Nat.not_lt.1 fun hlarge => ?_
      obtain ⟨t, ht, -⟩ := (SlotStep.yields_allocate_large (v := h.view) hlarge).run h rfl
      rw [hrun] at ht
      cases ht
    have hfits : ∃ s ∈ L.slots, s.status = .free ∧ size ≤ s.payloadBytes := by
      cases hserved with
      | @whole A B F X Y hF hsize _ _ => exact ⟨F, by simp, hF, hsize⟩
      | @cut A B F X Y r hF hsize _ _ _ => exact ⟨F, by simp, hF, hsize⟩
    refine ⟨⟨_, h', hrun⟩, ⟨fun _ => ⟨hmax, hfits⟩, fun _ => ⟨_, h', hrun⟩⟩,
      SlotStep.refuses_allocate h, ?_⟩
    intro address t ht
    rw [hrun] at ht
    cases ht
    exact ⟨K.position, L'.slots, L'.free, rfl, hkeeps.consistent, hserved.shape hk.sound⟩

end SlotHeap

namespace SlotSession

/-- The release of what a live pointer holds joins its slot with the free neighbours as far as a
span reaches, and changes no other slot and no other place of the free list. -/
structure Joins (s : SlotSession) : Prop where
  readable : ∃ slots listed, s.heap.Consistent slots listed
  releases : ∀ slots listed, s.heap.Consistent slots listed → ∀ g ∈ s.live, ∃ A C B,
    slots = A ++ C :: B ∧ C.status = .allocated ∧
    g.address = s.heap.block.addressOf (C.position + 1) ∧ g.size ≤ C.payloadBytes ∧
    ∃ h', s.heap.Releases A C B listed h'

/-- A request for bytes is answered by first fit. -/
structure Fits (s : SlotSession) : Prop where
  readable : ∃ slots listed, s.heap.Consistent slots listed
  serves : ∀ slots listed, s.heap.Consistent slots listed →
    ∀ size, s.heap.FirstFit slots listed size

variable {b : SlotBlock} {s : SlotSession}

theorem Kept.joins (hk : Kept b s) : s.Joins := by
  obtain ⟨L, hL⟩ := hk.keeps
  refine ⟨⟨L.slots, L.free, hL.consistent⟩, fun slots listed hc g hg => ?_⟩
  obtain ⟨rfl, rfl⟩ := hL.consistent.unique hc
  exact hL.releases hk.record hg

theorem Kept.fits (hk : Kept b s) : s.Fits := by
  obtain ⟨L, hL⟩ := hk.keeps
  refine ⟨⟨L.slots, L.free, hL.consistent⟩, fun slots listed hc size => ?_⟩
  obtain ⟨rfl, rfl⟩ := hL.consistent.unique hc
  exact hL.firstFit size

section Runs

variable {space space' : AddressSpace} {blockSize alignment : Nat} {requests : List SlotRequest}

theorem run_joins (hp : space.policy.Aligned) (hsmall : alignment < 131072)
    (hcreate : SlotBlock.create blockSize alignment space = (.ok b, space'))
    (hr : (start b space'.memory).ProperRun requests) :
    ∃ s, (start b space'.memory).run requests = .ok s ∧ s.Joins := by
  obtain ⟨s, hs, hk⟩ := (kept_start hp hsmall hcreate).run hr
  exact ⟨s, hs, hk.joins⟩

theorem run_joins_small : ∃ b space',
    SlotBlock.create 64 4 (.new (.sideBySide false 16 0x100000000)) = (.ok b, space') ∧
      ∃ s, (start b space'.memory).run [.allocate 12, .allocate 16] = .ok s ∧ s.Joins := by
  obtain ⟨b, space', hcreate⟩ := Obtain.exists_of_isOk
    (x := SlotBlock.create 64 4) (s := .new (.sideBySide false 16 0x100000000)) (by decide +kernel)
  have hr : (start b space'.memory).ProperRun [.allocate 12, .allocate 16] :=
    ⟨trivial, fun _ _ => ⟨trivial, fun _ _ => trivial⟩⟩
  exact ⟨b, space', hcreate, run_joins
    (Policy.sideBySide_aligned (isPowerOfTwo_iff.2 ⟨4, rfl⟩) false 0x100000000) (by decide) hcreate
    hr⟩

theorem run_fits (hp : space.policy.Aligned) (hsmall : alignment < 131072)
    (hcreate : SlotBlock.create blockSize alignment space = (.ok b, space'))
    (hr : (start b space'.memory).ProperRun requests) :
    ∃ s, (start b space'.memory).run requests = .ok s ∧ s.Fits := by
  obtain ⟨s, hs, hk⟩ := (kept_start hp hsmall hcreate).run hr
  exact ⟨s, hs, hk.fits⟩

theorem run_fits_small : ∃ b space',
    SlotBlock.create 64 4 (.new (.sideBySide false 16 0x100000000)) = (.ok b, space') ∧
      ∃ s, (start b space'.memory).run [.allocate 12, .allocate 16] = .ok s ∧ s.Fits := by
  obtain ⟨b, space', hcreate⟩ := Obtain.exists_of_isOk
    (x := SlotBlock.create 64 4) (s := .new (.sideBySide false 16 0x100000000)) (by decide +kernel)
  have hr : (start b space'.memory).ProperRun [.allocate 12, .allocate 16] :=
    ⟨trivial, fun _ _ => ⟨trivial, fun _ _ => trivial⟩⟩
  exact ⟨b, space', hcreate, run_fits
    (Policy.sideBySide_aligned (isPowerOfTwo_iff.2 ⟨4, rfl⟩) false 0x100000000) (by decide) hcreate
    hr⟩

end Runs

end SlotSession

end AffinityHeap
