import AffinityHeap.Proofs.Slot.Heap

namespace AffinityHeap

/-- A block, its memory and the pointers its clients hold. -/
structure SlotSession where
  heap : SlotHeap
  live : List Grant

inductive SlotRequest where
  | allocate (size : Nat)
  | release (grant : Grant) (size : Nat)
  | write (grant : Grant) (offset : Nat) (bytes : List UInt8)
  deriving DecidableEq

namespace SlotRequest

/-- A release names a live pointer and no more than its size; a write stays inside a live one. -/
def Proper (live : List Grant) : SlotRequest → Prop
  | allocate _ => True
  | release g size => g ∈ live ∧ size ≤ g.size
  | write g offset bytes => g ∈ live ∧ offset + bytes.length ≤ g.size

def IsWrite : SlotRequest → Prop
  | write .. => True
  | _ => False

/-- Byte `i` of the grant after its owner's write, if this is one. -/
def overwrite (g : Grant) (i : Nat) (old : UInt8) : SlotRequest → UInt8
  | write k offset bytes => if k = g ∧ offset ≤ i then bytes.getD (i - offset) old else old
  | _ => old

end SlotRequest

namespace SlotSession

def start (b : SlotBlock) (memory : Memory) : SlotSession := ⟨⟨b, memory⟩, []⟩

def apply (s : SlotSession) : SlotRequest → Except Corruption SlotSession
  | .allocate size =>
      match SlotStep.allocate size s.heap with
      | (.ok (some address), heap) => .ok ⟨heap, ⟨address, size⟩ :: s.live⟩
      | (.ok none, heap) => .ok { s with heap }
      | (.error e, _) => .error e
  | .release g size =>
      match SlotStep.deallocate g.address size s.heap with
      | (.ok (), heap) => .ok ⟨heap, s.live.erase g⟩
      | (.error e, _) => .error e
  | .write g offset bytes =>
      .ok { s with heap.memory := s.heap.memory.setBytes (g.address + offset) bytes }

def run : List SlotRequest → SlotSession → Except Corruption SlotSession
  | [], s => .ok s
  | r :: rest, s =>
      match s.apply r with
      | .ok s => run rest s
      | .error e => .error e

def ProperRun : List SlotRequest → SlotSession → Prop
  | [], _ => True
  | r :: rest, s => r.Proper s.live ∧ ∀ s', s.apply r = .ok s' → ProperRun rest s'

/-- The invariant of every run. -/
structure Kept (b : SlotBlock) (s : SlotSession) : Prop where
  sited : b.Sited
  like : b.Like s.heap.block
  keeps : ∃ L, s.heap.Keeps L s.live

end SlotSession

namespace SlotHeap

/-- The walk from `x` along the next links, each back link naming where it came from. -/
def FreeWalk (h : SlotHeap) : (previous x : Nat) → List Nat → Prop
  | _, x, [] => x = 0
  | previous, x, p :: rest =>
      x = p ∧ h.previousFree p = .ok previous ∧
        ∃ next, h.nextFree p = .ok next ∧ h.FreeWalk p next rest

/-- What can be read off the words of a block: its slots by address and its free list. -/
structure Consistent (h : SlotHeap) (slots : List Slot) (listed : List Nat) : Prop where
  headers : ∀ s ∈ slots, h.header s.position = .ok s.toSlotHeader
  tiled : Slot.Tiled h.block.first 0 slots h.block.capacity
  inside : slots ≠ [] → h.block.capacity ≤ h.block.buffer.len
  spans : ∀ s ∈ slots, minSlotSpan ≤ s.span ∧ s.span ≤ maxSpan
  aligned : ∀ s ∈ slots, h.block.unit ∣ s.position + 1
  walk : h.FreeWalk 0 h.block.freeHead listed
  once : listed.Nodup
  complete : listed.Perm (freePositions slots)
  counted : h.block.freeCount = listed.length
  allocations : h.block.allocations = (taken slots).length
  reserved : h.block.reserved = sumOf ((taken slots).map (·.span))

theorem freeWalk_of_path {h : SlotHeap} {L : Layout} (hS : L.Sound h.block) {l : List Nat} {x : Nat}
    (hl : ∀ p ∈ l, p ∈ L.positions) (hpath : h.view.Path x l)
    (hend : h.view.next (l.getLastD x) = 0) : h.FreeWalk x (h.view.next x) l := by
  induction l generalizing x with
  | nil => exact hend
  | cons p l ih =>
      obtain ⟨hnext, hprev, hpath⟩ := hpath
      have hp := hl p (List.mem_cons_self ..)
      have hp0 : p ≠ 0 := Nat.ne_of_gt (hS.spaced.pos p hp)
      refine ⟨hnext, ?_, h.view.next p, ?_, ih (fun q hq => hl q (List.mem_cons_of_mem _ hq)) hpath
        (by rwa [List.getLastD_cons] at hend)⟩
      · rw [previousFree, link_of_inRange (hS.inRange_of_mem hp (by omega)), ← hprev]
        rfl
      · rw [nextFree, link_of_inRange (hS.inRange_of_mem hp (by omega)), SlotView.next, if_neg hp0]
        rfl

theorem Keeps.consistent {h : SlotHeap} {L : Layout} {live : List Grant} (hk : h.Keeps L live) :
    h.Consistent L.slots L.free where
  headers s hs := SlotStep.header_eq hk.sound hs (hk.shows.headed s hs)
  tiled := hk.sound.tiled
  inside := hk.sound.inside
  spans s hs := ⟨(hk.sound.each s hs).span_ge, (hk.sound.each s hs).span_le⟩
  aligned s hs := (hk.sound.each s hs).aligned
  walk := freeWalk_of_path hk.sound (fun p hp => hk.sound.free_subset hp) hk.shows.linked.1
    hk.shows.linked.2
  once := hk.sound.nodup_free
  complete := hk.sound.listed
  counted := hk.shows.counted
  allocations := by simpa [holdings] using hk.allocations
  reserved := by simpa [holdings, Function.comp_def] using hk.reserved

end SlotHeap

namespace SlotSession

variable {b : SlotBlock} {s s' : SlotSession} {r : SlotRequest} {rest : List SlotRequest}

theorem Kept.four_dvd (hk : Kept b s) : 4 ∣ s.heap.block.buffer.base :=
  (hk.like.sited hk.sited).four_dvd_base

theorem Kept.record (hk : Kept b s) : s.heap.block.buffer.record = 4 :=
  (hk.like.sited hk.sited).record

/-- What an allocation or a release leaves alone. -/
def Spares (s s' : SlotSession) : Prop :=
  Memory.Agrees (s.live.filter (· ∈ s'.live)) s.heap.memory s'.heap.memory

theorem Kept.allocate (hk : Kept b s) (size : Nat) :
    ∃ s', s.apply (.allocate size) = .ok s' ∧ Kept b s' ∧ s.Spares s' ∧
      (s'.live = s.live ∨ ∃ address, s'.live = ⟨address, size⟩ :: s.live) := by
  obtain ⟨L, hL⟩ := hk.keeps
  rcases hL.allocate size with ⟨h', hrun, hview, -, -⟩ |
    ⟨K, L', h', hserved, hrun, hkeeps, -, hlike, hrw⟩
  · have hblock : h'.block = s.heap.block := congrArg SlotView.block hview
    have hword : ∀ q, h'.word q = s.heap.word q := congrFun (congrArg SlotView.word hview)
    refine ⟨⟨h', s.live⟩, by rw [apply, hrun], ⟨hk.sited, hblock ▸ hk.like, L,
      hL.of_word hblock fun q _ _ => hword q⟩, fun g hg i hi => ?_, .inl rfl⟩
    obtain ⟨x, -, haddr, -⟩ := hL.granted.exists_held (List.mem_filter.1 hg).1
    have hq := hword (x.1 + 1 + i / 4)
    refine Memory.byte_congr ?_
    rw [haddr, SlotHeap.wordIndex_of_payload hk.four_dvd]
    simpa only [SlotHeap.word, SlotBlock.wordIndex, hblock] using hq
  · let address := s.heap.block.addressOf (K.position + 1)
    refine ⟨⟨h', ⟨address, size⟩ :: s.live⟩, by rw [apply, hrun],
      ⟨hk.sited, hk.like.trans hlike, L', hkeeps⟩, fun g hg => ?_, .inr ⟨address, rfl⟩⟩
    exact hL.allocate_agrees hk.four_dvd hserved hlike hrw g (List.mem_filter.1 hg).1

theorem Kept.release (hk : Kept b s) {g : Grant} {size : Nat} (hg : g ∈ s.live)
    (hsize : size ≤ g.size) :
    ∃ s', s.apply (.release g size) = .ok s' ∧ Kept b s' ∧ s.Spares s' ∧
      s'.live = s.live.erase g := by
  obtain ⟨L, hL⟩ := hk.keeps
  obtain ⟨C, L', h', hC, hfreed, hrun, hkeeps, -, hlike, hrw⟩ := hL.release hk.record hg hsize
  refine ⟨⟨h', s.live.erase g⟩, by rw [apply, hrun], ⟨hk.sited, hk.like.trans hlike, L', hkeeps⟩,
    fun k hmem => ?_, rfl⟩
  exact hL.release_agrees hkeeps hk.four_dvd hfreed hC hlike hrw k
    (of_decide_eq_true (List.mem_filter.1 hmem).2)

theorem Kept.write (hk : Kept b s) {g : Grant} {offset : Nat} {bytes : List UInt8}
    (hg : g ∈ s.live) (hfit : offset + bytes.length ≤ g.size) :
    ∃ s', s.apply (.write g offset bytes) = .ok s' ∧ Kept b s' ∧ s'.live = s.live := by
  obtain ⟨L, hL⟩ := hk.keeps
  exact ⟨_, rfl, ⟨hk.sited, hk.like, L, hL.write hk.four_dvd hg hfit⟩, rfl⟩

/-- One step: it is served and keeps the invariant. -/
theorem Kept.apply (hk : Kept b s) (hr : r.Proper s.live) :
    ∃ s', s.apply r = .ok s' ∧ Kept b s' := by
  cases r with
  | allocate size =>
      obtain ⟨s', hs, hk', -⟩ := hk.allocate size
      exact ⟨s', hs, hk'⟩
  | release g size =>
      obtain ⟨s', hs, hk', -⟩ := hk.release hr.1 hr.2
      exact ⟨s', hs, hk'⟩
  | write g offset bytes =>
      obtain ⟨s', hs, hk', -⟩ := hk.write hr.1 hr.2
      exact ⟨s', hs, hk'⟩

theorem Kept.run (hk : Kept b s) {requests : List SlotRequest} (hr : s.ProperRun requests) :
    ∃ s', s.run requests = .ok s' ∧ Kept b s' := by
  induction requests generalizing s with
  | nil => exact ⟨s, rfl, hk⟩
  | cons r rest ih =>
      obtain ⟨s', hs, hk'⟩ := hk.apply hr.1
      obtain ⟨t, ht, hkt⟩ := ih hk' (hr.2 s' hs)
      exact ⟨t, by rw [SlotSession.run, hs]; exact ht, hkt⟩

theorem Kept.placed (hk : Kept b s) : Placed b s.live := by
  obtain ⟨L, hL⟩ := hk.keeps
  have hb := hk.like
  obtain ⟨haligned, hinside, hapart⟩ := hL.placed (hb.sited hk.sited)
  rw [hb.alignment] at haligned
  rw [hb.buffer] at hinside
  exact ⟨haligned, hinside, hapart⟩

theorem Kept.spares (hk : Kept b s) (hr : r.Proper s.live) (hw : ¬ r.IsWrite)
    (hs : s.apply r = .ok s') : s.Spares s' := by
  cases r with
  | allocate size =>
      obtain ⟨t, ht, -, hspare, -⟩ := hk.allocate size
      obtain rfl := Except.ok.inj (hs.symm.trans ht)
      exact hspare
  | release g size =>
      obtain ⟨t, ht, -, hspare, -⟩ := hk.release hr.1 hr.2
      obtain rfl := Except.ok.inj (hs.symm.trans ht)
      exact hspare
  | write g offset bytes => exact absurd trivial hw

theorem Kept.disjoint (hk : Kept b s) {g k : Grant} (hg : g ∈ s.live) (hk' : k ∈ s.live)
    (hne : k ≠ g) : k.region.Disjoint g.region := by
  have : Std.Symm fun g k : Grant => g.region.Disjoint k.region := ⟨fun _ _ => Or.symm⟩
  exact hk.placed.apart.forall hk' hg hne

theorem Kept.overwrite (hk : Kept b s) {g : Grant} (hg : g ∈ s.live) (hr : r.Proper s.live)
    (hkeep : ∀ size, r ≠ .release g size) (hs : s.apply r = .ok s') :
    g ∈ s'.live ∧ ∀ i < g.size, s'.heap.memory.byte (g.address + i) =
      r.overwrite g i (s.heap.memory.byte (g.address + i)) := by
  cases r with
  | allocate size =>
      obtain ⟨t, ht, -, hspare, hlive⟩ := hk.allocate size
      obtain rfl := Except.ok.inj (hs.symm.trans ht)
      have hg' : g ∈ s'.live := by
        rcases hlive with h | ⟨address, h⟩ <;> rw [h]
        · exact hg
        · exact List.mem_cons_of_mem _ hg
      exact ⟨hg', hspare g (List.mem_filter.2 ⟨hg, decide_eq_true hg'⟩)⟩
  | release k size =>
      obtain ⟨t, ht, -, hspare, hlive⟩ := hk.release hr.1 hr.2
      obtain rfl := Except.ok.inj (hs.symm.trans ht)
      have hg' : g ∈ s'.live := by
        rw [hlive]
        refine (List.mem_erase_of_ne ?_).2 hg
        rintro rfl
        exact hkeep size rfl
      exact ⟨hg', hspare g (List.mem_filter.2 ⟨hg, decide_eq_true hg'⟩)⟩
  | write k offset bytes =>
      obtain rfl := Except.ok.inj hs
      refine ⟨hg, fun i hi => ?_⟩
      obtain ⟨hk', hfit⟩ := hr
      by_cases hkg : k = g
      · subst hkg
        rw [SlotRequest.overwrite]
        simpa only [true_and] using Memory.byte_setBytes_getD ..
      · have hdis := hk.disjoint hg hk' hkg
        simp only [Region.Disjoint, Region.stop, Grant.region] at hdis
        rw [SlotRequest.overwrite, if_neg (fun h => hkg h.1)]
        exact Memory.byte_setBytes_of_outside (by omega)

theorem kept_start {space space' : AddressSpace} {blockSize alignment : Nat}
    (hp : space.policy.Aligned) (hsmall : alignment < 131072)
    (hcreate : SlotBlock.create blockSize alignment space = (.ok b, space')) :
    Kept b (start b space'.memory) := by
  obtain ⟨hsited, -, hkeeps⟩ := SlotBlock.create_keeps (AddressSpace.aligned_of_policy hp) hsmall hcreate
  exact ⟨hsited, .refl b, _, hkeeps⟩

/-- No run of proper requests ends in a corruption, and every one leaves the block consistent. -/
theorem run_consistent {space space' : AddressSpace} {blockSize alignment : Nat}
    (hp : space.policy.Aligned) (hsmall : alignment < 131072)
    (hcreate : SlotBlock.create blockSize alignment space = (.ok b, space'))
    {requests : List SlotRequest} (hr : (start b space'.memory).ProperRun requests) :
    ∃ s, (start b space'.memory).run requests = .ok s ∧
      ∃ slots listed, s.heap.Consistent slots listed := by
  obtain ⟨s, hs, hk⟩ := (kept_start hp hsmall hcreate).run hr
  obtain ⟨L, hL⟩ := hk.keeps
  exact ⟨s, hs, L.slots, L.free, hL.consistent⟩

theorem Kept.replay (hk : Kept b s) {g : Grant} (hg : g ∈ s.live) {requests : List SlotRequest}
    (hr : s.ProperRun requests) (hkeep : ∀ size, .release g size ∉ requests) :
    ∃ s', s.run requests = .ok s' ∧ g ∈ s'.live ∧ ∀ i < g.size,
      s'.heap.memory.byte (g.address + i) = requests.foldl (fun old r => r.overwrite g i old)
        (s.heap.memory.byte (g.address + i)) := by
  induction requests generalizing s with
  | nil => exact ⟨s, rfl, hg, fun _ _ => rfl⟩
  | cons r rest ih =>
      obtain ⟨t, ht, hkt⟩ := hk.apply hr.1
      obtain ⟨hgt, hbytes⟩ := hk.overwrite hg hr.1
        (fun size h => hkeep size (h ▸ List.mem_cons_self ..)) ht
      obtain ⟨s', hs', hgs', hbytes'⟩ := ih hkt hgt (hr.2 t ht)
        fun size h => hkeep size (List.mem_cons_of_mem _ h)
      refine ⟨s', by rw [SlotSession.run, ht]; exact hs', hgs', fun i hi => ?_⟩
      rw [hbytes' i hi, hbytes i hi, List.foldl_cons]

theorem run_consistent_small : ∃ b space',
    SlotBlock.create 64 4 (.new (.sideBySide false 16 0x100000000)) = (.ok b, space') ∧
      (start b space'.memory).ProperRun [.allocate 12, .allocate 70] ∧
      ∃ s, (start b space'.memory).run [.allocate 12, .allocate 70] = .ok s ∧
        ∃ slots listed, s.heap.Consistent slots listed := by
  obtain ⟨b, space', hcreate⟩ := Obtain.exists_of_isOk
    (x := SlotBlock.create 64 4) (s := .new (.sideBySide false 16 0x100000000)) (by decide +kernel)
  have hr : (start b space'.memory).ProperRun [.allocate 12, .allocate 70] :=
    ⟨trivial, fun _ _ => ⟨trivial, fun _ _ => trivial⟩⟩
  exact ⟨b, space', hcreate, hr, run_consistent
    (Policy.sideBySide_aligned (isPowerOfTwo_iff.2 ⟨4, rfl⟩) false 0x100000000) (by decide) hcreate hr⟩

/-- Live pointers are aligned, inside the buffer and apart, no allocation and no release touches
the payload of one that outlives it, and a payload is what its owner wrote last. -/
theorem payloads_kept {space space' : AddressSpace} {blockSize alignment : Nat}
    (hp : space.policy.Aligned) (hsmall : alignment < 131072)
    (hcreate : SlotBlock.create blockSize alignment space = (.ok b, space'))
    {requests : List SlotRequest} (hr : (start b space'.memory).ProperRun requests) :
    ∃ s, (start b space'.memory).run requests = .ok s ∧ Placed b s.live ∧
      (∀ r, r.Proper s.live → ¬ r.IsWrite → ∃ s', s.apply r = .ok s' ∧ s.Spares s') ∧
      ∀ g ∈ s.live, ∀ rest, s.ProperRun rest → (∀ size, .release g size ∉ rest) →
        ∃ s', s.run rest = .ok s' ∧ g ∈ s'.live ∧ ∀ i < g.size,
          s'.heap.memory.byte (g.address + i) = rest.foldl (fun old r => r.overwrite g i old)
            (s.heap.memory.byte (g.address + i)) := by
  obtain ⟨s, hs, hk⟩ := (kept_start hp hsmall hcreate).run hr
  refine ⟨s, hs, hk.placed, fun r hr hw => ?_, fun g hg rest hrest hkeep => ?_⟩
  · obtain ⟨s', hs', -⟩ := hk.apply hr
    exact ⟨s', hs', hk.spares hr hw hs'⟩
  · exact hk.replay hg hrest hkeep

theorem payloads_kept_small : ∃ b space',
    SlotBlock.create 64 4 (.new (.sideBySide false 16 0x100000000)) = (.ok b, space') ∧
      ∃ s, (start b space'.memory).run [.allocate 12, .allocate 70] = .ok s ∧ Placed b s.live := by
  obtain ⟨b, space', hcreate⟩ := Obtain.exists_of_isOk
    (x := SlotBlock.create 64 4) (s := .new (.sideBySide false 16 0x100000000)) (by decide +kernel)
  have hr : (start b space'.memory).ProperRun [.allocate 12, .allocate 70] :=
    ⟨trivial, fun _ _ => ⟨trivial, fun _ _ => trivial⟩⟩
  obtain ⟨s, hs, hplaced, -⟩ := payloads_kept
    (Policy.sideBySide_aligned (isPowerOfTwo_iff.2 ⟨4, rfl⟩) false 0x100000000) (by decide) hcreate hr
  exact ⟨b, space', hcreate, s, hs, hplaced⟩

end SlotSession

end AffinityHeap
