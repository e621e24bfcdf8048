import AffinityHeap.Proofs.Slot.Stale
import AffinityHeap.Proofs.Slot.Validate

namespace AffinityHeap

namespace SlotBlock

variable {b b' : SlotBlock} {p q : Nat}

theorem Like.inRange (hb : b.Like b') (hp : b.InRange p) : b'.InRange p := by
  obtain ⟨hpos, hcapacity, hlen⟩ := hp
  exact ⟨hpos, hb.capacity ▸ hcapacity, hb.buffer ▸ hlen⟩

theorem InRange.le (hq : b.InRange q) (hpos : 0 < p) (hle : p ≤ q) : b.InRange p :=
  ⟨hpos, Nat.lt_of_le_of_lt hle hq.2.1, Nat.lt_of_le_of_lt hle hq.2.2⟩

end SlotBlock

namespace SlotHeap

variable {h : SlotHeap} {p q x : Nat} {w : UInt32}

theorem inRange_of_link (hx : h.link q = .ok x) : h.block.InRange q := by
  by_cases hq : h.block.InRange q
  · exact hq
  · rw [link_eq, element, if_neg hq] at hx
    cases hx

theorem header_setWord_self (hp : h.block.InRange p) :
    (h.setWord p w).header p = SlotHeader.decode w p := by
  rw [header_of_inRange (h := h.setWord p w) hp, word_setWord, if_pos rfl]

theorem element_setWord_of_ne (hne : p ≠ q) : (h.setWord p w).element q = h.element q := by
  rw [element, element, word_setWord, if_neg hne]
  rfl

theorem header_setWord_of_ne (hne : p ≠ q) : (h.setWord p w).header q = h.header q :=
  header_congr (element_setWord_of_ne hne)

theorem link_setWord_of_ne (hne : p ≠ q) : (h.setWord p w).link q = h.link q :=
  link_congr (element_setWord_of_ne hne)

/-- Both links of the free slot at `p` can be followed. -/
structure Threaded (h : SlotHeap) (p : Nat) : Prop where
  previous : ∃ q, h.previousFree p = .ok q ∧
    (q ≠ 0 → h.block.InRange (q + 1) ∧ h.block.InRange (q + 2))
  next : ∃ q, h.nextFree p = .ok q ∧
    (q ≠ 0 → h.block.InRange (q + 1) ∧ h.block.InRange (q + 2))

theorem Threaded.inRange (ht : h.Threaded p) : h.block.InRange (p + 2) := by
  obtain ⟨q, hq, -⟩ := ht.next
  exact inRange_of_link hq

end SlotHeap

namespace SlotStep

section Binds

variable {α β : Type} {b : SlotBlock} {x : SlotStep α} {f : α → SlotStep β} {c : Prop}
  [Decidable c] {h : SlotHeap} {p q span : Nat}

def Completes (x : SlotStep α) (h : SlotHeap) : Prop := ∃ a h', x h = (.ok a, h')

theorem completes_bind_iff {y : SlotStep α} {a : α} {h' : SlotHeap} (hy : y h = (.ok a, h')) :
    Completes (y >>= f) h ↔ Completes (f a) h' := by
  rw [Completes, bind_of_apply f hy]
  rfl

theorem exists_of_completes {y : SlotStep α} (hy : Reads y) (hk : Completes (y >>= f) h) :
    ∃ a, (y h).1 = .ok a ∧ Completes (f a) h := by
  obtain ⟨b, h', hrun⟩ := hk
  have hheap : y h = ((y h).1, h) := Prod.ext rfl (hy.heap h)
  rw [bind_of_apply f hheap] at hrun
  cases ha : (y h).1 with
  | error e =>
      rw [ha] at hrun
      cases hrun
  | ok a =>
      rw [ha] at hrun
      exact ⟨a, rfl, b, h', hrun⟩

theorem completes_updateBlock_iff {f : SlotBlock → SlotBlock} {k : Unit → SlotStep β} :
    Completes (updateBlock f >>= k) h ↔ Completes (k ()) { h with block := f h.block } := Iff.rfl

theorem completes_setElement_iff {w : UInt32} {k : Unit → SlotStep β} :
    Completes (setElement p w >>= k) h ↔
      h.block.InRange p ∧ Completes (k ()) (h.setWord p w) := by
  by_cases hp : h.block.InRange p
  · rw [completes_bind_iff (setElement_apply hp w)]
    exact ⟨fun hk => ⟨hp, hk⟩, fun hk => hk.2⟩
  · refine ⟨?_, fun hk => absurd hk.1 hp⟩
    rintro ⟨_, _, hk⟩
    rw [bind_of_apply k (setElement_refuses hp w)] at hk
    cases hk

/-- The step is carried out on every block that is like `b`, whatever its memory holds. -/
def Succeeds (b : SlotBlock) (x : SlotStep α) : Prop :=
  ∀ h : SlotHeap, b.Like h.block → ∃ a h', x h = (.ok a, h') ∧ b.Like h'.block

theorem Succeeds.completes (hx : Succeeds h.block x) : Completes x h := by
  obtain ⟨a, h', hrun, -⟩ := hx h (.refl h.block)
  exact ⟨a, h', hrun⟩

theorem succeeds_bind (hx : Succeeds b x) (hf : ∀ a, Succeeds b (f a)) :
    Succeeds b (x >>= f) := by
  intro h hb
  obtain ⟨a, h', hrun, hb'⟩ := hx h hb
  obtain ⟨a', h'', hrun', hb''⟩ := hf a h' hb'
  exact ⟨a', h'', by rw [bind_apply, hrun]; exact hrun', hb''⟩

theorem succeeds_ite {y : SlotStep α} (hx : c → Succeeds b x) (hy : ¬ c → Succeeds b y) :
    Succeeds b (if c then x else y) := by
  split
  · exact hx ‹c›
  · exact hy ‹¬ c›

theorem succeeds_when {x : SlotStep PUnit} {f : PUnit → SlotStep β} (hx : c → Succeeds b x)
    (hf : Succeeds b (f ⟨⟩)) : Succeeds b (if c then x >>= f else f ⟨⟩) :=
  succeeds_ite (fun hc => succeeds_bind (hx hc) fun _ => hf) fun _ => hf

theorem succeeds_updateBlock {f : SlotBlock → SlotBlock} (hf : ∀ b : SlotBlock, b.Like (f b)) :
    Succeeds b (updateBlock f) :=
  fun h hb => ⟨(), { h with block := f h.block }, rfl, hb.trans (hf h.block)⟩

theorem succeeds_setElement (hp : b.InRange p) (w : UInt32) : Succeeds b (setElement p w) :=
  fun h hb => ⟨(), h.setWord p w, setElement_apply (hb.inRange hp) w, hb⟩

theorem setBackSpan_apply {slot : SlotHeader} (hslot : h.header p = .ok slot) (back : Nat) :
    setBackSpan p back h = setHeader p { slot with back } h := by
  rw [setBackSpan, header_bind, hslot]

/-- A header is written and the slot behind it, if there is one, is told of its span. -/
theorem completes_told {slot : SlotHeader} {f : PUnit → SlotStep β} (hp : h.block.InRange p)
    (hq : q ≠ 0 → p ≠ q ∧ ∃ slot, h.header q = .ok slot) (hf : Succeeds h.block (f ⟨⟩)) :
    Completes (setHeader p slot >>= fun _ => if q ≠ 0 then setBackSpan q span >>= f else f ⟨⟩)
      h := by
  refine completes_setElement_iff.2 ⟨hp, ?_⟩
  let u := h.setWord p slot.encode
  by_cases h0 : q = 0
  · simp only [h0, ne_eq, not_true_eq_false, if_false]
    exact Succeeds.completes (h := u) hf
  · obtain ⟨hne, behind, hbehind⟩ := hq h0
    have hread : u.header q = .ok behind := (SlotHeap.header_setWord_of_ne hne).trans hbehind
    let t := u.setWord q { behind with back := span }.encode
    have htold : setBackSpan q span u = (.ok (), t) :=
      (setBackSpan_apply hread span).trans (setElement_apply (header_ok hread).1 _)
    simp only [ne_eq, h0, not_false_eq_true, if_true]
    exact (completes_bind_iff htold).2 (Succeeds.completes (h := t) hf)

end Binds

section Merges

variable {h : SlotHeap} {p c n : Nat} {prev current next : SlotHeader}

theorem succeeds_moveHead (b : SlotBlock) (position head : Nat) :
    Succeeds b (updateBlock fun b =>
      if b.freeHead = position then { b with freeHead := head } else b) := by
  refine succeeds_updateBlock fun b => ?_
  split <;> exact ⟨rfl, rfl, rfl, rfl⟩

theorem completes_mergePrevious (hp : h.block.InRange p) (hc : h.block.InRange c)
    (hn : n ≠ 0 → p ≠ n ∧ ∃ slot, h.header n = .ok slot) :
    Completes (mergePrevious p prev c current n) h :=
  completes_told hp hn (succeeds_setElement hc 0)

theorem completes_mergeNext (hc : 0 < c) (hcn : c < n) (ht : h.Threaded n)
    (hnn : h.block.following n next ≠ 0 → c ≠ h.block.following n next ∧
      ∃ slot, h.header (h.block.following n next) = .ok slot) :
    Completes (mergeNext c current n next) h := by
  obtain ⟨npf, hnpf, hprevious⟩ := ht.previous
  obtain ⟨nnf, hnnf, hnext⟩ := ht.next
  have hrange : ∀ q, 0 < q → q ≤ n + 2 → h.block.InRange q := fun q => ht.inRange.le
  unfold mergeNext
  refine (completes_bind_iff (previousFree_gives hnpf)).2 ((completes_bind_iff (nextFree_gives hnnf)).2 ?_)
  refine (completes_bind_iff (ask_apply h)).2 ?_
  refine completes_told (hrange c hc (by omega)) hnn ?_
  refine succeeds_when (fun h0 => succeeds_setElement (hprevious h0).2 _) ?_
  refine succeeds_when (fun h0 => succeeds_setElement (hnext h0).1 _) ?_
  refine succeeds_bind (succeeds_setElement (hrange _ (by omega) (by omega)) _) fun _ => ?_
  refine succeeds_bind (succeeds_setElement (hrange _ (by omega) (by omega)) _) fun _ => ?_
  refine succeeds_bind (succeeds_moveHead _ n c) fun _ => ?_
  exact succeeds_setElement (hrange n (by omega) (by omega)) 0

theorem completes_mergeAll (hp : 0 < p) (hpc : p < c) (hcn : c < n) (htp : h.Threaded p)
    (htn : h.Threaded n) (hnn : h.block.following n next ≠ 0 → p ≠ h.block.following n next ∧
      ∃ slot, h.header (h.block.following n next) = .ok slot) :
    Completes (mergeAll p prev c current n next) h := by
  obtain ⟨ppf, hppf, -⟩ := htp.previous
  obtain ⟨pnf, hpnf, -⟩ := htp.next
  obtain ⟨npf, hnpf, hprevious⟩ := htn.previous
  obtain ⟨nnf, hnnf, hnext⟩ := htn.next
  have hrange : ∀ q, 0 < q → q ≤ n + 2 → h.block.InRange q := fun q => htn.inRange.le
  have hclear : Succeeds h.block (do
      clearHeader c
      clearHeader n
      updateBlock fun b => { b with freeCount := wrapSub b.freeCount 1 }) := by
    refine succeeds_bind (succeeds_setElement (hrange c (by omega) (by omega)) 0) fun _ => ?_
    refine succeeds_bind (succeeds_setElement (hrange n (by omega) (by omega)) 0) fun _ => ?_
    exact succeeds_updateBlock fun b => ⟨rfl, rfl, rfl, rfl⟩
  unfold mergeAll
  refine (completes_bind_iff (previousFree_gives hppf)).2 ((completes_bind_iff (nextFree_gives hpnf)).2 ?_)
  refine (completes_bind_iff (previousFree_gives hnpf)).2 ((completes_bind_iff (nextFree_gives hnnf)).2 ?_)
  refine (completes_bind_iff (ask_apply h)).2 ?_
  refine completes_told (hrange p hp (by omega)) hnn ?_
  refine succeeds_ite (fun _ => ?_) fun _ => succeeds_ite (fun _ => ?_) fun _ => ?_
  · refine succeeds_bind (succeeds_setElement (hrange _ (by omega) (by omega)) _) fun _ => ?_
    exact succeeds_when (fun h0 => succeeds_setElement (hnext h0).1 _) hclear
  · refine succeeds_bind (succeeds_setElement (hrange _ (by omega) (by omega)) _) fun _ => ?_
    refine succeeds_ite (fun _ => ?_) fun h0 => ?_
    · exact succeeds_bind (succeeds_updateBlock fun b => ⟨rfl, rfl, rfl, rfl⟩) fun _ => hclear
    · exact succeeds_bind (succeeds_setElement (hprevious h0).2 _) fun _ => hclear
  · refine succeeds_when (fun h0 => succeeds_setElement (hprevious h0).2 _) ?_
    refine succeeds_when (fun h0 => succeeds_setElement (hnext h0).1 _) ?_
    exact succeeds_bind (succeeds_moveHead _ n nnf) fun _ => hclear

theorem completes_pushFront_iff (hc : 0 < c)
    (hhead : h.block.freeHead ≠ 0 → h.block.InRange (h.block.freeHead + 1)) :
    Completes (pushFront c current) h ↔ h.block.InRange (c + 2) := by
  unfold pushFront
  constructor
  · intro hrun
    obtain ⟨-, hrun⟩ := completes_setElement_iff.1 hrun
    obtain ⟨-, hrun⟩ := completes_setElement_iff.1 hrun
    exact (completes_setElement_iff.1 hrun).1
  · intro hroom
    have hrange : ∀ q, 0 < q → q ≤ c + 2 → h.block.InRange q := fun q => hroom.le
    let u := h.setWord c { current with status := .free }.encode
    refine completes_setElement_iff.2 ⟨hrange c hc (by omega), ?_⟩
    refine (completes_bind_iff (ask_apply u)).2 (Succeeds.completes (h := u) ?_)
    refine succeeds_bind (succeeds_setElement (hrange _ (by omega) (by omega)) _) fun _ => ?_
    refine succeeds_bind (succeeds_setElement (hrange _ (by omega) (by omega)) _) fun _ => ?_
    refine succeeds_when (fun h0 => succeeds_setElement (hhead h0) _) ?_
    exact succeeds_updateBlock fun b => ⟨rfl, rfl, rfl, rfl⟩

end Merges

end SlotStep

end AffinityHeap
