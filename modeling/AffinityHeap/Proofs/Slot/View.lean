import AffinityHeap.Slot.Allocate
import AffinityHeap.Slot.Release
import Mathlib.Logic.Function.Basic

namespace AffinityHeap

structure SlotView where
  block : SlotBlock
  word : Nat → UInt32

namespace SlotView

def setWord (v : SlotView) (p : Nat) (w : UInt32) : SlotView :=
  { v with word := Function.update v.word p w }

def setBlock (v : SlotView) (f : SlotBlock → SlotBlock) : SlotView := { v with block := f v.block }

theorem word_setWord (v : SlotView) (p q : Nat) (w : UInt32) :
    (v.setWord p w).word q = if q = p then w else v.word q := by
  simp [setWord, Function.update_apply]

@[simp] theorem block_setWord (v : SlotView) (p : Nat) (w : UInt32) :
    (v.setWord p w).block = v.block := rfl

@[simp] theorem word_setBlock (v : SlotView) (f : SlotBlock → SlotBlock) :
    (v.setBlock f).word = v.word := rfl

@[simp] theorem block_setBlock (v : SlotView) (f : SlotBlock → SlotBlock) :
    (v.setBlock f).block = f v.block := rfl

@[simp] theorem setWord_setBlock (v : SlotView) (f : SlotBlock → SlotBlock) (p : Nat)
    (w : UInt32) : (v.setBlock f).setWord p w = (v.setWord p w).setBlock f := rfl

@[simp] theorem setBlock_setBlock (v : SlotView) (f g : SlotBlock → SlotBlock) :
    (v.setBlock f).setBlock g = v.setBlock fun b => g (f b) := rfl

theorem ext_word {v w : SlotView} (hblock : v.block = w.block) (hword : ∀ q, v.word q = w.word q) :
    v = w := by
  obtain ⟨b, f⟩ := v
  obtain ⟨c, g⟩ := w
  obtain rfl : b = c := hblock
  obtain rfl : f = g := funext hword
  rfl

end SlotView

namespace SlotHeap

def view (h : SlotHeap) : SlotView := ⟨h.block, h.word⟩

theorem view_setWord (h : SlotHeap) (p : Nat) (w : UInt32) :
    (h.setWord p w).view = h.view.setWord p w := by
  simp only [view, SlotView.setWord, SlotView.mk.injEq]
  refine ⟨rfl, funext fun q => ?_⟩
  rw [word_setWord, Function.update_apply]
  simp only [eq_comm]

section Congr

variable {h h' : SlotHeap} {p : Nat}

theorem header_congr (he : h'.element p = h.element p) : h'.header p = h.header p := by
  rw [header_eq, header_eq, he]

theorem link_congr (he : h'.element p = h.element p) : h'.link p = h.link p := by
  rw [link_eq, link_eq, he]

end Congr

structure Confined (h h' : SlotHeap) : Prop where
  buffer : h'.block.buffer = h.block.buffer
  outside : ∀ i, i < h.block.wordIndex 0 ∨ h.block.wordIndex h.block.buffer.len ≤ i →
    h'.memory.word i = h.memory.word i

namespace Confined

theorem refl (h : SlotHeap) : h.Confined h := ⟨rfl, fun _ _ => rfl⟩

theorem trans {a b c : SlotHeap} (hab : a.Confined b) (hbc : b.Confined c) : a.Confined c := by
  refine ⟨hbc.buffer.trans hab.buffer, fun i hi => ?_⟩
  have hb : i < b.block.wordIndex 0 ∨ b.block.wordIndex b.block.buffer.len ≤ i := by
    simpa only [SlotBlock.wordIndex, hab.buffer] using hi
  exact (hbc.outside i hb).trans (hab.outside i hi)

theorem setWord {h h' : SlotHeap} {p : Nat} (hc : h.Confined h') (hp : p < h.block.buffer.len)
    (w : UInt32) : h.Confined (h'.setWord p w) := by
  refine ⟨hc.buffer, fun i hi => ?_⟩
  rw [← hc.outside i hi]
  simp only [SlotHeap.setWord, Memory.word_setWord, SlotBlock.wordIndex, hc.buffer] at hi ⊢
  rw [if_neg (by omega)]

end Confined

end SlotHeap

namespace SlotBlock

variable {b b' : SlotBlock} {m m' : Memory}

/-- Writes words of the buffer one after the other. -/
def store (b : SlotBlock) (l : List (Nat × UInt32)) (m : Memory) : Memory :=
  l.foldl (fun m w => m.setWord (b.wordIndex w.1) w.2) m

theorem store_append (b : SlotBlock) (l l' : List (Nat × UInt32)) (m : Memory) :
    b.store (l ++ l') m = b.store l' (b.store l m) := List.foldl_append ..

theorem store_of_buffer (hb : b'.buffer = b.buffer) (l : List (Nat × UInt32)) (m : Memory) :
    b'.store l m = b.store l m := by
  simp only [store, wordIndex, hb]

theorem word_store_congr {i : Nat} (h : m.word i = m'.word i) (l : List (Nat × UInt32)) :
    (b.store l m).word i = (b.store l m').word i := by
  induction l generalizing m m' with
  | nil => exact h
  | cons w l ih =>
      refine ih ?_
      rw [Memory.word_setWord, Memory.word_setWord, h]

end SlotBlock

namespace SlotStep

variable {α β : Type} {v u w : SlotView} {a : α} {b : β}

theorem header_ok {h : SlotHeap} {c : Nat} {slot : SlotHeader}
    (hhead : h.header c = .ok slot) :
    h.block.InRange c ∧ SlotHeader.decode (h.word c) c = .ok slot := by
  by_cases hc : h.block.InRange c
  · exact ⟨hc, SlotHeap.header_of_inRange hc ▸ hhead⟩
  · rw [SlotHeap.header_eq, SlotHeap.element, if_neg hc] at hhead
    cases hhead

section Reads

variable {x y : SlotStep α} {f : α → SlotStep β} {c : Prop} [Decidable c]

/-- The step leaves every heap as it was. -/
structure Reads (x : SlotStep α) : Prop where
  heap : ∀ h : SlotHeap, (x h).2 = h

theorem reads_answer (r : Except Corruption α) : Reads (answer r) := ⟨fun _ => rfl⟩

theorem reads_ask : Reads ask := ⟨fun _ => rfl⟩

theorem reads_look (walk : Walk) (position : Nat) : Reads (look walk position) := ⟨fun _ => rfl⟩

theorem reads_header (position : Nat) : Reads (header position) :=
  ⟨fun h => by rw [header_apply]⟩

theorem reads_link (position : Nat) : Reads (link position) := ⟨fun h => by rw [link_apply]⟩

theorem reads_bind (hx : Reads x) (hf : ∀ a, Reads (f a)) : Reads (x >>= f) := by
  refine ⟨fun h => ?_⟩
  have hheap := hx.heap h
  rw [bind_apply]
  revert hheap
  rcases x h with ⟨e | a, h'⟩
  · exact id
  · rintro rfl
    exact (hf a).heap h'

theorem reads_ite (hx : Reads x) (hy : Reads y) : Reads (if c then x else y) := by
  split
  · exact hx
  · exact hy

theorem reads_when {x : SlotStep PUnit} {f : PUnit → SlotStep β} (hx : Reads x)
    (hf : Reads (f ⟨⟩)) : Reads (if c then x >>= f else f ⟨⟩) :=
  reads_ite (reads_bind hx fun _ => hf) hf

theorem attempt_apply (x : SlotStep α) (h : SlotHeap) :
    x.attempt h = (.ok (x h).1, (x h).2) := by
  induction x generalizing h with
  | answer r => rfl
  | block next ih => exact ih _ h
  | update g next ih => exact ih _
  | visit walk position next ih => exact ih h
  | read position next ih => exact ih _ h
  | write position w next ih => exact ih _ _

variable {h h' : SlotHeap} {r : Except Corruption α} {b : β}

section Gives

variable {p q : Nat} {slot : SlotHeader}

theorem attempt_gives (hx : x h = (r, h')) : x.attempt h = (.ok r, h') := by
  rw [attempt_apply, hx]

theorem answer_gives (hr : r = .ok a) : answer r h = (.ok a, h) := by rw [hr, answer_apply]

theorem header_gives (hslot : h.header p = .ok slot) : header p h = (.ok slot, h) := by
  rw [header_apply, hslot]

theorem previousFree_gives (hq : h.previousFree p = .ok q) : previousFree p h = (.ok q, h) := by
  rw [previousFree_apply, hq]

theorem nextFree_gives (hq : h.nextFree p = .ok q) : nextFree p h = (.ok q, h) := by
  rw [nextFree_apply, hq]

end Gives

/-- A step whose answer is known makes way for what follows. -/
theorem bind_of_apply (f : α → SlotStep β) : x h = (r, h') → (x >>= f) h = match r with
    | .ok a => f a h'
    | .error e => (.error e, h') := by
  intro hx
  rw [bind_apply, hx]
  cases r <;> rfl

theorem ask_bind (f : SlotBlock → SlotStep β) (h : SlotHeap) :
    (ask >>= f) h = f h.block h := rfl

theorem answer_bind (r : Except Corruption α) (f : α → SlotStep β) (h : SlotHeap) :
    (answer r >>= f) h = match r with
      | .ok a => f a h
      | .error e => (.error e, h) := bind_of_apply f rfl

theorem header_bind (p : Nat) (f : SlotHeader → SlotStep β) (h : SlotHeap) :
    (header p >>= f) h = match h.header p with
      | .ok a => f a h
      | .error e => (.error e, h) := by
  rw [bind_of_apply f (header_apply h p)]
  cases h.header p <;> rfl

theorem bind_eq_ok (hx : Reads x) :
    ((x >>= f) h).1 = .ok b ↔ ∃ a, (x h).1 = .ok a ∧ (f a h).1 = .ok b := by
  rw [bind_of_apply f (Prod.ext rfl (hx.heap h) : x h = ((x h).1, h))]
  cases (x h).1 with
  | error e => exact ⟨fun hb => (nomatch hb), fun ⟨_, ha, _⟩ => (nomatch ha)⟩
  | ok a => exact ⟨fun hb => ⟨a, rfl, hb⟩, fun ⟨_, ha, hb⟩ => Except.ok.inj ha ▸ hb⟩

theorem guard_eq_ok {e : Corruption} {f : PUnit → SlotStep β} :
    ((if c then fail e >>= f else f ⟨⟩ : SlotStep β) h).1 = .ok b ↔ ¬ c ∧ (f ⟨⟩ h).1 = .ok b := by
  by_cases hc : c
  · rw [if_pos hc]
    exact ⟨fun hb => (nomatch hb), fun hb => absurd hc hb.1⟩
  · rw [if_neg hc]
    exact ⟨fun hb => ⟨hc, hb⟩, fun hb => hb.2⟩

theorem last_guard_eq_ok {e : Corruption} {u : PUnit} :
    ((if c then fail e else pure ⟨⟩ : SlotStep PUnit) h).1 = .ok u ↔ ¬ c := by
  by_cases hc : c
  · rw [if_pos hc]
    exact ⟨fun hu => (nomatch hu), fun hu => absurd hc hu⟩
  · rw [if_neg hc]
    exact ⟨fun _ => hc, fun _ => rfl⟩

end Reads

/-- From every heap that looks like `v` the step gives `a` and ends where the heap looks like
`v'`, all else in memory untouched. -/
structure Yields (x : SlotStep α) (v : SlotView) (a : α) (v' : SlotView) : Prop where
  run : ∀ h : SlotHeap, h.view = v → ∃ h', x h = (.ok a, h') ∧ h'.view = v' ∧ h.Confined h'

theorem yields_pure (a : α) (v : SlotView) : Yields (pure a) v a v :=
  ⟨fun h hv => ⟨h, rfl, hv, .refl h⟩⟩

theorem yields_bind {x : SlotStep α} {f : α → SlotStep β} (hx : Yields x v a u)
    (hf : Yields (f a) u b w) : Yields (x >>= f) v b w := by
  refine ⟨fun h hv => ?_⟩
  obtain ⟨h₁, hrun, hu, hc⟩ := hx.run h hv
  obtain ⟨h₂, hrun₂, hw, hc₂⟩ := hf.run h₁ hu
  exact ⟨h₂, by rw [bind_apply, hrun]; exact hrun₂, hw, hc.trans hc₂⟩

theorem Yields.to {x : SlotStep α} (h : Yields x v a u) (hu : u = w) : Yields x v a w := hu ▸ h

theorem Yields.of {x : SlotStep α} (hu : w = u) (h : Yields x u a v) : Yields x w a v := hu ▸ h

theorem yields_map {x : SlotStep α} (f : α → β) (hx : Yields x v a u) :
    Yields (f <$> x) v (f a) u := by
  rw [map_eq_pure_bind]
  exact yields_bind hx (yields_pure _ _)

theorem yields_ite {c : Prop} [Decidable c] {x y : SlotStep α} (hx : c → Yields x v a u)
    (hy : ¬ c → Yields y v a u) : Yields (if c then x else y) v a u := by
  split
  · exact hx ‹c›
  · exact hy ‹¬ c›

theorem yields_when {c : Prop} [Decidable c] {x : SlotStep Unit} {f : Unit → SlotStep β}
    (hx : c → Yields x v () u) (hn : ¬ c → v = u) (hf : Yields (f ()) u b w) :
    Yields (if c then x >>= f else f ()) v b w :=
  yields_ite (fun hc => yields_bind (hx hc) hf) (fun hc => hn hc ▸ hf)

theorem yields_ask {f : SlotBlock → SlotStep β} (hf : Yields (f v.block) v b u) :
    Yields (ask >>= f) v b u := by
  refine ⟨?_⟩
  rintro h rfl
  exact hf.run h rfl

/-- A step that only reads. -/
theorem yields_of_apply {x : SlotStep α} (hx : ∀ h : SlotHeap, h.view = v → x h = (.ok a, h)) :
    Yields x v a v := ⟨fun h hv => ⟨h, hx h hv, hv, .refl h⟩⟩

theorem yields_answer {r : Except Corruption α} (hr : r = .ok a) : Yields (answer r) v a v :=
  yields_of_apply fun _ _ => answer_gives hr

theorem yields_look (walk : Walk) (position : Nat) : Yields (look walk position) v () v :=
  yields_of_apply fun _ _ => rfl

theorem yields_of_header {p : Nat} {slot : SlotHeader}
    (hp : ∀ h : SlotHeap, h.view = v → h.header p = .ok slot) : Yields (header p) v slot v :=
  yields_of_apply fun h hv => header_gives (hp h hv)

theorem yields_link {p : Nat} (hp : v.block.InRange p) :
    Yields (link p) v (v.word p).toNat v := by
  refine yields_of_apply ?_
  rintro h rfl
  rw [link_apply, SlotHeap.link_of_inRange hp]
  rfl

theorem yields_setElement {p : Nat} (hp : v.block.InRange p) (w : UInt32) :
    Yields (setElement p w) v () (v.setWord p w) := by
  refine ⟨?_⟩
  rintro h rfl
  exact ⟨h.setWord p w, setElement_apply hp w, h.view_setWord p w, .setWord (.refl h) hp.2.2 w⟩

section Writes

variable {c : SlotBlock} {p : Nat}

theorem yields_setHeader (hp : c.InRange p) (slot : SlotHeader) (hc : v.block = c := by rfl) :
    Yields (setHeader p slot) v () (v.setWord p slot.encode) := yields_setElement (hc ▸ hp) _

theorem yields_setPreviousFree (hp : c.InRange (p + 1)) (x : Nat) (hc : v.block = c := by rfl) :
    Yields (setPreviousFree p x) v () (v.setWord (p + 1) (UInt32.ofNat x)) :=
  yields_setElement (hc ▸ hp) _

theorem yields_setNextFree (hp : c.InRange (p + 2)) (x : Nat) (hc : v.block = c := by rfl) :
    Yields (setNextFree p x) v () (v.setWord (p + 2) (UInt32.ofNat x)) :=
  yields_setElement (hc ▸ hp) _

theorem yields_clearHeader (hp : c.InRange p) (hc : v.block = c := by rfl) :
    Yields (clearHeader p) v () (v.setWord p 0) := yields_setElement (hc ▸ hp) _

end Writes

theorem yields_updateBlock {f : SlotBlock → SlotBlock}
    (hf : ∀ b, (f b).buffer = b.buffer := by intro; rfl) :
    Yields (updateBlock f) v () (v.setBlock f) := by
  refine ⟨?_⟩
  rintro h rfl
  refine ⟨{ h with block := f h.block }, rfl, ?_, hf _, fun _ _ => rfl⟩
  simp only [SlotHeap.view, SlotView.setBlock, SlotView.mk.injEq, true_and]
  funext q
  simp only [SlotHeap.word, SlotBlock.wordIndex, hf]

end SlotStep

end AffinityHeap
