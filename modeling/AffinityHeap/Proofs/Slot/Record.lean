import AffinityHeap.Proofs.Slot.Heap

namespace AffinityHeap

inductive Access where
  | visit (walk : Walk) (position : Nat)
  | read (position : Nat)
  | write (position : Nat) (w : UInt32)
  deriving DecidableEq

namespace Access

def isVisit (walk : Walk) : Access → Bool
  | visit walk' _ => walk' == walk
  | _ => false

def write? : Access → Option (Nat × UInt32)
  | write position w => some (position, w)
  | _ => none

/-- The position of a word that is read or written. -/
def word? : Access → Option Nat
  | visit .. => none
  | read position => some position
  | write position _ => some position

/-- How many positions a walk looked at. -/
def visits (walk : Walk) (log : List Access) : Nat := log.countP (·.isVisit walk)

def writes (log : List Access) : List (Nat × UInt32) := log.filterMap write?

variable (walk : Walk) (log rest : List Access)

theorem visits_append : visits walk (log ++ rest) = visits walk log + visits walk rest :=
  List.countP_append ..

theorem writes_append : writes (log ++ rest) = writes log ++ writes rest :=
  List.filterMap_append ..

end Access

namespace SlotStep

open Access (visits writes visits_append writes_append)

variable {α β : Type}

/-- What a step does on a heap in order, also where it fails in the end. A word outside the chain is
refused and not touched. -/
def log : SlotStep α → SlotHeap → List Access
  | answer _, _ => []
  | block next, h => (next h.block).log h
  | update f next, h => next.log { h with block := f h.block }
  | visit walk position next, h => .visit walk position :: next.log h
  | read position next, h =>
      let rest := (next (h.element position)).log h
      if h.block.InRange position then .read position :: rest else rest
  | write position w next, h =>
      let (r, h') := h.setElement position w
      let rest := (next r).log h'
      if h.block.InRange position then .write position w :: rest else rest

theorem log_bind (x : SlotStep α) (f : α → SlotStep β) (h : SlotHeap) :
    (x >>= f).log h = x.log h ++ match x h with
      | (.ok a, h) => (f a).log h
      | (.error _, _) => [] := by
  show (x.andThen f).log h = _
  induction x generalizing h with
  | answer r => cases r <;> rfl
  | block next ih => exact ih _ h
  | update g next ih => exact ih _
  | visit walk position next ih => exact congrArg _ (ih h)
  | read position next ih =>
      have hrest := ih (h.element position) h
      simp only [andThen, log, run, hrest]
      split <;> rfl
  | write position w next ih =>
      have hrest := ih (h.setElement position w).1 (h.setElement position w).2
      simp only [andThen, log, run, hrest]
      split <;> rfl

/-- Of the walks it makes, a step looks at no more than `m` positions along the chain and `n` along
the free list, and it keeps the block's extent. -/
inductive Bounded : Nat → Nat → SlotStep α → Prop where
  | answer {m n : Nat} (r : Except Corruption α) : Bounded m n (answer r)
  | block {m n : Nat} {next : SlotBlock → SlotStep α} (hnext : ∀ b, Bounded m n (next b)) :
      Bounded m n (block next)
  | update {m n : Nat} {f : SlotBlock → SlotBlock} {next : SlotStep α}
      (hf : ∀ b : SlotBlock, b.Like (f b)) (hnext : Bounded m n next) : Bounded m n (update f next)
  | chain {m n : Nat} (position : Nat) {next : SlotStep α} (hnext : Bounded m n next) :
      Bounded (m + 1) n (visit .chain position next)
  | list {m n : Nat} (position : Nat) {next : SlotStep α} (hnext : Bounded m n next) :
      Bounded m (n + 1) (visit .list position next)
  | read {m n : Nat} (position : Nat) {next : Except Corruption UInt32 → SlotStep α}
      (hnext : ∀ r, Bounded m n (next r)) : Bounded m n (read position next)
  | write {m n : Nat} (position : Nat) (w : UInt32) {next : Except Corruption Unit → SlotStep α}
      (hnext : ∀ r, Bounded m n (next r)) : Bounded m n (write position w next)

/-- All a step does is in its log: no word of memory that is not read there matters to it, the
writes there are what it leaves behind, and none of these words lies outside the chain. -/
structure Logged (x : SlotStep α) (h : SlotHeap) (m n : Nat) : Prop where
  touched : ∀ a ∈ x.log h, ∀ p ∈ a.word?, h.block.InRange p
  chain : visits .chain (x.log h) ≤ m
  list : visits .list (x.log h) ≤ n
  told : ∀ memory : Memory,
    (∀ p, .read p ∈ x.log h → memory.word (h.block.wordIndex p) = h.word p) →
      x ⟨h.block, memory⟩ =
          ((x h).1, ⟨(x h).2.block, h.block.store (writes (x.log h)) memory⟩) ∧
        x.log ⟨h.block, memory⟩ = x.log h

theorem Bounded.mono {m n m' n' : Nat} {x : SlotStep α} (hx : Bounded m n x) (hm : m ≤ m')
    (hn : n ≤ n') : Bounded m' n' x := by
  induction hx generalizing m' n' with
  | answer r => exact .answer r
  | block _ ih => exact .block fun b => ih b hm hn
  | update hf _ ih => exact .update hf (ih hm hn)
  | chain position _ ih =>
      obtain ⟨k, rfl⟩ := Nat.exists_eq_add_of_le' (Nat.le_trans (Nat.le_add_left ..) hm)
      exact .chain position (ih (Nat.le_of_succ_le_succ hm) hn)
  | list position _ ih =>
      obtain ⟨k, rfl⟩ := Nat.exists_eq_add_of_le' (Nat.le_trans (Nat.le_add_left ..) hn)
      exact .list position (ih hm (Nat.le_of_succ_le_succ hn))
  | read position _ ih => exact .read position fun r => ih r hm hn
  | write position w _ ih => exact .write position w fun r => ih r hm hn

section Binds

variable {x y : SlotStep α} {f : α → SlotStep β} {h : SlotHeap} {m n k l : Nat} {c : Prop}
  [Decidable c]

theorem bounded_bind (hx : Bounded m n x) (hf : ∀ a, Bounded k l (f a)) :
    Bounded (m + k) (n + l) (x >>= f) := by
  show Bounded _ _ (x.andThen f)
  induction hx with
  | answer r =>
      cases r with
      | error e => exact .answer _
      | ok a => exact (hf a).mono (Nat.le_add_left ..) (Nat.le_add_left ..)
  | block _ ih => exact .block ih
  | update hg _ ih => exact .update hg ih
  | @chain m n position _ _ ih => exact Nat.succ_add m k ▸ .chain position ih
  | @list m n position _ _ ih => exact Nat.succ_add n l ▸ .list position ih
  | read position _ ih => exact .read position ih
  | write position w _ ih => exact .write position w ih

/-- A step of no walk in front of another. -/
theorem bounded_then (hx : Bounded 0 0 x) (hf : ∀ a, Bounded m n (f a)) :
    Bounded m n (x >>= f) :=
  (Nat.zero_add m ▸ Nat.zero_add n ▸ bounded_bind hx hf :)

theorem bounded_map (g : α → β) (hx : Bounded m n x) : Bounded m n (g <$> x) := by
  rw [map_eq_pure_bind]
  exact bounded_bind (k := 0) (l := 0) hx fun a => .answer (.ok (g a))

theorem bounded_ite (hx : Bounded m n x) (hy : Bounded m n y) :
    Bounded m n (if c then x else y) := by
  split
  · exact hx
  · exact hy

theorem bounded_when {x : SlotStep PUnit} {f : PUnit → SlotStep β} (hx : Bounded 0 0 x)
    (hf : Bounded m n (f ⟨⟩)) : Bounded m n (if c then x >>= f else f ⟨⟩) :=
  bounded_ite (bounded_then hx fun _ => hf) hf

theorem bounded_attempt (hx : Bounded m n x) : Bounded m n x.attempt := by
  induction hx with
  | answer r => exact .answer _
  | block _ ih => exact .block ih
  | update hg _ ih => exact .update hg ih
  | chain position _ ih => exact .chain position ih
  | list position _ ih => exact .list position ih
  | read position _ ih => exact .read position ih
  | write position w _ ih => exact .write position w ih

end Binds

section Logged

variable {x y : SlotStep α} {h : SlotHeap} {m n p : Nat}

/-- What is done with the block a step has looked up. -/
theorem logged_ask {f : SlotBlock → SlotStep α} (hf : Logged (f h.block) h m n) :
    Logged (ask >>= f) h m n := ⟨hf.touched, hf.chain, hf.list, hf.told⟩

theorem logged_answer (r : Except Corruption α) (h : SlotHeap) : Logged (answer r) h m n :=
  ⟨fun _ ha => (nomatch ha), Nat.zero_le _, Nat.zero_le _, fun _ _ => ⟨rfl, rfl⟩⟩

theorem logged_congr (hxy : ∀ memory, x ⟨h.block, memory⟩ = y ⟨h.block, memory⟩ ∧
    x.log ⟨h.block, memory⟩ = y.log ⟨h.block, memory⟩) (hy : Logged y h m n) : Logged x h m n := by
  obtain ⟨hrun, hlog⟩ := hxy h.memory
  constructor <;> rw [show x.log h = y.log h from hlog]
  · exact hy.touched
  · exact hy.chain
  · exact hy.list
  · intro memory hmem
    obtain ⟨hrun', hlog'⟩ := hxy memory
    rw [show x h = y h from hrun, hrun', hlog']
    exact hy.told memory hmem

theorem logged_update {f : SlotBlock → SlotBlock} (hf : h.block.Like (f h.block))
    (hx : Logged x { h with block := f h.block } m n) : Logged (update f x) h m n := by
  have hindex : ∀ q, (f h.block).wordIndex q = h.block.wordIndex q := fun q => by
    rw [SlotBlock.wordIndex, SlotBlock.wordIndex, hf.buffer]
  refine ⟨fun a ha q hq => ?_, hx.chain, hx.list, fun memory hmem => ?_⟩
  · have hin := hx.touched a ha q hq
    rwa [SlotBlock.InRange, hf.capacity, hf.buffer] at hin
  · obtain ⟨hrun, hlog⟩ := hx.told memory fun q hq => by
      rw [SlotHeap.word, hindex]
      exact hmem q hq
    refine ⟨?_, hlog⟩
    rw [← SlotBlock.store_of_buffer hf.buffer]
    exact hrun

/-- An access in front of what `y` does. -/
theorem logged_cons (access : Access) (hin : ∀ p ∈ access.word?, h.block.InRange p)
    (hstep : ∀ memory : Memory,
      (∀ p, access = .read p → memory.word (h.block.wordIndex p) = h.word p) →
        x ⟨h.block, memory⟩ = y ⟨h.block, h.block.store (writes [access]) memory⟩ ∧
          x.log ⟨h.block, memory⟩ =
            access :: y.log ⟨h.block, h.block.store (writes [access]) memory⟩)
    (hy : Logged y ⟨h.block, h.block.store (writes [access]) h.memory⟩ m n) :
    Logged x h (visits .chain [access] + m) (visits .list [access] + n) := by
  let t : SlotHeap := ⟨h.block, h.block.store (writes [access]) h.memory⟩
  obtain ⟨hrun, hlog⟩ := hstep h.memory fun p _ => rfl
  have hrun : x h = y t := hrun
  have hlog : x.log h = [access] ++ y.log t := hlog
  constructor <;> rw [hlog]
  · exact List.forall_mem_cons.2 ⟨hin, hy.touched⟩
  · rw [visits_append]
    exact Nat.add_le_add_left hy.chain _
  · rw [visits_append]
    exact Nat.add_le_add_left hy.list _
  · intro memory hmem
    obtain ⟨hrun', hlog'⟩ := hstep memory fun p hp => hmem p (by simp [hp])
    -- What the rest reads is what was written first or else what was there before.
    obtain ⟨hrest, hrestlog⟩ := hy.told (h.block.store (writes [access]) memory) fun p hp =>
      SlotBlock.word_store_congr (hmem p (List.mem_cons_of_mem _ hp)) _
    rw [hrun', hrest, hlog', hrestlog, hrun, writes_append, SlotBlock.store_append]
    exact ⟨rfl, rfl⟩

theorem logged_read {next : Except Corruption UInt32 → SlotStep α}
    (hnext : Logged (next (h.element p)) h m n) : Logged (read p next) h m n := by
  by_cases hin : h.block.InRange p
  · have hcons := logged_cons (.read p) (x := read p next) (m := m) (n := n)
      (fun q hq => Option.some.inj hq ▸ hin) (fun memory hmem => ?_) hnext
    · exact (Nat.zero_add m ▸ Nat.zero_add n ▸ hcons :)
    · have helement : SlotHeap.element ⟨h.block, memory⟩ p = h.element p := by
        rw [SlotHeap.element, SlotHeap.element, if_pos hin, if_pos hin, SlotHeap.word, hmem p rfl]
      rw [← helement]
      exact ⟨rfl, if_pos hin⟩
  · have helement : ∀ memory, SlotHeap.element ⟨h.block, memory⟩ p = h.element p := fun memory =>
      (if_neg hin).trans (if_neg hin).symm
    refine logged_congr (fun memory => ?_) hnext
    rw [← helement memory]
    exact ⟨rfl, if_neg hin⟩

theorem logged_write {w : UInt32} {next : Except Corruption Unit → SlotStep α}
    (hnext : ∀ r t, Logged (next r) t m n) : Logged (write p w next) h m n := by
  by_cases hin : h.block.InRange p
  · have hcons := logged_cons (.write p w) (x := write p w next) (y := next (.ok ()))
      (m := m) (n := n) (fun q hq => Option.some.inj hq ▸ hin) (fun memory _ => ?_) (hnext _ _)
    · exact (Nat.zero_add m ▸ Nat.zero_add n ▸ hcons :)
    · have hset : SlotHeap.setElement ⟨h.block, memory⟩ p w =
          (.ok (), ⟨h.block, h.block.store [(p, w)] memory⟩) := if_pos hin
      refine ⟨?_, ?_⟩
      · rw [run, hset]
        rfl
      · rw [log, hset]
        exact if_pos hin
  · refine logged_congr (y := next (.error (.positionOutOfRange p h.block.capacity)))
      (fun memory => ?_) (hnext _ _)
    have hset : SlotHeap.setElement ⟨h.block, memory⟩ p w =
        (.error (.positionOutOfRange p h.block.capacity), ⟨h.block, memory⟩) := if_neg hin
    refine ⟨?_, ?_⟩
    · rw [run, hset]
    · rw [log, hset]
      exact if_neg hin

theorem Bounded.logged (hx : Bounded m n x) (h : SlotHeap) : Logged x h m n := by
  induction hx generalizing h with
  | answer r => exact logged_answer r h
  | block _ ih =>
      have hnext := ih h.block h
      exact ⟨hnext.touched, hnext.chain, hnext.list, hnext.told⟩
  | update hf _ ih => exact logged_update (hf h.block) (ih _)
  | @chain m n position next _ ih =>
      rw [Nat.add_comm m, ← Nat.zero_add n]
      exact logged_cons (.visit .chain position) (y := next) (fun q hq => (nomatch hq))
        (fun memory _ => ⟨rfl, rfl⟩) (ih h)
  | @list m n position next _ ih =>
      rw [Nat.add_comm n, ← Nat.zero_add m]
      exact logged_cons (.visit .list position) (y := next) (fun q hq => (nomatch hq))
        (fun memory _ => ⟨rfl, rfl⟩) (ih h)
  | read position _ ih => exact logged_read (ih _ h)
  | write position w _ ih => exact logged_write fun r t => ih r t

end Logged

end SlotStep

end AffinityHeap
