import AffinityHeap.Allocator
import AffinityHeap.Proofs.Block

namespace AffinityHeap

variable {α β : Type}

/-- Nothing overflows in the computation. -/
def Quiet (x : StateM AddressSpace α) : Prop := ∀ s, (x s).2.overflowed = s.overflowed

namespace Quiet

theorem pure (a : α) : Quiet (Pure.pure a : StateM AddressSpace α) := fun _ => rfl

theorem after {x : StateM AddressSpace α} {f : α → StateM AddressSpace β} (hf : ∀ a, Quiet (f a))
    (s : AddressSpace) : ((x >>= f) s).2.overflowed = (x s).2.overflowed := hf _ _

theorem bind {x : StateM AddressSpace α} {f : α → StateM AddressSpace β} (hx : Quiet x)
    (hf : ∀ a, Quiet (f a)) : Quiet (x >>= f) := fun s => (after hf s).trans (hx s)

theorem obtain_bind {x : Obtain α} {f : α → Obtain β} (hx : Quiet x) (hf : ∀ a, Quiet (f a)) :
    Quiet (x >>= f : Obtain β) := by
  refine bind (f := ExceptT.bindCont f) hx fun r => ?_
  cases r with
  | ok a => exact hf a
  | error e => exact pure _

theorem obtain_guard {c : Prop} [Decidable c] {e : HeapError} {f : Unit → Obtain β}
    (hf : Quiet (f ())) : Quiet (if c then throw e >>= f else f () : Obtain β) := by
  split
  · exact pure _
  · exact hf

theorem request (size alignment : Nat) : Quiet (AddressSpace.request size alignment) := by
  intro s
  simp only [AddressSpace.request]
  split <;> rfl

theorem giveBack (base : Nat) : Quiet (AddressSpace.giveBack base) := fun _ => rfl

theorem onMemory (x : StateM Memory α) : Quiet (AddressSpace.onMemory x) := fun _ => rfl

theorem forM {f : α → StateM AddressSpace Unit} (hf : ∀ a, Quiet (f a)) (l : List α) :
    Quiet (l.forM f) := by
  induction l with
  | nil => exact pure ()
  | cons a l ih => exact bind (hf a) fun _ => ih

/-- What goes on from a word that is kept overflows where that did. -/
theorem keepWord_bind {n : Nat} {f : Nat → Obtain β} (hf : Quiet (f (wrap n))) (s : AddressSpace) :
    ((liftM (AddressSpace.keepWord n) >>= f : Obtain β) s).2.overflowed = s.overflows n := hf _

end Quiet

theorem Buffer.zeroed_quiet (record len alignment : Nat) : Quiet (zeroed record len alignment) := by
  unfold zeroed
  refine .obtain_guard (.obtain_guard (.obtain_bind ?_ fun answer => ?_))
  · exact .bind (.request _ _) fun _ => .pure _
  · cases answer with
    | none => exact .pure _
    | some base => exact .pure _

theorem Obtain.map_snd (f : α → β) (x : Obtain α) (s : AddressSpace) : ((f <$> x) s).2 = (x s).2 := by
  rw [map_apply]
  rcases x s with ⟨_ | _, _⟩ <;> rfl

/-- A new block overflows where the bytes that it takes do not fit in a word. -/
theorem SlotBlock.create_overflowed {alignment : Nat} (hpower : IsPowerOfTwo alignment)
    (blockSize : Nat) (s : AddressSpace) :
    (create blockSize alignment s).2.overflowed = s.overflows (roundUp blockSize (max alignment 4)) := by
  have hguard : ¬ ¬ IsPowerOfTwo (max alignment 4) :=
    not_not.2 (powerOfTwo_max hpower (isPowerOfTwo_iff.2 ⟨2, rfl⟩))
  unfold create
  rw [if_neg hguard]
  refine Quiet.keepWord_bind (.obtain_guard ?_) s
  refine .obtain_bind (Buffer.zeroed_quiet _ _ _) fun buffer => ?_
  exact .bind (.onMemory _) fun _ => .pure _

theorem SegmentBlock.create_overflowed {alignment : Nat} (hpower : IsPowerOfTwo alignment)
    (blockSize : Nat) (s : AddressSpace) :
    (create blockSize alignment s).2.overflowed =
      s.overflows (bytesFor blockSize (max alignment 1)) := by
  have hguard : ¬ ¬ IsPowerOfTwo (max alignment 1) :=
    not_not.2 (powerOfTwo_max hpower (isPowerOfTwo_iff.2 ⟨0, rfl⟩))
  unfold create
  rw [if_neg hguard]
  exact Quiet.keepWord_bind (.obtain_bind (Buffer.zeroed_quiet _ _ _) fun buffer => .pure _) s

namespace Block

theorem create_overflowed {alignment : Nat} (hpower : IsPowerOfTwo alignment) (kind : BackendKind)
    (blockSize : Nat) (s : AddressSpace) : (create kind blockSize alignment s).2.overflowed =
      s.overflows (bytesFor kind blockSize alignment) := by
  cases kind with
  | slot =>
      rw [create, Obtain.map_snd]
      exact SlotBlock.create_overflowed hpower blockSize s
  | segment =>
      rw [create, Obtain.map_snd]
      exact SegmentBlock.create_overflowed hpower blockSize s

theorem deallocate_quiet (b : Block) (address size : Nat) : Quiet (b.deallocate address size) := by
  cases b with
  | slot b => exact .bind (.onMemory _) fun _ => .pure _
  | segment b =>
      rw [deallocate]
      split <;> exact .pure _

theorem giveBack_quiet (b : Block) : Quiet b.giveBack := .giveBack b.buffer.base

end Block

namespace Pool

theorem deallocate_quiet (p : Pool) (address size : Nat) : Quiet (p.deallocate address size) := by
  rw [deallocate]
  cases p.owner? address with
  | none => exact .pure _
  | some x =>
      refine .bind (x.2.deallocate_quiet address size) fun (result, b) => ?_
      cases result with
      | error e => exact .pure _
      | ok u => exact .pure _

theorem reclaim_quiet (p : Pool) : Quiet p.reclaim :=
  .bind (.forM Block.giveBack_quiet p.emptyBlocks) fun _ => .pure _

end Pool

namespace LargeAllocations

theorem allocate_quiet (l : LargeAllocations) (size alignment : Nat) :
    Quiet (l.allocate size alignment) :=
  .obtain_bind (Buffer.zeroed_quiet 1 size alignment) fun _ => .pure _

theorem release_quiet (l : LargeAllocations) (address : Nat) : Quiet (l.release address) := by
  rw [release]
  cases l.entries.find? address with
  | none => exact .pure _
  | some a => exact .bind (.giveBack a.buffer.base) fun _ => .pure _

end LargeAllocations

namespace Level

/-- The large allocation that takes the place of a refused one does not overflow. -/
theorem allocate_overflowed (l : Level) (size : Nat) (affinity : Affinity) (s : AddressSpace) :
    (l.allocate size affinity s).2.overflowed =
      ((l.poolOf affinity).allocate size s).2.overflowed := by
  refine Quiet.after (fun (result, pool) => ?_) s
  have hlarge := (l.withPool pool).large.allocate_quiet size pool.alignment
  rcases result with e | _ | address
  · cases e with
    | corruption e => exact .pure _
    | _ =>
        refine .bind hlarge fun answer => ?_
        cases answer <;> exact .pure _
  · refine .bind hlarge fun answer => ?_
    cases answer <;> exact .pure _
  · exact .pure _

theorem deallocateAmong_quiet (address size : Nat) (pools : List Pool) (l : Level) :
    Quiet (deallocateAmong address size pools l) := by
  induction pools with
  | nil => exact .pure _
  | cons p rest ih =>
      refine .bind (p.deallocate_quiet address size) fun (result, p) => ?_
      rcases result with e | _ | _
      · exact .pure _
      · exact ih
      · exact .pure _

theorem deallocate_quiet (l : Level) (address size : Nat) : Quiet (l.deallocate address size) := by
  refine .bind (deallocateAmong_quiet address size _ l) fun (result, l) => ?_
  rcases result with e | _ | _
  · exact .pure _
  · exact .bind (l.large.release_quiet address) fun _ => .pure _
  · exact .pure _

theorem reclaimAmong_quiet (pools : List Pool) (l : Level) : Quiet (reclaimAmong pools l) := by
  induction pools generalizing l with
  | nil => exact .pure _
  | cons p rest ih => exact .bind p.reclaim_quiet fun _ => .bind (ih _) fun _ => .pure _

end Level

namespace Allocator

theorem allocate_overflowed (a : Allocator) (size : Nat) (affinity : Affinity) (s : AddressSpace) :
    (a.allocate size affinity s).2.overflowed =
      ((a.outer.poolOf affinity).allocate size s).2.overflowed :=
  a.outer.allocate_overflowed size affinity s

theorem deallocateIn_quiet (address size : Nat) (levels : List Level) :
    Quiet (deallocateIn address size levels) := by
  induction levels with
  | nil => exact .pure _
  | cons l rest ih =>
      refine .bind (l.deallocate_quiet address size) fun (result, l) => ?_
      rcases result with e | _ | _
      · exact .pure _
      · exact .bind ih fun _ => .pure _
      · exact .pure _

theorem deallocate_quiet (a : Allocator) (address size : Nat) :
    Quiet (a.deallocate address size) := by
  refine .bind (a.outer.deallocate_quiet address size) fun (result, l) => ?_
  rcases result with e | _ | _
  · exact .pure _
  · exact .bind (deallocateIn_quiet address size a.nested) fun _ => .pure _
  · exact .pure _

theorem reclaimIn_quiet (levels : List Level) : Quiet (reclaimIn levels) := by
  induction levels with
  | nil => exact .pure _
  | cons l rest ih =>
      exact .bind (Level.reclaimAmong_quiet _ l) fun _ => .bind ih fun _ => .pure _

theorem reclaim_quiet (a : Allocator) : Quiet a.reclaim :=
  .bind (Level.reclaimAmong_quiet _ a.outer) fun _ =>
    .bind (reclaimIn_quiet a.nested) fun _ => .pure _

end Allocator

end AffinityHeap
