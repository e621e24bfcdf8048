import AffinityHeap.Proofs.Allocator
import AffinityHeap.Proofs.Slot.Validate

namespace AffinityHeap

variable {live : List Grant} {m : Memory} {s : AddressSpace}

theorem Block.Keeps.validate {b : Block} (hb : b.Keeps m live) : b.validate m = .ok () := by
  cases b with
  | slot b =>
      obtain ⟨-, L, hL⟩ := hb
      exact hL.consistent.intact.validate
  | segment b =>
      have hb : b.Keeps live := hb
      exact hb.sound.validate hb.covers

theorem forM_eq_ok {α ε : Type} {f : α → Except ε Unit} {l : List α} (hl : ∀ a ∈ l, f a = .ok ()) :
    l.forM f = .ok () := by
  induction l with
  | nil => rfl
  | cons a l ih =>
      refine bind_eq_ok.2 ⟨(), hl a (List.mem_cons_self ..), ?_⟩
      exact ih fun b hb => hl b (List.mem_cons_of_mem a hb)

/-- The check passes on whatever a chain of allocators has been made to hold. -/
theorem Chain.validate {a : Allocator} {live : List Issued} (hc : Chain a.levels s live) :
    a.validate s.memory = .ok () := by
  refine forM_eq_ok fun l hl => forM_eq_ok fun p hp => forM_eq_ok fun b hb => ?_
  have hmem : .block b ∈ a.levels.flatMap Level.holders :=
    List.mem_flatMap.2 ⟨l, hl, List.mem_append_left _
      (List.mem_flatMap.2 ⟨p, hp, List.mem_map_of_mem hb⟩)⟩
  exact Block.Keeps.validate (hc.owned.keeps _ hmem)

end AffinityHeap
