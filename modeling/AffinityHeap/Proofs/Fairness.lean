import AffinityHeap.Proofs.AddressSpace
import Mathlib.Data.List.Pairwise

namespace AffinityHeap

namespace AddressSpace

variable {s s' : AddressSpace} {r q : Region} {alignment base : Nat}

/-- The next region is aligned as asked and apart from every region still held. -/
def Answers (s : AddressSpace) : Prop :=
  ∀ size alignment base, IsPowerOfTwo alignment →
    s.policy s.asked s.handed s.held size alignment = some base →
    alignment ∣ base ∧ ∀ q ∈ s.held, Region.Disjoint ⟨base, size⟩ q

/-- The system answers so from now on, whatever is asked for and given back. -/
def Fair (s : AddressSpace) : Prop := ∀ t, s.Later t → t.Answers

structure Sound (s : AddressSpace) : Prop where
  fair : s.Fair
  apart : s.held.Pairwise Region.Disjoint
  sized : ∀ r ∈ s.held, 0 < r.size

theorem Fair.later (hs : s.Fair) (h : s.Later s') : s'.Fair := fun t ht => hs t (h.trans ht)

theorem Fair.aligned (hs : s.Fair) : s.Aligned := fun size alignment base hal hp =>
  (hs s .refl size alignment base hal hp).1

theorem new_sound {p : Policy} (hp : (new p).Fair) : (new p).Sound :=
  ⟨hp, .nil, fun _ hr => absurd hr List.not_mem_nil⟩

namespace Sound

theorem refused (hs : s.Sound) (h : s.Refused s') : s'.Sound ∧ s'.held = s.held ∧
    s'.memory = s.memory := by
  obtain ⟨hlater, asked, o, -, rfl⟩ := h
  exact ⟨⟨hs.fair.later hlater, hs.apart, hs.sized⟩, rfl, rfl⟩

theorem obtained (hs : s.Sound) (h : s.Obtained s' r alignment) (hr : 0 < r.size) :
    s'.Sound ∧ alignment ∣ r.base ∧ ∀ q ∈ s.held, r.Disjoint q := by
  obtain ⟨hdvd, hapart⟩ := hs.fair s .refl _ _ _ h.power h.answer
  refine ⟨⟨hs.fair.later h.later, ?_, ?_⟩, hdvd, hapart⟩
  · rw [h.held]
    exact .cons hapart hs.apart
  · rw [h.held]
    intro q hq
    rcases List.mem_cons.1 hq with rfl | hq
    · exact hr
    · exact hs.sized q hq

theorem store (hs : s.Sound) (m : Memory) : Sound { s with memory := m } :=
  ⟨hs.fair.later (.store m .refl), hs.apart, hs.sized⟩

theorem eq_of_holds (hs : s.Sound) (hr : r ∈ s.held) (hq : q ∈ s.held) {x : Nat}
    (hrx : r.Holds x) (hqx : q.Holds x) : r = q := by
  have : Std.Symm Region.Disjoint := ⟨fun _ _ => Region.Disjoint.symm⟩
  refine Decidable.of_not_not fun hne => ?_
  exact (hs.apart.forall hr hq hne).not_holds hrx hqx

theorem holds_base (hs : s.Sound) (hr : r ∈ s.held) : r.Holds r.base :=
  ⟨Nat.le_refl _, Nat.lt_add_of_pos_right (hs.sized r hr)⟩

theorem mem_giveBack (hs : s.Sound) (hr : r ∈ s.held) :
    q ∈ (giveBack r.base s).2.held ↔ q ∈ s.held ∧ q ≠ r := by
  obtain ⟨a, A, B, -, ha, hheld, herase⟩ :=
    List.exists_of_eraseP (p := fun q => q.base == r.base) hr BEq.rfl
  have hamem : a ∈ s.held := hheld ▸ List.mem_append_right A (List.mem_cons_self ..)
  obtain rfl : a = r :=
    hs.eq_of_holds hamem hr (hs.holds_base hamem) (beq_iff_eq.1 ha ▸ hs.holds_base hr)
  have hapart := hs.apart
  rw [hheld, List.pairwise_append, List.pairwise_cons] at hapart
  obtain ⟨-, ⟨hB, -⟩, hA⟩ := hapart
  have hself : ¬ a.Disjoint a := fun h => h.not_holds (hs.holds_base hr) (hs.holds_base hr)
  have hne : ∀ q ∈ A ++ B, q ≠ a := by
    rintro q hq rfl
    rcases List.mem_append.1 hq with hq | hq
    · exact hself (hA q hq q (List.mem_cons_self ..))
    · exact hself (hB q hq)
  show q ∈ s.held.eraseP _ ↔ _
  rw [herase, hheld]
  constructor
  · intro hq
    refine ⟨?_, hne q hq⟩
    rcases List.mem_append.1 hq with hq | hq
    · exact List.mem_append_left _ hq
    · exact List.mem_append_right _ (List.mem_cons_of_mem _ hq)
  · rintro ⟨hq, hqa⟩
    rcases List.mem_append.1 hq with hq | hq
    · exact List.mem_append_left _ hq
    · exact List.mem_append_right _ ((List.mem_cons.1 hq).resolve_left hqa)

theorem giveBack (hs : s.Sound) (base : Nat) : (AddressSpace.giveBack base s).2.Sound := by
  have hsub : (AddressSpace.giveBack base s).2.held.Sublist s.held := List.eraseP_sublist ..
  exact ⟨hs.fair.later (.giveBack base .refl), hs.apart.sublist hsub,
    fun r hr => hs.sized r (hsub.subset hr)⟩

end Sound

/-- Beyond `q` on the side to which regions are laid. -/
def Beyond (down : Bool) (r q : Region) : Prop :=
  if down then r.stop ≤ q.base else q.stop ≤ r.base

theorem Beyond.disjoint {down : Bool} (h : Beyond down r q) : r.Disjoint q := by
  cases down with
  | true => exact .inl h
  | false => exact .inr h

theorem beyond_of_sideBySide {down : Bool} {grain limit asked size : Nat}
    {handed held : List Region} (hpos : 0 < max grain alignment)
    (hlaid : handed.Pairwise (Beyond down))
    (hp : Policy.sideBySide down grain limit asked handed held size alignment = some base) :
    ∀ q ∈ handed, Beyond down ⟨base, size⟩ q := by
  simp only [Policy.sideBySide] at hp
  split at hp
  · cases hp
  cases handed with
  | nil => exact fun q hq => absurd hq List.not_mem_nil
  | cons head rest =>
      have hhead : Beyond down ⟨base, size⟩ head := by
        cases down with
        | true =>
            simp only [if_true, Policy.placeDown?] at hp
            split at hp
            · rename_i hfit
              obtain rfl := Option.some.inj hp
              have hle := Nat.div_mul_le_self (head.base - size) (max grain alignment)
              simp only [Beyond, if_true, Region.stop, roundDown]
              omega
            · cases hp
        | false =>
            simp only [Bool.false_eq_true, if_false, Policy.placeUp?] at hp
            split at hp
            · obtain rfl := Option.some.inj hp
              exact le_roundUp hpos
            · cases hp
      intro q hq
      rcases List.mem_cons.1 hq with rfl | hq
      · exact hhead
      · have hold := (List.pairwise_cons.1 hlaid).1 q hq
        cases down with
        | true =>
            simp only [Beyond, if_true, Region.stop] at hhead hold ⊢
            omega
        | false =>
            simp only [Beyond, Bool.false_eq_true, if_false, Region.stop] at hhead hold ⊢
            omega

theorem sideBySide_fair {grain : Nat} (hg : IsPowerOfTwo grain) (down : Bool) (limit : Nat) :
    (new (.sideBySide down grain limit)).Fair := by
  intro t ht
  -- Every region ever handed out lies on one side of all before it, also of those given back.
  have hkept : t.policy = .sideBySide down grain limit ∧ t.handed.Pairwise (Beyond down) ∧
      ∀ q ∈ t.held, q ∈ t.handed := by
    induction ht with
    | refl => exact ⟨rfl, .nil, fun _ hq => hq⟩
    | @request t size alignment _ ih =>
        obtain ⟨hpolicy, hlaid, hheld⟩ := ih
        simp only [request]
        split
        · rename_i base hbase
          rw [hpolicy] at hbase
          refine ⟨hpolicy, .cons (beyond_of_sideBySide ?_ hlaid hbase) hlaid, fun q hq => ?_⟩
          · exact Nat.lt_of_lt_of_le hg.pos (Nat.le_max_left ..)
          · rcases List.mem_cons.1 hq with rfl | hq
            · exact List.mem_cons_self ..
            · exact List.mem_cons_of_mem _ (hheld q hq)
        · exact ⟨hpolicy, hlaid, hheld⟩
    | @giveBack t base _ ih =>
        obtain ⟨hpolicy, hlaid, hheld⟩ := ih
        exact ⟨hpolicy, hlaid, fun q hq => hheld q (List.mem_of_mem_eraseP hq)⟩
    | store m _ ih => exact ih
    | mark o _ ih => exact ih
  obtain ⟨hpolicy, hlaid, hheld⟩ := hkept
  intro size alignment base hal hbase
  rw [hpolicy] at hbase
  refine ⟨Policy.sideBySide_aligned hg down limit _ _ _ _ _ _ hal hbase, fun q hq => ?_⟩
  refine (beyond_of_sideBySide ?_ hlaid hbase q (hheld q hq)).disjoint
  exact Nat.lt_of_lt_of_le hg.pos (Nat.le_max_left ..)

end AddressSpace

end AffinityHeap
