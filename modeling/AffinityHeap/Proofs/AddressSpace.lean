import AffinityHeap.Buffer
import AffinityHeap.Proofs.Alignment
import AffinityHeap.Proofs.Memory
import Mathlib.Tactic.SplitIfs

namespace AffinityHeap

namespace Policy

/-- Every region is aligned as it was asked for. -/
def Aligned (p : Policy) : Prop :=
  ∀ asked handed held size alignment base, IsPowerOfTwo alignment →
    p asked handed held size alignment = some base → alignment ∣ base

theorem sideBySide_aligned {grain : Nat} (hg : IsPowerOfTwo grain) (down : Bool) (limit : Nat) :
    (sideBySide down grain limit).Aligned := by
  intro asked handed held size alignment base ha hbase
  have hdvd : alignment ∣ max grain alignment :=
    powerOfTwo_dvd ha (powerOfTwo_max hg ha) (Nat.le_max_right ..)
  simp only [sideBySide, placeUp?, placeDown?] at hbase
  split_ifs at hbase
  all_goals
    obtain rfl := Option.some.inj hbase
    exact Nat.dvd_trans hdvd (Nat.dvd_mul_left ..)

end Policy

namespace Obtain

variable {α β : Type} {s : AddressSpace}

theorem map_apply (f : α → β) (x : Obtain α) :
    (f <$> x) s = match x s with
      | (.ok a, s) => (.ok (f a), s)
      | (.error e, s) => (.error e, s) := by
  simp only [Functor.map, ExceptT.map, ExceptT.mk, bind, StateT.bind]
  rcases x s with ⟨_ | _, _⟩ <;> rfl

theorem throw_apply (e : HeapError) : (throw e : Obtain α) s = (.error e, s) := rfl

theorem lift_apply (x : StateM AddressSpace α) :
    (liftM x : Obtain α) s = (.ok (x s).1, (x s).2) := rfl

theorem bind_apply (x : Obtain α) (f : α → Obtain β) :
    (x >>= f) s = match x s with
      | (.ok a, s) => f a s
      | (.error e, s) => (.error e, s) := by
  simp only [bind, ExceptT.bind, ExceptT.mk, StateT.bind, ExceptT.bindCont]
  rcases x s with ⟨_ | _, _⟩ <;> rfl

section Guard

variable {c : Prop} [Decidable c] {e : HeapError} {f : Unit → Obtain β}

theorem guard_pos (hc : c) : (if c then throw e >>= f else f ()) s = (.error e, s) := by
  rw [if_pos hc, bind_apply, throw_apply]

theorem guard_neg (hc : ¬ c) : (if c then throw e >>= f else f ()) s = f () s := by
  rw [if_neg hc]

end Guard

theorem exists_of_any {x : Obtain α} {p : α → Bool} (h : (x s).1.toOption.any p = true) :
    ∃ a s', x s = (.ok a, s') ∧ p a = true := by
  rcases hx : x s with ⟨e | a, s'⟩
  · rw [hx] at h
    exact absurd h Bool.false_ne_true
  · rw [hx] at h
    exact ⟨a, s', rfl, h⟩

theorem exists_of_isOk {x : Obtain α} (h : (x s).1.isOk = true) : ∃ a s', x s = (.ok a, s') := by
  have hany : (x s).1.toOption.any (fun _ => true) = true := by
    cases hx : (x s).1 with
    | error e => rw [hx] at h; exact h
    | ok a => rfl
  obtain ⟨a, s', hx, -⟩ := exists_of_any hany
  exact ⟨a, s', hx⟩

end Obtain

namespace Region

def Holds (r : Region) (address : Nat) : Prop := r.base ≤ address ∧ address < r.stop

instance (r : Region) (address : Nat) : Decidable (r.Holds address) :=
  inferInstanceAs (Decidable (_ ∧ _))

variable {r q : Region} {address : Nat}

theorem Disjoint.symm (h : r.Disjoint q) : q.Disjoint r := Or.symm h

theorem Disjoint.not_holds (h : r.Disjoint q) (hr : r.Holds address) : ¬ q.Holds address := by
  simp only [Disjoint, Holds] at *
  omega

/-- No byte outside the region differs. -/
def Confines (r : Region) (m m' : Memory) : Prop := ∀ x, ¬ r.Holds x → m'.byte x = m.byte x

theorem Confines.trans {m m' m'' : Memory} (h : r.Confines m m') (h' : r.Confines m' m'') :
    r.Confines m m'' := fun x hx => (h' x hx).trans (h x hx)

/-- Where live grants lie in a region: aligned, inside and apart from each other. -/
structure Seats (r : Region) (alignment : Nat) (live : List Grant) : Prop where
  aligned : ∀ g ∈ live, alignment ∣ g.address
  inside : ∀ g ∈ live, r.base ≤ g.address ∧ g.region.stop ≤ r.stop
  apart : live.Pairwise fun g k => g.region.Disjoint k.region

end Region

namespace Buffer

def region (b : Buffer) : Region := ⟨b.base, b.record * max b.len 1⟩

theorem contains_iff {b : Buffer} {address : Nat} : b.contains address = true ↔
    b.base ≤ address ∧ address < b.base + b.byteLen := by
  simp only [contains, Bool.and_eq_true, decide_eq_true_eq]
  omega

theorem holds_of_contains {b : Buffer} {address : Nat} (h : b.contains address = true) :
    b.region.Holds address := by
  obtain ⟨hbase, hlen⟩ := contains_iff.1 h
  have hle : b.len * b.record ≤ b.record * max b.len 1 := by
    rw [Nat.mul_comm]
    exact Nat.mul_le_mul_left _ (Nat.le_max_left ..)
  exact ⟨hbase, Nat.lt_of_lt_of_le hlen (Nat.add_le_add_left hle _)⟩

end Buffer

namespace AddressSpace

/-- The spaces that requests, returns, writes and overflows lead to. -/
inductive Later (s : AddressSpace) : AddressSpace → Prop where
  | refl : Later s s
  | request {t : AddressSpace} (size alignment : Nat) :
      Later s t → Later s (request size alignment t).2
  | giveBack {t : AddressSpace} (base : Nat) : Later s t → Later s (giveBack base t).2
  | store {t : AddressSpace} (m : Memory) : Later s t → Later s { t with memory := m }
  | mark {t : AddressSpace} (o : Bool) : Later s t → Later s { t with overflowed := o }

theorem Later.trans {s t u : AddressSpace} (hst : s.Later t) (htu : t.Later u) : s.Later u := by
  induction htu with
  | refl => exact hst
  | request size alignment _ ih => exact .request size alignment ih
  | giveBack base _ ih => exact .giveBack base ih
  | store m _ ih => exact .store m ih
  | mark o _ ih => exact .mark o ih

/-- What is left of a space when a request was turned down, be it by the system. -/
structure Refused (s s' : AddressSpace) : Prop where
  later : s.Later s'
  eq : ∃ asked overflowed, (s.overflowed = true → overflowed = true) ∧
    s' = { s with asked, overflowed }

theorem overflows_of_overflowed {s : AddressSpace} (h : s.overflowed = true) (n : Nat) :
    s.overflows n = true := by
  rw [overflows, h, Bool.true_or]

theorem overflows_iff {s : AddressSpace} {n : Nat} :
    s.overflows n = true ↔ s.overflowed = true ∨ UInt64.size ≤ n := by
  rw [overflows, Bool.or_eq_true, decide_eq_true_eq]

theorem overflows_of_lt {s : AddressSpace} {n : Nat} (h : n < UInt64.size) :
    s.overflows n = s.overflowed := by
  rw [overflows, decide_eq_false (Nat.not_le.2 h), Bool.or_false]

theorem Refused.refl (s : AddressSpace) : s.Refused s := ⟨.refl, s.asked, s.overflowed, id, rfl⟩

theorem Refused.mark (s : AddressSpace) (n : Nat) :
    s.Refused { s with overflowed := s.overflows n } :=
  ⟨.mark _ .refl, s.asked, s.overflows n, fun h => overflows_of_overflowed h n, rfl⟩

theorem Refused.trans {s t u : AddressSpace} (hst : s.Refused t) (htu : t.Refused u) :
    s.Refused u := by
  obtain ⟨hlater, asked, o, hmark, rfl⟩ := hst
  obtain ⟨hlater', asked', o', hmark', rfl⟩ := htu
  exact ⟨hlater.trans hlater', asked', o', fun h => hmark' (hmark h), rfl⟩

theorem refused_of_request {s s' : AddressSpace} {size alignment : Nat}
    (h : request size alignment s = (none, s')) : s.Refused s' := by
  have hlater : s.Later (request size alignment s).2 := .request size alignment .refl
  rw [h] at hlater
  refine ⟨hlater, s.asked + 1, s.overflowed, id, ?_⟩
  simp only [request] at h
  split at h
  · cases h
  · exact (Prod.mk.inj h).2.symm

def Aligned (s : AddressSpace) : Prop :=
  ∀ size alignment base, IsPowerOfTwo alignment →
    s.policy s.asked s.handed s.held size alignment = some base → alignment ∣ base

theorem aligned_of_policy {s : AddressSpace} (h : s.policy.Aligned) : s.Aligned :=
  fun _ _ _ => h _ _ _ _ _ _

/-- The region was handed out between the two spaces, and no byte outside it has changed. -/
structure Obtained (s s' : AddressSpace) (r : Region) (alignment : Nat) : Prop where
  power : IsPowerOfTwo alignment
  answer : s.policy s.asked s.handed s.held r.size alignment = some r.base
  later : s.Later s'
  held : s'.held = r :: s.held
  outside : r.Confines s.memory s'.memory

theorem Obtained.store {s s' : AddressSpace} {r : Region} {alignment : Nat}
    (h : s.Obtained s' r alignment) {m : Memory} (hm : r.Confines s'.memory m) :
    s.Obtained { s' with memory := m } r alignment :=
  ⟨h.power, h.answer, .store m h.later, h.held, h.outside.trans hm⟩

theorem Obtained.marked {s s' : AddressSpace} {r : Region} {alignment : Nat}
    (h : s.Obtained s' r alignment) (o : Bool) :
    s.Obtained { s' with overflowed := o } r alignment :=
  ⟨h.power, h.answer, .mark o h.later, h.held, h.outside⟩

theorem byte_hold (s : AddressSpace) {r : Region} {x : Nat} (hx : ¬ r.Holds x) :
    (s.hold r).memory.byte x = s.memory.byte x := by
  simp only [hold]
  split
  · refine Memory.byte_clear_of_outside ?_
    simp only [Region.Holds, Region.stop] at hx
    omega
  · rfl

/-- Nothing is written where no region was ever handed out. -/
def Pristine (s : AddressSpace) : Prop :=
  ∀ i, (∀ r ∈ s.handed, Region.Disjoint r ⟨4 * i, 4⟩) → s.memory.word i = 0

theorem new_pristine (p : Policy) : (new p).Pristine := fun i _ => Memory.word_empty i

theorem Pristine.word_hold {s : AddressSpace} (hs : s.Pristine) {r : Region} {i : Nat}
    (hi : r.base ≤ 4 * i ∧ 4 * i + 4 ≤ r.stop) : (s.hold r).memory.word i = 0 := by
  by_cases hused : (s.handed.any fun q => !decide (q.Disjoint r)) = true
  · simp only [hold, hused, if_true]
    exact Memory.word_clear_inside hi
  · simp only [hold, if_neg hused]
    refine hs i fun q hq => ?_
    have hqr : q.Disjoint r := Decidable.of_not_not fun hqr =>
      hused (List.any_eq_true.2 ⟨q, hq, by simp [hqr]⟩)
    simp only [Region.Disjoint, Region.stop] at hqr hi ⊢
    omega

end AddressSpace

namespace Buffer

open Obtain

variable {s : AddressSpace} {record len alignment : Nat}

/-- The space after a region was handed out for a buffer at `base`. -/
def grantedSpace (s : AddressSpace) (record len base : Nat) : AddressSpace :=
  ({ s with asked := s.asked + 1 } : AddressSpace).hold ⟨base, record * max len 1⟩

theorem zeroed_cases (s : AddressSpace) (record len alignment : Nat) :
    (∃ e s', zeroed record len alignment s = (.error e, s') ∧ s.Refused s' ∧
        ∀ c, e ≠ .corruption c) ∨
      ∃ base, s.policy s.asked s.handed s.held (record * max len 1) (max alignment record) =
          some base ∧
        IsPowerOfTwo (max alignment record) ∧
        record * max len 1 ≤ 0x8000000000000000 - max alignment record ∧
        zeroed record len alignment s =
          (.ok ⟨base, len, record, max alignment record⟩, grantedSpace s record len base) := by
  unfold zeroed
  by_cases hlarge : UInt64.size ≤ record * max len 1
  · refine .inl ⟨_, s, guard_pos hlarge, .refl s, ?_⟩
    rintro c ⟨⟩
  by_cases hlayout : ¬ IsPowerOfTwo (max alignment record) ∨
      0x8000000000000000 - max alignment record < record * max len 1
  · refine .inl ⟨_, s, (guard_neg hlarge).trans (guard_pos hlayout), .refl s, ?_⟩
    rintro c ⟨⟩
  simp only [if_neg hlarge, if_neg hlayout, bind_apply, lift_apply, AddressSpace.request]
  cases hp : s.policy s.asked s.handed s.held (record * max len 1) (max alignment record) with
  | none =>
      have hrefused : AddressSpace.request (record * max len 1) (max alignment record) s =
          (none, { s with asked := s.asked + 1 }) := by
        rw [AddressSpace.request, hp]
      refine .inl ⟨_, _, rfl, AddressSpace.refused_of_request hrefused, ?_⟩
      rintro c ⟨⟩
  | some base =>
      exact .inr ⟨base, rfl, Decidable.of_not_not fun h => hlayout (.inl h),
        Nat.not_lt.1 fun h => hlayout (.inr h), rfl⟩

theorem zeroed_obtained {base : Nat} (hpower : IsPowerOfTwo (max alignment record))
    (hp : s.policy s.asked s.handed s.held (record * max len 1) (max alignment record) =
      some base) :
    s.Obtained (grantedSpace s record len base) (region ⟨base, len, record, max alignment record⟩)
      (max alignment record) := by
  refine ⟨hpower, hp, ?_, rfl, fun x hx => AddressSpace.byte_hold _ hx⟩
  have hrun : (AddressSpace.request (record * max len 1) (max alignment record) s).2 =
      grantedSpace s record len base := by
    simp only [AddressSpace.request, hp]
    rfl
  rw [← hrun]
  exact .request _ _ .refl

end Buffer

end AffinityHeap
