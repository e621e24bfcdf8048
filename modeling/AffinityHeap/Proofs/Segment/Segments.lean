import AffinityHeap.Proofs.Alignment
import AffinityHeap.Proofs.SortedMap
import AffinityHeap.Segment.Segments

namespace AffinityHeap

namespace Segments

variable {s : Segments} {free : SortedMap Nat} {entries : List (Nat × Nat)}
  {total alignment length offset segment size start stop k n : Nat}

inductive Kind where
  | available
  | reserved
  deriving DecidableEq

/-- A segment of the given kind, its offset and its length. -/
def Has (s : Segments) (offset length : Nat) : Kind → Prop
  | .available => s.available.find? offset = some length
  | .reserved => s.reserved.find? offset = some length

instance (s : Segments) (offset length : Nat) : ∀ kind, Decidable (s.Has offset length kind)
  | .available => inferInstanceAs (Decidable (s.available.find? offset = some length))
  | .reserved => inferInstanceAs (Decidable (s.reserved.find? offset = some length))

structure Sound (s : Segments) : Prop where
  unit_pos : 0 < s.alignment
  aligned : ∀ kind o n, s.Has o n kind → s.alignment ∣ o
  pos : ∀ kind o n, s.Has o n kind → 0 < n
  inside : ∀ kind o n, s.Has o n kind → o + n ≤ s.total
  whole : ∀ o n, s.Has o n .reserved → s.alignment ∣ n
  word : ∀ o n, s.Has o n .reserved → n < UInt64.size
  apart : ∀ kind kind' o n p m, s.Has o n kind → s.Has p m kind' → (kind, o) ≠ (kind', p) →
    o + n ≤ p ∨ p + m ≤ o

theorem bestFit?_eq_some (h : bestFit? alignment length entries = some (offset, segment)) :
    (offset, segment) ∈ entries ∧ fits alignment length offset segment := by
  induction entries with
  | nil => cases h
  | cons x rest ih =>
      obtain ⟨o, m⟩ := x
      rw [bestFit?] at h
      split at h
      · rename_i hfits
        have hhead : (o, m) = (offset, segment) →
            (offset, segment) ∈ (o, m) :: rest ∧ fits alignment length offset segment := by
          rintro ⟨⟩
          exact ⟨List.mem_cons_self .., hfits⟩
        split at h
        · rename_i p k hrest
          split at h
          · obtain ⟨hmem, hk⟩ := ih (hrest.trans h)
            exact ⟨List.mem_cons_of_mem _ hmem, hk⟩
          · exact hhead (Option.some.inj h)
        · exact hhead (Option.some.inj h)
      · obtain ⟨hmem, hk⟩ := ih h
        exact ⟨List.mem_cons_of_mem _ hmem, hk⟩

theorem bestFit?_eq_none (h : bestFit? alignment length entries = none) :
    ∀ x ∈ entries, ¬ fits alignment length x.1 x.2 := by
  induction entries with
  | nil => exact fun x hx => absurd hx List.not_mem_nil
  | cons y rest ih =>
      obtain ⟨o, m⟩ := y
      rw [bestFit?] at h
      split at h
      · split at h
        · split at h <;> cases h
        · cases h
      · rename_i hfits
        intro x hx
        rcases List.mem_cons.1 hx with rfl | hx
        · exact hfits
        · exact ih h x hx

/-- The rounded length of a request fits in a word. -/
def Fits (s : Segments) (size : Nat) : Prop := roundUp (max size 1) s.alignment < UInt64.size

theorem Fits.roundedLength_eq (h : s.Fits size) :
    s.roundedLength size = roundUp (max size 1) s.alignment := wrap_of_lt h

theorem Fits.le (h : s.Fits size) (hunit : 0 < s.alignment) :
    max size 1 ≤ s.roundedLength size := by
  rw [h.roundedLength_eq]
  exact le_roundUp hunit

theorem Fits.pos (h : s.Fits size) (hunit : 0 < s.alignment) : 0 < s.roundedLength size :=
  Nat.lt_of_lt_of_le (Nat.lt_of_lt_of_le Nat.one_pos (Nat.le_max_right size 1)) (h.le hunit)

theorem Fits.dvd (h : s.Fits size) : s.alignment ∣ s.roundedLength size := by
  rw [h.roundedLength_eq]
  exact dvd_roundUp ..

theorem find?_addFree (free : SortedMap Nat) (start stop k : Nat) :
    (addFree free start stop).find? k =
      if start < stop ∧ start = k then some (stop - start) else free.find? k := by
  rw [addFree]
  by_cases hlt : start < stop
  · simp only [hlt, if_true, true_and, SortedMap.find?_insert]
  · simp only [hlt, if_false, false_and]

theorem has_new {kind : Kind} {o : Nat} : (Segments.new total alignment).Has o n kind ↔
    kind = .available ∧ o = 0 ∧ n = total ∧ 0 < total := by
  constructor
  · intro h
    cases kind with
    | reserved => cases h
    | available =>
        simp only [Has, Segments.new] at h
        split at h
        · cases h
        · rename_i ht
          obtain ⟨x, hx, hn⟩ := Option.map_eq_some_iff.1 h
          obtain rfl := List.mem_singleton.1 (List.mem_of_find?_eq_some hx)
          have ho := List.find?_some hx
          exact ⟨rfl, (beq_iff_eq.1 ho).symm, hn.symm, Nat.pos_of_ne_zero ht⟩
  · rintro ⟨rfl, rfl, rfl, ht⟩
    simp only [Has, Segments.new, if_neg (Nat.ne_of_gt ht)]
    rfl

theorem new_sound (total alignment : Nat) : (Segments.new total alignment).Sound := by
  constructor
  · exact Nat.lt_of_lt_of_le Nat.one_pos (Nat.le_max_right ..)
  · intro kind o n h
    obtain ⟨-, rfl, -, -⟩ := has_new.1 h
    exact Nat.dvd_zero _
  · intro kind o n h
    obtain ⟨-, -, rfl, ht⟩ := has_new.1 h
    exact ht
  · intro kind o n h
    obtain ⟨-, rfl, rfl, -⟩ := has_new.1 h
    exact Nat.le_of_eq (Nat.zero_add _)
  · intro o n h
    cases (has_new.1 h).1
  · intro o n h
    cases (has_new.1 h).1
  · intro kind kind' o n p m h h' hne
    obtain ⟨rfl, rfl, -, -⟩ := has_new.1 h
    obtain ⟨rfl, rfl, -, -⟩ := has_new.1 h'
    exact absurd rfl hne

def cutOff (s : Segments) (offset segment length : Nat) : Segments :=
  { s with
    available := addFree (s.available.erase offset) (offset + length) (offset + segment)
    reserved := s.reserved.insert offset length }

theorem find?_available_cutOff (s : Segments) (offset segment length k : Nat) :
    (s.cutOff offset segment length).available.find? k =
      if length < segment ∧ offset + length = k then some (segment - length)
      else if offset = k then none else s.available.find? k := by
  simp only [cutOff, find?_addFree, SortedMap.find?_erase, Nat.add_lt_add_iff_left,
    Nat.add_sub_add_left]

def joined (s : Segments) (offset length : Nat) : Segments :=
  { s with
    available := coalesce s.available offset length
    reserved := s.reserved.erase offset }

theorem Sound.fits_iff (hs : s.Sound) (hhas : s.Has offset segment .available) :
    fits s.alignment length offset segment ↔ length ≤ segment := by
  rw [fits, roundUp_of_dvd hs.unit_pos (hs.aligned _ _ _ hhas), Nat.add_le_add_iff_left]

/-- A reservation leaves no padding where every free segment starts at a multiple of the unit. -/
theorem reserve_eq (hunit : 0 < s.alignment)
    (haligned : ∀ o n, s.Has o n .available → s.alignment ∣ o) (size : Nat) : s.reserve size =
    (bestFit? s.alignment (s.roundedLength size) s.available.entries).map fun x =>
      (x.1, s.cutOff x.1 x.2 (s.roundedLength size)) := by
  rw [reserve]
  cases hbest : bestFit? s.alignment (s.roundedLength size) s.available.entries with
  | none => rfl
  | some x =>
      obtain ⟨offset, segment⟩ := x
      have hhas : s.Has offset segment .available :=
        SortedMap.mem_entries.1 (bestFit?_eq_some hbest).1
      have hround := roundUp_of_dvd hunit (haligned _ _ hhas)
      simp only [hround, Option.map_some, cutOff, addFree, if_neg (Nat.lt_irrefl offset)]

theorem Sound.reserve_eq (hs : s.Sound) (size : Nat) : s.reserve size =
    (bestFit? s.alignment (s.roundedLength size) s.available.entries).map fun x =>
      (x.1, s.cutOff x.1 x.2 (s.roundedLength size)) :=
  Segments.reserve_eq hs.unit_pos (hs.aligned _) size

theorem reserve_cases (hs : s.Sound) (size : Nat) : s.reserve size = none ∨
    ∃ offset segment, s.Has offset segment .available ∧ s.roundedLength size ≤ segment ∧
      s.reserve size = some (offset, s.cutOff offset segment (s.roundedLength size)) := by
  rw [hs.reserve_eq]
  cases hbest : bestFit? s.alignment (s.roundedLength size) s.available.entries with
  | none => exact .inl rfl
  | some x =>
      obtain ⟨offset, segment⟩ := x
      obtain ⟨hmem, hfits⟩ := bestFit?_eq_some hbest
      have hhas : s.Has offset segment .available := SortedMap.mem_entries.1 hmem
      exact .inr ⟨offset, segment, hhas, (hs.fits_iff hhas).1 hfits, rfl⟩

theorem Sound.reserve_refused_iff (hs : s.Sound) (size : Nat) :
    s.reserve size = none ↔ ∀ o n, s.Has o n .available → n < s.roundedLength size := by
  constructor
  · intro h o n hhas
    rw [hs.reserve_eq, Option.map_eq_none_iff] at h
    have hunfit := bestFit?_eq_none h (o, n) (SortedMap.mem_entries.2 hhas)
    rw [hs.fits_iff hhas] at hunfit
    exact Nat.not_le.1 hunfit
  · intro hshort
    rcases reserve_cases hs size with hnone | ⟨offset, segment, hfree, hle, -⟩
    · exact hnone
    · exact absurd (hshort offset segment hfree) (Nat.not_lt.2 hle)

/-- The segments after a reservation. -/
theorem has_cutOff (hs : s.Sound) (hhas : s.Has offset segment .available) (hpos : 0 < length)
    (hle : length ≤ segment) (kind : Kind) (o n : Nat) :
    (s.cutOff offset segment length).Has o n kind ↔
      (kind = .available ∧ o = offset + length ∧ n = segment - length ∧ length < segment) ∨
      (kind = .reserved ∧ o = offset ∧ n = length) ∨
      (s.Has o n kind ∧ (kind, o) ≠ (.available, offset)) := by
  have hsub : offset + segment - (offset + length) = segment - length := by omega
  cases kind with
  | available =>
      have hnew : ¬ (length < segment ∧ s.Has (offset + length) n .available) := by
        rintro ⟨hlt, hold⟩
        have hapart := hs.apart _ _ _ _ _ _ hhas hold fun heq => by simp at heq; omega
        have hpositive := hs.pos _ _ _ hold
        omega
      simp only [Has, cutOff, find?_addFree, SortedMap.find?_erase, hsub] at hnew ⊢
      grind
  | reserved =>
      have hnew : ¬ s.Has offset n .reserved := fun hold => by
        have hapart := hs.apart _ _ _ _ _ _ hhas hold fun heq => nomatch (Prod.mk.inj heq).1
        have hpos := hs.pos _ _ _ hold
        omega
      simp only [Has, cutOff, SortedMap.find?_insert] at hnew ⊢
      grind

theorem Sound.reserve (hs : s.Sound) (hhas : s.Has offset segment .available)
    (hpos : 0 < length) (hdvd : s.alignment ∣ length) (hword : length < UInt64.size)
    (hle : length ≤ segment) : (s.cutOff offset segment length).Sound := by
  have hold := hs.aligned _ _ _ hhas
  have hend := hs.inside _ _ _ hhas
  have hcases := fun kind o n => (has_cutOff hs hhas hpos hle kind o n).1
  have hfar : ∀ kind o n, s.Has o n kind → (kind, o) ≠ (.available, offset) →
      o + n ≤ offset ∨ offset + segment ≤ o := fun kind o n h hne =>
    hs.apart kind .available o n offset segment h hhas hne
  constructor
  · exact hs.unit_pos
  · intro kind o n h
    rcases hcases kind o n h with ⟨-, rfl, -⟩ | ⟨-, rfl, -⟩ | ⟨h, -⟩
    · exact (Nat.dvd_add_right hold).2 hdvd
    · exact hold
    · exact hs.aligned _ _ _ h
  · intro kind o n h
    rcases hcases kind o n h with ⟨-, -, rfl, hlt⟩ | ⟨-, -, rfl⟩ | ⟨h, -⟩
    · exact Nat.sub_pos_of_lt hlt
    · exact hpos
    · exact hs.pos _ _ _ h
  · intro kind o n h
    show o + n ≤ s.total
    rcases hcases kind o n h with ⟨-, rfl, rfl, hlt⟩ | ⟨-, rfl, rfl⟩ | ⟨h, -⟩
    · omega
    · omega
    · exact hs.inside _ _ _ h
  · intro o n h
    rcases hcases _ o n h with ⟨hk, -⟩ | ⟨-, -, rfl⟩ | ⟨h, -⟩
    · cases hk
    · exact hdvd
    · exact hs.whole _ _ h
  · intro o n h
    rcases hcases _ o n h with ⟨hk, -⟩ | ⟨-, -, rfl⟩ | ⟨h, -⟩
    · cases hk
    · exact hword
    · exact hs.word _ _ h
  -- Both pieces lie in the segment that was cut, and everything older lies outside of it.
  · intro kind kind' o n p m h h' hne
    rcases hcases kind o n h with ⟨rfl, rfl, rfl, hlt⟩ | ⟨rfl, rfl, rfl⟩ | ⟨hx, hno⟩ <;>
      rcases hcases kind' p m h' with ⟨rfl, rfl, rfl, hlt'⟩ | ⟨rfl, rfl, rfl⟩ | ⟨hy, hnp⟩
    · exact absurd rfl hne
    · omega
    · have hbeside := hfar _ _ _ hy hnp
      omega
    · omega
    · exact absurd rfl hne
    · have hbeside := hfar _ _ _ hy hnp
      omega
    · have hbeside := hfar _ _ _ hx hno
      omega
    · have hbeside := hfar _ _ _ hx hno
      omega
    · exact hs.apart _ _ _ _ _ _ hx hy hne

theorem Sound.find?_reserved (hs : s.Sound) (hhas : s.Has offset segment .available) :
    s.reserved.find? offset = none := by
  cases hfind : s.reserved.find? offset with
  | none => rfl
  | some n =>
      have hres : s.Has offset n .reserved := hfind
      have hapart := hs.apart _ _ _ _ _ _ hhas hres fun heq => nomatch (Prod.mk.inj heq).1
      have hpos := hs.pos _ _ _ hhas
      have hpos' := hs.pos _ _ _ hres
      omega

/-- A release succeeds on a reservation of the requested length and on nothing else. -/
theorem release_eq_released {t : Segments} : s.release offset size = .released t ↔
    s.Has offset (s.roundedLength size) .reserved ∧
      t = s.joined offset (s.roundedLength size) := by
  simp only [release, Has, joined]
  cases s.reserved.find? offset with
  | none => simp
  | some length =>
      by_cases hlength : s.roundedLength size = length
      · simp only [hlength, if_true, Release.released.injEq, true_and]
        exact eq_comm
      · simp [hlength, Ne.symm hlength]

/-- Where the free segment that takes up a released one ends. -/
def coalescedStop (free : SortedMap Nat) (offset length : Nat) : Nat :=
  offset + length + (free.find? (offset + length)).getD 0

theorem find?_coalesce (free : SortedMap Nat) (offset length : Nat) : ∃ a,
    (a = offset ∧ (∀ o n, free.below? offset = some (o, n) → o + n ≠ offset) ∨
      ∃ n, free.find? a = some n ∧ a + n = offset) ∧
      ∀ k, (coalesce free offset length).find? k =
        if a = k then some (coalescedStop free offset length - a)
        else if offset + length = k then none else free.find? k := by
  cases hbelow : free.below? offset with
  | none =>
      refine ⟨offset, .inl ⟨rfl, fun o n h => nomatch h⟩, fun k => ?_⟩
      simp only [coalesce, hbelow, SortedMap.find?_insert, SortedMap.find?_erase, coalescedStop]
  | some x =>
      obtain ⟨o, m⟩ := x
      by_cases htouch : o + m = offset
      · refine ⟨o, .inr ⟨m, (SortedMap.below?_eq_some hbelow).1, htouch⟩, fun k => ?_⟩
        simp only [coalesce, hbelow, if_pos htouch, SortedMap.find?_insert, SortedMap.find?_erase,
          coalescedStop]
        by_cases hk : o = k
        · simp only [hk, if_true]
        · simp only [hk, if_false]
      · refine ⟨offset, .inl ⟨rfl, ?_⟩, fun k => ?_⟩
        · rintro _ _ ⟨⟩
          exact htouch
        · simp only [coalesce, hbelow, if_neg htouch, SortedMap.find?_insert,
            SortedMap.find?_erase, coalescedStop]

/-- The segment that takes up a released one runs from the start of the free segment that ends
where the released one starts to the stop of the free segment that starts where it stops. -/
structure Joins (s : Segments) (offset length start stop : Nat) : Prop where
  front : start = offset ∧ (∀ o n, s.Has o n .available → o + n ≠ offset) ∨
    ∃ n, s.Has start n .available ∧ start + n = offset
  behind : stop = offset + length ∧ (∀ n, ¬ s.Has (offset + length) n .available) ∨
    ∃ n, s.Has (offset + length) n .available ∧ stop = offset + length + n

theorem Joins.bounds (hs : s.Sound) (hhas : s.Has offset length .reserved)
    (hj : s.Joins offset length start stop) :
    start ≤ offset ∧ offset + length ≤ stop ∧ stop ≤ s.total := by
  have hend := hs.inside _ _ _ hhas
  refine ⟨?_, ?_, ?_⟩
  · rcases hj.front with ⟨rfl, -⟩ | ⟨n, -, h⟩ <;> omega
  · rcases hj.behind with ⟨h, -⟩ | ⟨n, -, h⟩ <;> omega
  · rcases hj.behind with ⟨h, -⟩ | ⟨n, hn, h⟩
    · omega
    · have hinside := hs.inside _ _ _ hn
      omega

theorem Sound.below?_complete (hs : s.Sound)
    (h : ∀ o n, s.available.below? offset = some (o, n) → o + n ≠ offset) :
    ∀ o n, s.Has o n .available → o + n ≠ offset := by
  intro o n ho htouch
  have hpos := hs.pos _ _ _ ho
  cases hbelow : s.available.below? offset with
  | none =>
      have hbefore := SortedMap.below?_eq_none hbelow ho
      omega
  | some x =>
      obtain ⟨p, m⟩ := x
      obtain ⟨hp, hlt, hlast⟩ := SortedMap.below?_eq_some hbelow
      have hle := hlast o n ho (by omega)
      have hp : s.Has p m .available := hp
      have hposp := hs.pos _ _ _ hp
      by_cases hop : o = p
      · subst hop
        cases Option.some.inj (ho.symm.trans hp)
        exact h o n hbelow htouch
      · have hapart := hs.apart _ _ _ _ _ _ ho hp fun heq => hop (Prod.mk.inj heq).2
        omega

/-- A segment is one of those joined, or it lies outside. -/
theorem Joins.cases (hs : s.Sound) (hhas : s.Has offset length .reserved)
    (hj : s.Joins offset length start stop) {kind : Kind} {o : Nat} (ho : s.Has o n kind) :
    (kind = .reserved ∧ o = offset ∧ n = length) ∨
      (kind = .available ∧ o = start ∧ o + n = offset) ∨
      (kind = .available ∧ o = offset + length ∧ o + n = stop) ∨ o + n ≤ start ∨ stop ≤ o := by
  have hpos := hs.pos _ _ _ ho
  by_cases hmid : (kind, o) = (.reserved, offset)
  · obtain ⟨rfl, rfl⟩ := Prod.mk.inj hmid
    exact .inl ⟨rfl, rfl, Option.some.inj (ho.symm.trans hhas)⟩
  · rcases hs.apart _ _ _ _ _ _ ho hhas hmid with hlow | hhigh
    · rcases hj.front with ⟨rfl, -⟩ | ⟨m, hm, htouch⟩
      · omega
      · by_cases hstart : (kind, o) = (.available, start)
        · obtain ⟨rfl, rfl⟩ := Prod.mk.inj hstart
          obtain rfl := Option.some.inj (ho.symm.trans hm)
          exact .inr (.inl ⟨rfl, rfl, htouch⟩)
        · have hapart := hs.apart _ _ _ _ _ _ ho hm hstart
          omega
    · rcases hj.behind with ⟨rfl, -⟩ | ⟨m, hm, rfl⟩
      · omega
      · by_cases hstop : (kind, o) = (.available, offset + length)
        · obtain ⟨rfl, rfl⟩ := Prod.mk.inj hstop
          obtain rfl := Option.some.inj (ho.symm.trans hm)
          exact .inr (.inr (.inl ⟨rfl, rfl, rfl⟩))
        · have hapart := hs.apart _ _ _ _ _ _ ho hm hstop
          omega

/-- Where the joined segment lies, and what a lookup of free segments then gives. -/
theorem exists_joins_find? (hs : s.Sound) (offset length : Nat) :
    ∃ start stop, s.Joins offset length start stop ∧ ∀ k,
      (s.joined offset length).available.find? k =
        if start = k then some (stop - start)
        else if offset + length = k then none else s.available.find? k := by
  obtain ⟨start, hfront, hfind⟩ := find?_coalesce s.available offset length
  refine ⟨start, coalescedStop s.available offset length,
    ⟨hfront.imp (fun h => ⟨h.1, hs.below?_complete h.2⟩) id, ?_⟩, hfind⟩
  simp only [coalescedStop, Has]
  cases s.available.find? (offset + length) with
  | none => exact .inl ⟨rfl, fun n h => nomatch h⟩
  | some n => exact .inr ⟨n, rfl, rfl⟩

theorem Joins.has_available (hs : s.Sound) (hhas : s.Has offset length .reserved)
    (hj : s.Joins offset length start stop)
    (hfind : ∀ k, (s.joined offset length).available.find? k =
      if start = k then some (stop - start)
      else if offset + length = k then none else s.available.find? k) (o n : Nat) :
    (s.joined offset length).Has o n .available ↔ (o = start ∧ n = stop - start) ∨
      (s.Has o n .available ∧ (o + n ≤ start ∨ stop ≤ o)) := by
  have hle := hj.bounds hs hhas
  have hlen := hs.pos _ _ _ hhas
  rw [Has, hfind]
  by_cases hstart : start = o
  · subst hstart
    rw [if_pos rfl, Option.some.injEq]
    refine ⟨fun h => .inl ⟨rfl, h.symm⟩, fun h => ?_⟩
    rcases h with ⟨-, rfl⟩ | ⟨hold, hout⟩
    · rfl
    · have hpos := hs.pos _ _ _ hold
      omega
  · have hno : ¬ (o = start ∧ n = stop - start) := fun h => hstart h.1.symm
    rw [if_neg hstart, or_iff_right hno]
    by_cases hstop : offset + length = o
    · subst hstop
      refine (if_pos rfl).symm ▸ ⟨fun h => (nomatch h), fun ⟨hold, hout⟩ => ?_⟩
      rcases hj.behind with ⟨-, hnone⟩ | ⟨m, hm, rfl⟩
      · exact absurd hold (hnone n)
      · have hpos := hs.pos _ _ _ hm
        omega
    · rw [if_neg hstop]
      refine ⟨fun hold => ⟨hold, ?_⟩, fun h => h.1⟩
      have hold : s.Has o n .available := hold
      rcases hj.cases hs hhas hold with ⟨hk, -⟩ | ⟨-, ho, -⟩ | ⟨-, ho, -⟩ | hout
      · cases hk
      · exact absurd ho.symm hstart
      · exact absurd ho.symm hstop
      · exact hout

theorem Joins.has_reserved (hs : s.Sound) (hhas : s.Has offset length .reserved)
    (hj : s.Joins offset length start stop) (o n : Nat) :
    (s.joined offset length).Has o n .reserved ↔
      s.Has o n .reserved ∧ (o + n ≤ start ∨ stop ≤ o) := by
  have hle := hj.bounds hs hhas
  have hlen := hs.pos _ _ _ hhas
  simp only [Has, joined, SortedMap.find?_erase]
  by_cases hne : offset = o
  · subst hne
    refine (if_pos rfl).symm ▸ ⟨fun h => (nomatch h), fun h => ?_⟩
    have hold : s.Has offset n .reserved := h.1
    have hpos := hs.pos _ _ _ hold
    omega
  · rw [if_neg hne]
    refine ⟨fun hold => ⟨hold, ?_⟩, fun h => h.1⟩
    have hold : s.Has o n .reserved := hold
    rcases hj.cases hs hhas hold with ⟨-, ho, -⟩ | ⟨hk, -⟩ | ⟨hk, -⟩ | hout
    · exact absurd ho.symm hne
    · cases hk
    · cases hk
    · exact hout

theorem exists_joins (hs : s.Sound) (hhas : s.Has offset length .reserved) :
    ∃ start stop, s.Joins offset length start stop ∧ ∀ kind o n,
      (s.joined offset length).Has o n kind ↔
        (kind = .available ∧ o = start ∧ n = stop - start) ∨
          (s.Has o n kind ∧ (o + n ≤ start ∨ stop ≤ o)) := by
  obtain ⟨start, stop, hj, hfind⟩ := exists_joins_find? hs offset length
  refine ⟨start, stop, hj, fun kind o n => ?_⟩
  cases kind with
  | available => simpa using hj.has_available hs hhas hfind o n
  | reserved => simpa using hj.has_reserved hs hhas o n

theorem Sound.release (hs : s.Sound) (hhas : s.Has offset length .reserved) :
    (s.joined offset length).Sound := by
  obtain ⟨start, stop, hj, hiff⟩ := exists_joins hs hhas
  have hlen := hs.pos _ _ _ hhas
  have hle := hj.bounds hs hhas
  have hcases := fun kind o n => (hiff kind o n).1
  constructor
  · exact hs.unit_pos
  · intro kind o n h
    rcases hcases kind o n h with ⟨-, rfl, -⟩ | ⟨h, -⟩
    · rcases hj.front with ⟨rfl, -⟩ | ⟨n, hn, -⟩
      · exact hs.aligned _ _ _ hhas
      · exact hs.aligned _ _ _ hn
    · exact hs.aligned _ _ _ h
  · intro kind o n h
    rcases hcases kind o n h with ⟨-, -, rfl⟩ | ⟨h, -⟩
    · omega
    · exact hs.pos _ _ _ h
  · intro kind o n h
    rcases hcases kind o n h with ⟨-, rfl, rfl⟩ | ⟨h, -⟩
    · show o + (stop - o) ≤ s.total
      omega
    · exact hs.inside _ _ _ h
  · intro o n h
    rcases hcases _ o n h with ⟨hk, -⟩ | ⟨h, -⟩
    · cases hk
    · exact hs.whole _ _ h
  · intro o n h
    rcases hcases _ o n h with ⟨hk, -⟩ | ⟨h, -⟩
    · cases hk
    · exact hs.word _ _ h
  · intro kind kind' o n p m h h' hne
    rcases hcases kind o n h with ⟨rfl, rfl, rfl⟩ | ⟨hx, hox⟩ <;>
      rcases hcases kind' p m h' with ⟨rfl, rfl, rfl⟩ | ⟨hy, hpy⟩
    · exact absurd rfl hne
    · omega
    · omega
    · exact hs.apart _ _ _ _ _ _ hx hy hne

end Segments

end AffinityHeap
