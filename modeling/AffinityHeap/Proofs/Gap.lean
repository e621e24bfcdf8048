namespace AffinityHeap

variable {lo hi o n : Nat} {free held : Nat → Nat → Prop}

/-- Some held piece, given by its offset and its length, takes in `x`. -/
def Covered (held : Nat → Nat → Prop) (x : Nat) : Prop := ∃ p m, held p m ∧ p ≤ x ∧ x < p + m

/-- A maximal run of places from `lo` to `hi` that no held piece takes in. -/
structure Gap (lo hi : Nat) (held : Nat → Nat → Prop) (o n : Nat) : Prop where
  pos : 0 < n
  low : lo ≤ o
  high : o + n ≤ hi
  clear : ∀ x, o ≤ x → x < o + n → ¬ Covered held x
  front : o = lo ∨ Covered held (o - 1)
  behind : o + n = hi ∨ Covered held (o + n)

/-- A range cut up into free pieces and held ones, no two of the free ones side by side. -/
structure Division (lo hi : Nat) (free held : Nat → Nat → Prop) : Prop where
  within : ∀ o n, free o n → 0 < n ∧ lo ≤ o ∧ o + n ≤ hi
  covers : ∀ x, lo ≤ x → x < hi → Covered free x ∨ Covered held x
  apart : ∀ o n p m, free o n → held p m → o + n ≤ p ∨ p + m ≤ o
  alone : ∀ o n p m, free o n → free p m → (o, n) ≠ (p, m) → o + n < p ∨ p + m < o

namespace Division

theorem not_covered (hd : Division lo hi free held) (h : free o n) :
    ∀ x, o ≤ x → x < o + n → ¬ Covered held x := by
  rintro x hlow hhigh ⟨p, m, hp, hpx, hxp⟩
  have hapart := hd.apart _ _ _ _ h hp
  omega

theorem gap (hd : Division lo hi free held) (h : free o n) : Gap lo hi held o n := by
  obtain ⟨hpos, hlow, hhigh⟩ := hd.within _ _ h
  refine ⟨hpos, hlow, hhigh, hd.not_covered h, ?_, ?_⟩
  · refine Classical.or_iff_not_imp_left.2 fun hfront => ?_
    refine (hd.covers (o - 1) (by omega) (by omega)).resolve_left ?_
    rintro ⟨p, m, hp, hpx, hxp⟩
    have halone := hd.alone _ _ _ _ h hp fun heq => by
      have hstart := (Prod.mk.inj heq).1
      omega
    omega
  · refine Classical.or_iff_not_imp_left.2 fun hbehind => ?_
    refine (hd.covers (o + n) (by omega) (by omega)).resolve_left ?_
    rintro ⟨p, m, hp, hpx, hxp⟩
    have halone := hd.alone _ _ _ _ h hp fun heq => by
      obtain ⟨rfl, rfl⟩ := Prod.mk.inj heq
      omega
    omega

/-- The free pieces are the gaps between the held ones. -/
theorem free_iff (hd : Division lo hi free held) : free o n ↔ Gap lo hi held o n := by
  refine ⟨hd.gap, fun hg => ?_⟩
  have hpos := hg.pos
  have hlow := hg.low
  have hhigh := hg.high
  obtain ⟨p, m, hp, hpx, hxp⟩ :=
    (hd.covers o hlow (by omega)).resolve_right (hg.clear o (Nat.le_refl _) (by omega))
  obtain ⟨-, hplow, hphigh⟩ := hd.within _ _ hp
  obtain rfl : p = o := by
    rcases hg.front with rfl | hcover
    · omega
    · exact Classical.byContradiction fun hne =>
        hd.not_covered hp (o - 1) (by omega) (by omega) hcover
  have hgap := hd.gap hp
  obtain rfl : m = n := by
    refine Nat.le_antisymm (Nat.not_lt.1 fun hlt => ?_) (Nat.not_lt.1 fun hlt => ?_)
    · rcases hg.behind with hend | hcover
      · omega
      · exact hgap.clear _ (by omega) (by omega) hcover
    · rcases hgap.behind with hend | hcover
      · omega
      · exact hg.clear _ (by omega) (by omega) hcover
  exact hp

end Division

end AffinityHeap
