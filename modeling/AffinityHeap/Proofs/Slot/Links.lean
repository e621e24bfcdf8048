import AffinityHeap.Proofs.Slot.View
import Mathlib.Data.List.Basic

namespace AffinityHeap

/-- Far enough from each other for a header and two links each, and written in a word. -/
structure Spaced (ps : List Nat) : Prop where
  pos : ∀ p ∈ ps, 0 < p
  lt : ∀ p ∈ ps, p < 0x100000000
  apart : ∀ p ∈ ps, ∀ q ∈ ps, p ≠ q → p + 4 ≤ q ∨ q + 4 ≤ p

/-- An end of a link: one of the positions or 0 for "none". -/
def Node (ps : List Nat) (x : Nat) : Prop := x = 0 ∨ x ∈ ps

namespace Spaced

variable {ps : List Nat} {x y : Nat}

theorem node_lt (hps : Spaced ps) (hx : Node ps x) : x < 0x100000000 := by
  rcases hx with rfl | hx
  · decide
  · exact hps.lt x hx

theorem add_ne (hps : Spaced ps) (hx : x ∈ ps) (hy : y ∈ ps) {i j : Nat} (hi : i < 4) (hj : j < 4)
    (hij : i ≠ j) : x + i ≠ y + j := by
  rcases eq_or_ne x y with rfl | hne
  · omega
  · have hapart := hps.apart x hx y hy hne
    omega

theorem add_ne_of_ne (hps : Spaced ps) (hx : x ∈ ps) (hy : y ∈ ps) (hne : x ≠ y) {i j : Nat}
    (hi : i < 4) (hj : j < 4) : x + i ≠ y + j := by
  have hapart := hps.apart x hx y hy hne
  omega

end Spaced

namespace SlotView

def next (v : SlotView) (x : Nat) : Nat :=
  if x = 0 then v.block.freeHead else (v.word (x + 2)).toNat

def previous (v : SlotView) (y : Nat) : Nat := (v.word (y + 1)).toNat

/-- Makes `y` follow `x`, where 0 stands for the head in front and for the end behind. -/
def join (x y : Nat) (v : SlotView) : SlotView :=
  let v := if x = 0 then v.setBlock fun b => { b with freeHead := y }
    else v.setWord (x + 2) (UInt32.ofNat y)
  if y = 0 then v else v.setWord (y + 1) (UInt32.ofNat x)

theorem word_join (v : SlotView) (x y q : Nat) :
    (v.join x y).word q =
      if y ≠ 0 ∧ q = y + 1 then UInt32.ofNat x
      else if x ≠ 0 ∧ q = x + 2 then UInt32.ofNat y else v.word q := by
  by_cases hx : x = 0 <;> by_cases hy : y = 0 <;> simp [join, hx, hy, word_setWord]

theorem block_join (v : SlotView) (x y : Nat) :
    (v.join x y).block = if x = 0 then { v.block with freeHead := y } else v.block := by
  by_cases hx : x = 0 <;> by_cases hy : y = 0 <;> simp [join, hx, hy]

theorem inRange_join {v : SlotView} {x y p : Nat} :
    (v.join x y).block.InRange p ↔ v.block.InRange p := by
  rw [block_join]
  split <;> rfl

section Join

variable {ps : List Nat} {v : SlotView} {x y z : Nat}

theorem word_join_of_mem (hps : Spaced ps) (hx : Node ps x) (hy : Node ps y) (hz : z ∈ ps) :
    (v.join x y).word z = v.word z := by
  rw [word_join, if_neg, if_neg]
  · rintro ⟨h0, rfl⟩
    exact hps.add_ne hz (hx.resolve_left h0) (i := 0) (j := 2) (by omega) (by omega) (by omega) rfl
  · rintro ⟨h0, rfl⟩
    exact hps.add_ne hz (hy.resolve_left h0) (i := 0) (j := 1) (by omega) (by omega) (by omega) rfl

theorem next_join_self (hps : Spaced ps) (hx : Node ps x) (hy : Node ps y) :
    (v.join x y).next x = y := by
  by_cases h0 : x = 0
  · simp [next, h0, block_join]
  · have hne : ¬ (y ≠ 0 ∧ x + 2 = y + 1) := fun h => hps.add_ne (hx.resolve_left h0)
      (hy.resolve_left h.1) (i := 2) (j := 1) (by omega) (by omega) (by omega) h.2
    rw [next, if_neg h0, word_join, if_neg hne, if_pos ⟨h0, rfl⟩]
    exact UInt32.toNat_ofNat_of_lt' (hps.node_lt hy)

theorem previous_join_self (hps : Spaced ps) (hx : Node ps x) (hy : y ∈ ps) :
    (v.join x y).previous y = x := by
  rw [previous, word_join, if_pos ⟨Nat.ne_of_gt (hps.pos y hy), rfl⟩]
  exact UInt32.toNat_ofNat_of_lt' (hps.node_lt hx)

theorem next_join_of_ne (hps : Spaced ps) (hy : Node ps y) (hz : Node ps z) (hzx : z ≠ x) :
    (v.join x y).next z = v.next z := by
  by_cases h0 : z = 0
  · have hx0 : x ≠ 0 := fun h => hzx (h0.trans h.symm)
    simp [next, h0, block_join, hx0]
  · have hzy : ¬ (y ≠ 0 ∧ z + 2 = y + 1) := fun h => hps.add_ne (hz.resolve_left h0)
      (hy.resolve_left h.1) (i := 2) (j := 1) (by omega) (by omega) (by omega) h.2
    have hzx' : ¬ (x ≠ 0 ∧ z + 2 = x + 2) := fun h => hzx (by omega)
    rw [next, if_neg h0, word_join, if_neg hzy, if_neg hzx', next, if_neg h0]

theorem previous_join_of_ne (hps : Spaced ps) (hx : Node ps x) (hz : z ∈ ps) (hzy : z ≠ y) :
    (v.join x y).previous z = v.previous z := by
  have hzx : ¬ (x ≠ 0 ∧ z + 1 = x + 2) := fun h => hps.add_ne hz
      (hx.resolve_left h.1) (i := 1) (j := 2) (by omega) (by omega) (by omega) h.2
  rw [previous, word_join, if_neg (fun h => hzy (by omega)), if_neg hzx, previous]

end Join

/-- The nodes that follow `x` one after the other, linked both ways. -/
def Path (v : SlotView) : Nat → List Nat → Prop
  | _, [] => True
  | x, y :: rest => v.next x = y ∧ v.previous y = x ∧ v.Path y rest

def Linked (v : SlotView) (x : Nat) (l : List Nat) : Prop :=
  v.Path x l ∧ v.next (l.getLastD x) = 0

def EndLinked (v : SlotView) : List Nat → Prop
  | [] => True
  | y :: rest => v.Linked y rest

theorem path_append {v : SlotView} {X Y : List Nat} {x : Nat} :
    v.Path x (X ++ Y) ↔ v.Path x X ∧ v.Path (X.getLastD x) Y := by
  induction X generalizing x with
  | nil => simp [Path]
  | cons y X ih => simp only [List.cons_append, Path, ih, List.getLastD_cons, and_assoc]

theorem path_congr {v v' : SlotView} {X : List Nat} {x : Nat} (h : v.Path x X)
    (hn : ∀ z ∈ (x :: X).dropLast, v'.next z = v.next z)
    (hp : ∀ z ∈ X, v'.previous z = v.previous z) : v'.Path x X := by
  induction X generalizing x with
  | nil => trivial
  | cons y X ih =>
      obtain ⟨hx, hy, h⟩ := h
      refine ⟨?_, ?_, ih h (fun z hz => hn z ?_) (fun z hz => hp z (List.mem_cons_of_mem _ hz))⟩
      · exact (hn x (List.mem_cons_self ..)).trans hx
      · exact (hp y (List.mem_cons_self ..)).trans hy
      · exact List.mem_cons_of_mem _ hz

theorem linked_congr {v v' : SlotView} {X : List Nat} {x : Nat} (h : v.Linked x X)
    (hn : ∀ z ∈ x :: X, v'.next z = v.next z)
    (hp : ∀ z ∈ X, v'.previous z = v.previous z) : v'.Linked x X := by
  refine ⟨path_congr h.1 (fun z hz => hn z (List.dropLast_subset _ hz)) hp, ?_⟩
  rw [hn _ (List.getLastD_mem_cons ..), h.2]

theorem linked_split {v : SlotView} {X Y : List Nat} {x p : Nat} (h : v.Linked x (X ++ p :: Y)) :
    v.next (X.getLastD x) = p ∧ v.previous p = X.getLastD x ∧ v.next p = Y.headD 0 ∧
      v.Path x X ∧ v.EndLinked Y := by
  obtain ⟨hpath, hend⟩ := h
  obtain ⟨hX, hn, hp, hY⟩ := path_append.1 hpath
  refine ⟨hn, hp, ?_, hX, ?_⟩
  · cases Y with
    | nil => simpa using hend
    | cons y Y => exact hY.1
  · cases Y with
    | nil => trivial
    | cons y Y =>
        refine ⟨hY.2.2, ?_⟩
        simpa [List.getLast?_cons] using hend

theorem Linked.head_eq {v : SlotView} {l : List Nat} (h : v.Linked 0 l) :
    v.block.freeHead = l.headD 0 := by
  cases l with
  | nil => simpa [next] using h.2
  | cons y l => simpa [next] using h.1.1

theorem Linked.endLinked {v : SlotView} {l : List Nat} {x : Nat} (h : v.Linked x l) :
    v.EndLinked l := by
  cases l with
  | nil => trivial
  | cons y l => exact ⟨h.1.2.2, by simpa [List.getLast?_cons] using h.2⟩

section Ends

variable {v : SlotView} {l X Y : List Nat} {p n : Nat}

theorem previous_of_next (h : v.Linked 0 l) (hp : p ∈ l) (hn : v.next p = n) (h0 : n ≠ 0) :
    v.previous n = p := by
  obtain ⟨U, W, rfl⟩ := List.append_of_mem hp
  obtain ⟨-, -, hW, -, hend⟩ := linked_split h
  cases W with
  | nil => exact absurd (hn.symm.trans hW) h0
  | cons m W =>
      obtain rfl : n = m := hn.symm.trans hW
      have h' : v.Linked 0 ((U ++ [p]) ++ n :: W) := by simpa using h
      simpa using (linked_split h').2.1

theorem next_of_previous (h : v.Linked 0 l) (hp : p ∈ l) (hn : v.previous p = n) :
    v.next n = p := by
  obtain ⟨U, W, rfl⟩ := List.append_of_mem hp
  obtain ⟨hU, hpU, -⟩ := linked_split h
  rw [← hn, hpU, hU]

theorem freeHead_eq_iff (h : v.Linked 0 (X ++ n :: Y)) (hpos : ∀ q ∈ X ++ n :: Y, 0 < q)
    (hnd : (X ++ n :: Y).Nodup) : v.block.freeHead = n ↔ X.getLastD 0 = 0 := by
  cases X with
  | nil => simpa [next] using h.1.1
  | cons x X =>
      have hx : v.block.freeHead = x := by simpa [next] using h.1.1
      have hxn : x ≠ n := fun hxn => (List.nodup_cons.1 hnd).1 (by simp [hxn])
      have hlast : (x :: X).getLastD 0 ∈ x :: X := by
        rw [List.getLastD_cons]
        exact List.getLastD_mem_cons
      have hlast0 := hpos _ (List.mem_append_left _ hlast)
      rw [hx]
      exact ⟨fun h => absurd h hxn, fun h => absurd h (Nat.ne_of_gt hlast0)⟩

end Ends

section Surgery

variable {ps : List Nat} {v : SlotView} {X Y : List Nat} {m : Nat}

theorem getLastD_cases (X : List Nat) : X.getLastD 0 = 0 ∨ X.getLastD 0 ∈ X :=
  List.mem_cons.1 List.getLastD_mem_cons

theorem getLastD_ne (h0 : m ≠ 0) (hm : m ∉ X) : X.getLastD 0 ≠ m := by
  rintro rfl
  exact (getLastD_cases X).elim h0 hm

theorem headD_ne (h0 : m ≠ 0) (hm : m ∉ Y) : Y.headD 0 ≠ m := by
  rintro rfl
  cases Y with
  | nil => exact h0 rfl
  | cons y Y => exact hm (List.mem_cons_self ..)

theorem node_getLastD (hX : ∀ z ∈ X, z ∈ ps) : Node ps (X.getLastD 0) :=
  (getLastD_cases X).imp_right (hX _)

theorem node_headD (hY : ∀ z ∈ Y, z ∈ ps) : Node ps (Y.headD 0) := by
  cases Y with
  | nil => exact .inl rfl
  | cons y Y => exact .inr (hY y (List.mem_cons_self ..))

theorem nodes_around (hl : ∀ z ∈ X ++ m :: Y, z ∈ ps) :
    Node ps (X.getLastD 0) ∧ Node ps (Y.headD 0) :=
  ⟨node_getLastD fun z hz => hl z (by simp [hz]), node_headD fun z hz => hl z (by simp [hz])⟩

theorem getLastD_notMem (hps : Spaced ps) (hY : ∀ z ∈ Y, z ∈ ps) (hXY : ∀ z ∈ X, z ∉ Y) :
    X.getLastD 0 ∉ Y := by
  intro h
  rcases getLastD_cases X with h0 | hX
  · exact Nat.ne_of_gt (hps.pos _ (hY _ h)) h0
  · exact hXY _ hX h

theorem getLastD_notMem_dropLast (hX : (0 :: X).Nodup) :
    X.getLastD 0 ∉ (0 :: X).dropLast := by
  rcases List.eq_nil_or_concat X with rfl | ⟨X, z, rfl⟩
  · simp
  · rw [List.concat_eq_append] at hX ⊢
    rw [← List.cons_append] at hX ⊢
    rw [List.dropLast_concat, show (X ++ [z]).getLastD 0 = z by simp]
    exact fun h => (List.nodup_append.1 hX).2.2 z h z (List.mem_singleton_self z) rfl

/-- Joining the end of one stretch to a node leaves the stretch in front as it was. -/
theorem path_join (hps : Spaced ps) (hX : ∀ z ∈ X, z ∈ ps) (hnd : X.Nodup) (hm : Node ps m)
    (hmX : m ∉ X) (h : v.Path 0 X) : (v.join (X.getLastD 0) m).Path 0 X := by
  have h0 : (0 :: X).Nodup :=
    List.nodup_cons.2 ⟨fun h0 => Nat.lt_irrefl 0 (hps.pos 0 (hX 0 h0)), hnd⟩
  refine path_congr h (fun z hz => next_join_of_ne hps hm ?_ ?_)
    (fun z hz => previous_join_of_ne hps (node_getLastD hX) (hX z hz) ?_)
  · rcases List.mem_cons.1 (List.dropLast_subset _ hz) with rfl | hz
    · exact .inl rfl
    · exact .inr (hX z hz)
  · rintro rfl
    exact getLastD_notMem_dropLast h0 hz
  · rintro rfl
    exact hmX hz

theorem path_join_concat (hps : Spaced ps) (hX : ∀ z ∈ X, z ∈ ps) (hnd : X.Nodup) (hm : m ∈ ps)
    (hmX : m ∉ X) (h : v.Path 0 X) : (v.join (X.getLastD 0) m).Path 0 (X ++ [m]) :=
  path_append.2 ⟨path_join hps hX hnd (.inr hm) hmX h,
    next_join_self hps (node_getLastD hX) (.inr hm),
    previous_join_self hps (node_getLastD hX) hm, trivial⟩

theorem endLinked_join {x : Nat} (hps : Spaced ps) (hY : ∀ z ∈ Y, z ∈ ps) (hnd : Y.Nodup)
    (hx : Node ps x) (hxY : x ∉ Y) (hm : Node ps m) (hmY : m = Y.headD 0 ∨ m ∉ Y)
    (h : v.EndLinked Y) : (v.join x m).EndLinked Y := by
  cases Y with
  | nil => trivial
  | cons y Y =>
      refine linked_congr h
        (fun z hz => next_join_of_ne hps hm (.inr (hY z hz)) (fun hzx => hxY (hzx ▸ hz)))
        (fun z hz => previous_join_of_ne hps hx (hY z (List.mem_cons_of_mem _ hz)) ?_)
      rintro rfl
      rcases hmY with hmY | hmY
      · have hzy : z = y := hmY
        exact (List.nodup_cons.1 hnd).1 (hzy ▸ hz)
      · exact hmY (List.mem_cons_of_mem _ hz)

/-- Two stretches become one list by joining their ends. -/
theorem linked_join (hps : Spaced ps) (hX : ∀ z ∈ X, z ∈ ps) (hY : ∀ z ∈ Y, z ∈ ps)
    (hnd : (X ++ Y).Nodup) (hpath : v.Path 0 X) (hend : v.EndLinked Y) :
    (v.join (X.getLastD 0) (Y.headD 0)).Linked 0 (X ++ Y) := by
  obtain ⟨hndX, hndY, hdisj⟩ := List.nodup_append.1 hnd
  have hlast := node_getLastD hX
  have hlastY : X.getLastD 0 ∉ Y := getLastD_notMem hps hY fun z hz hzY => hdisj z hz z hzY rfl
  have hend' := endLinked_join hps hY hndY hlast hlastY (node_headD hY) (.inl rfl) hend
  have hself := next_join_self (v := v) hps hlast (node_headD hY)
  cases Y with
  | nil =>
      refine ⟨?_, by simpa using hself⟩
      rw [List.append_nil]
      exact path_join hps hX hndX (.inl rfl)
        (fun h => Nat.lt_irrefl 0 (hps.pos 0 (hX 0 h))) hpath
  | cons y Y =>
      have hyX : y ∉ X := fun h => hdisj y h y (List.mem_cons_self ..) rfl
      have hy : y ∈ ps := hY y (List.mem_cons_self ..)
      refine ⟨path_append.2 ⟨path_join hps hX hndX (.inr hy) hyX hpath, hself,
        previous_join_self hps hlast hy, hend'.1⟩, ?_⟩
      simpa [List.getLast?_cons] using hend'.2

theorem linked_unlink (hps : Spaced ps) (hl : ∀ z ∈ X ++ m :: Y, z ∈ ps)
    (hnd : (X ++ m :: Y).Nodup) (h : v.Linked 0 (X ++ m :: Y)) :
    (v.join (X.getLastD 0) (Y.headD 0)).Linked 0 (X ++ Y) := by
  obtain ⟨-, -, -, hpath, hend⟩ := linked_split h
  have hsub : (X ++ Y).Sublist (X ++ m :: Y) := (List.sublist_cons_self m Y).append_left X
  exact linked_join hps (fun z hz => hl z (List.mem_append_left _ hz))
    (fun z hz => hl z (hsub.subset (List.mem_append_right _ hz))) (hnd.sublist hsub) hpath hend

theorem linked_insert (hps : Spaced ps) (hl : ∀ z ∈ X ++ m :: Y, z ∈ ps)
    (hnd : (X ++ m :: Y).Nodup) (hpath : v.Path 0 X) (hend : v.EndLinked Y) :
    ((v.join (X.getLastD 0) m).join m (Y.headD 0)).Linked 0 (X ++ m :: Y) := by
  have hX : ∀ z ∈ X, z ∈ ps := fun z hz => hl z (List.mem_append_left _ hz)
  have hm : m ∈ ps := hl m (by simp)
  have hY : ∀ z ∈ Y, z ∈ ps := fun z hz => hl z (by simp [hz])
  obtain ⟨hndX, hndY, hdisj⟩ := List.nodup_append.1 hnd
  have hmX : m ∉ X := fun h => hdisj m h m (List.mem_cons_self ..) rfl
  have hmY : m ∉ Y := (List.nodup_cons.1 hndY).1
  have hlastY : X.getLastD 0 ∉ Y := getLastD_notMem hps hY fun z hz hzY =>
    hdisj z hz z (List.mem_cons_of_mem _ hzY) rfl
  have hpath' := path_join_concat hps hX hndX hm hmX hpath
  have hend' := endLinked_join hps hY (List.nodup_cons.1 hndY).2 (node_getLastD hX) hlastY
    (.inr hm) (.inr hmY) hend
  have hXm : ∀ z ∈ X ++ [m], z ∈ ps := fun z hz => by
    rcases List.mem_append.1 hz with hz | hz
    · exact hX z hz
    · exact List.mem_singleton.1 hz ▸ hm
  have h := linked_join hps hXm hY (by simpa using hnd) hpath' hend'
  simpa using h

end Surgery

end SlotView

end AffinityHeap
