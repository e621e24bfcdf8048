import AffinityHeap.Proofs.Slot.Layout
import Mathlib.Tactic.Tauto

namespace AffinityHeap

open Slot (Tiled lastSpan)

namespace SlotView

variable {v w u : SlotView} {l A B : List Slot} {ps free : List Nat} {x y p : Nat}

/-- Tells the first slot of `l` the span of the slot now in front of it. -/
def rebase (back : Nat) (l : List Slot) (v : SlotView) : SlotView :=
  match l with
  | [] => v
  | s :: _ => v.setWord s.position ({ s with back } : Slot).encode

@[simp] theorem block_rebase (back : Nat) : (v.rebase back l).block = v.block := by
  cases l <;> rfl

/-- Zeroes the words at the given positions. -/
def clear (gone : List Nat) (v : SlotView) : SlotView := gone.foldl (fun v p => v.setWord p 0) v

@[simp] theorem block_clear (gone : List Nat) : (v.clear gone).block = v.block := by
  induction gone generalizing v with
  | nil => rfl
  | cons p gone ih => exact ih

theorem word_clear (gone : List Nat) (q : Nat) :
    (v.clear gone).word q = if q ∈ gone then 0 else v.word q := by
  induction gone generalizing v with
  | nil => simp [clear]
  | cons p gone ih =>
      rw [show v.clear (p :: gone) = (v.setWord p 0).clear gone from rfl, ih, word_setWord]
      by_cases hq : q ∈ gone <;> by_cases hp : q = p <;> simp [hq, hp]

def setNext (x y : Nat) (v : SlotView) : SlotView :=
  if x = 0 then v else v.setWord (x + 2) (UInt32.ofNat y)

def setPrevious (y x : Nat) (v : SlotView) : SlotView :=
  if y = 0 then v else v.setWord (y + 1) (UInt32.ofNat x)

@[simp] theorem block_setNext : (v.setNext x y).block = v.block := by
  rw [setNext]
  split <;> rfl

@[simp] theorem block_setPrevious : (v.setPrevious y x).block = v.block := by
  rw [setPrevious]
  split <;> rfl

theorem word_setNext (q : Nat) : (v.setNext x y).word q =
    if x ≠ 0 ∧ q = x + 2 then UInt32.ofNat y else v.word q := by
  by_cases hx : x = 0 <;> simp [setNext, hx, word_setWord]

theorem word_setPrevious (q : Nat) : (v.setPrevious y x).word q =
    if y ≠ 0 ∧ q = y + 1 then UInt32.ofNat x else v.word q := by
  by_cases hy : y = 0 <;> simp [setPrevious, hy, word_setWord]

section Around

variable {c : Nat} (hps : Spaced ps) (hc : c ∈ ps) (hx : Node ps x) (hy : Node ps y)
  (hxc : x ≠ c) (hyc : y ≠ c)

include hps hc hx hy hxc hyc

theorem links_apart : c ≠ 0 ∧ (x ≠ 0 → x + 2 ≠ c + 1 ∧ x + 2 ≠ c + 2) ∧
    (y ≠ 0 → y + 1 ≠ c + 1 ∧ y + 1 ≠ c + 2) ∧ (x ≠ 0 → y ≠ 0 → x + 2 ≠ y + 1) := by
  refine ⟨Nat.ne_of_gt (hps.pos c hc), fun h => ⟨?_, by omega⟩, fun h => ⟨by omega, ?_⟩,
    fun h h' => ?_⟩
  · exact hps.add_ne_of_ne (hx.resolve_left h) hc hxc (by omega) (by omega)
  · exact hps.add_ne_of_ne (hy.resolve_left h) hc hyc (by omega) (by omega)
  · exact hps.add_ne (hx.resolve_left h) (hy.resolve_left h') (by omega) (by omega) (by omega)

/-- The four links between `x`, `c` and `y` may be written in any order. -/
theorem word_links_inner_last (q : Nat) :
    ((((v.setNext x c).setPrevious y c).setWord (c + 1) (UInt32.ofNat x)).setWord (c + 2)
      (UInt32.ofNat y)).word q = ((v.join x c).join c y).word q := by
  have hapart := links_apart hps hc hx hy hxc hyc
  simp only [word_setWord, word_setPrevious, word_setNext, word_join]
  grind

theorem word_links_inner_first (q : Nat) :
    ((((v.setWord (c + 1) (UInt32.ofNat x)).setWord (c + 2) (UInt32.ofNat y)).setNext x
      c).setPrevious y c).word q = ((v.join x c).join c y).word q := by
  have hapart := links_apart hps hc hx hy hxc hyc
  simp only [word_setWord, word_setPrevious, word_setNext, word_join]
  grind

end Around

theorem word_rebase_congr (h : ∀ q, v.word q = w.word q) (back : Nat) (q : Nat) :
    (v.rebase back B).word q = (w.rebase back B).word q := by
  cases B with
  | nil => exact h q
  | cons s B => simp only [rebase, word_setWord, h]

theorem headed_append : v.Headed (A ++ B) ↔ v.Headed A ∧ v.Headed B := List.forall_mem_append

theorem headed_cons {s : Slot} : v.Headed (s :: l) ↔ v.word s.position = s.encode ∧ v.Headed l :=
  List.forall_mem_cons

theorem Headed.setWord (h : v.Headed l) (hp : ∀ s ∈ l, s.position ≠ p) (w : UInt32) :
    (v.setWord p w).Headed l := by
  intro s hs
  rw [word_setWord, if_neg (hp s hs), h s hs]

theorem Headed.join (h : v.Headed l) (hps : Spaced ps) (hl : ∀ s ∈ l, s.position ∈ ps)
    (hx : Node ps x) (hy : Node ps y) : (v.join x y).Headed l := by
  intro s hs
  rw [word_join_of_mem hps hx hy (hl s hs), h s hs]

theorem Headed.update {s t : Slot} (h : v.Headed (A ++ s :: B))
    (hnd : ((A ++ s :: B).map (·.position)).Nodup) (hst : t.position = s.position) :
    (v.setWord s.position t.encode).Headed (A ++ t :: B) := by
  simp only [List.map_append, List.map_cons, List.nodup_append, List.nodup_cons] at hnd
  obtain ⟨-, ⟨hsB, -⟩, hAB⟩ := hnd
  rw [headed_append, headed_cons] at h ⊢
  refine ⟨h.1.setWord (fun x hx hxs => ?_) _, ?_, h.2.2.setWord (fun x hx hxs => ?_) _⟩
  · exact hAB _ (List.mem_map_of_mem hx) _ (List.mem_cons_self ..) hxs
  · rw [hst, word_setWord, if_pos rfl]
  · exact hsB (List.mem_map.2 ⟨x, hx, hxs⟩)

theorem Headed.rebase (h : v.Headed (A ++ B)) (hnd : ((A ++ B).map (·.position)).Nodup)
    (back : Nat) : (v.rebase back B).Headed (A ++ Slot.rebase back B) := by
  cases B with
  | nil => exact h
  | cons s B => exact h.update hnd rfl

theorem Headed.clear (h : v.Headed l) {gone : List Nat} (hl : ∀ s ∈ l, s.position ∉ gone) :
    (v.clear gone).Headed l := by
  intro s hs
  rw [word_clear, if_neg (hl s hs), h s hs]

theorem linked_of_eq {l : List Nat} (h : v.Linked 0 l) (hl : ∀ p ∈ l, 0 < p)
    (hhead : w.block.freeHead = v.block.freeHead)
    (hw : ∀ p ∈ l, w.word (p + 1) = v.word (p + 1) ∧ w.word (p + 2) = v.word (p + 2)) :
    w.Linked 0 l := by
  refine linked_congr h (fun z hz => ?_) (fun z hz => by rw [previous, (hw z hz).1, previous])
  rcases List.mem_cons.1 hz with rfl | hz
  · exact hhead
  · have hne := Nat.ne_of_gt (hl z hz)
    rw [next, if_neg hne, (hw z hz).2, next, if_neg hne]

theorem Linked.setWord {l : List Nat} (h : v.Linked 0 l) (hps : Spaced ps) (hl : ∀ q ∈ l, q ∈ ps)
    (hp : p ∈ ps) (w : UInt32) : (v.setWord p w).Linked 0 l := by
  refine linked_of_eq h (fun q hq => hps.pos q (hl q hq)) rfl fun q hq => ⟨?_, ?_⟩
  · rw [word_setWord, if_neg]
    exact hps.add_ne (hl q hq) hp (j := 0) (by omega) (by omega) (by omega)
  · rw [word_setWord, if_neg]
    exact hps.add_ne (hl q hq) hp (j := 0) (by omega) (by omega) (by omega)

theorem Linked.rebase {l : List Nat} (h : v.Linked 0 l) (hps : Spaced ps) (hl : ∀ q ∈ l, q ∈ ps)
    (hB : ∀ s ∈ B, s.position ∈ ps) (back : Nat) : (v.rebase back B).Linked 0 l := by
  cases B with
  | nil => exact h
  | cons s B => exact h.setWord hps hl (hB s (List.mem_cons_self ..)) _

theorem Linked.clear {l gone : List Nat} (h : v.Linked 0 l) (hps : Spaced ps)
    (hl : ∀ q ∈ l, q ∈ ps) (hgone : ∀ p ∈ gone, p ∈ ps) : (v.clear gone).Linked 0 l := by
  induction gone generalizing v with
  | nil => exact h
  | cons p gone ih =>
      exact ih (h.setWord hps hl (hgone p (List.mem_cons_self ..)) 0)
        fun q hq => hgone q (List.mem_cons_of_mem _ hq)

theorem Linked.setBlock {l : List Nat} (h : v.Linked 0 l) {f : SlotBlock → SlotBlock}
    (hf : (f v.block).freeHead = v.block.freeHead) : (v.setBlock f).Linked 0 l := by
  refine linked_congr h (fun z _ => ?_) (fun _ _ => rfl)
  simp only [next, block_setBlock, word_setBlock, hf]

theorem Shows.setBlock {L : Layout} (h : v.Shows L) {f : SlotBlock → SlotBlock}
    (hf : (f v.block).freeHead = v.block.freeHead) (hc : (f v.block).freeCount = v.block.freeCount) :
    (v.setBlock f).Shows L :=
  ⟨h.headed, h.linked.setBlock hf, hc.trans h.counted⟩

/-- Only headers at `ps` and links of the slots in `free` differ. -/
def Written (ps free : List Nat) (v v' : SlotView) : Prop :=
  ∀ q, v'.word q = v.word q ∨ q ∈ ps ∨
    ∃ x ∈ free, (q = x + 1 ∨ q = x + 2) ∧ Node free (v'.word q).toNat

namespace Written

theorem refl (ps free : List Nat) (v : SlotView) : Written ps free v v := fun _ => .inl rfl

theorem trans (h : Written ps free v w) (h' : Written ps free w u) : Written ps free v u := by
  intro q
  rcases h' q with hq | hq
  · rw [hq]
    exact h q
  · exact .inr hq

theorem setWord (h : Written ps free v w) (hp : p ∈ ps) (a : UInt32) :
    Written ps free v (w.setWord p a) := by
  intro q
  rw [word_setWord]
  split
  · rename_i hq
    exact .inr (.inl (hq ▸ hp))
  · exact h q

theorem setBlock (h : Written ps free v w) (f : SlotBlock → SlotBlock) :
    Written ps free v (w.setBlock f) := h

theorem rebase (h : Written ps free v w) (hB : ∀ s ∈ B, s.position ∈ ps) (back : Nat) :
    Written ps free v (w.rebase back B) := by
  cases B with
  | nil => exact h
  | cons s B => exact h.setWord (hB s (List.mem_cons_self ..)) _

theorem join (h : Written ps free v w) (hlt : ∀ z ∈ free, z < 0x100000000) (hx : Node free x)
    (hy : Node free y) : Written ps free v (w.join x y) := by
  have hnode : ∀ z, Node free z → Node free (UInt32.ofNat z).toNat := by
    rintro z (rfl | hz)
    · exact .inl rfl
    · rw [UInt32.toNat_ofNat_of_lt' (hlt z hz)]
      exact .inr hz
  intro q
  rw [word_join]
  split
  · rename_i hq
    exact .inr (.inr ⟨y, hy.resolve_left hq.1, .inl hq.2, hnode x hx⟩)
  · split
    · rename_i hq
      exact .inr (.inr ⟨x, hx.resolve_left hq.1, .inr hq.2, hnode y hy⟩)
    · exact h q

end Written

theorem rewrites_clear {L L' : Layout} (h : Written L'.positions L'.free v w) {G : List Nat}
    (hgone : ∀ q, q ∈ G ↔ q ∈ L.positions ∧ q ∉ L'.positions) :
    Rewrites L L' v (w.clear G) where
  written q hq := by
    have hq : q ∉ G := fun h => by
      have hout := (hgone q).1 h
      tauto
    rw [word_clear, if_neg hq]
    exact h q
  cleared q hq hq' := by rw [word_clear, if_pos ((hgone q).2 ⟨hq, hq'⟩)]

/-- Where every old position is still one, no header is left to be cleared. -/
theorem rewrites_of_subset {L L' : Layout} (h : Written L'.positions L'.free v w)
    (hsub : ∀ q ∈ L.positions, q ∈ L'.positions) : Rewrites L L' v w where
  written q _ := h q
  cleared q hq hq' := absurd (hsub q hq) hq'

end SlotView

namespace Layout

variable {b : SlotBlock} {L : Layout}

theorem Sound.inRange_of_mem (h : L.Sound b) {p k : Nat} (hp : p ∈ L.positions) (hk : k < 4) :
    b.InRange (p + k) := by
  obtain ⟨s, hs, rfl⟩ := List.mem_map.1 hp
  exact h.inRange hs (Nat.lt_of_lt_of_le hk (h.each s hs).span_ge)

theorem Sound.inRange_position (h : L.Sound b) {p : Nat} (hp : p ∈ L.positions) : b.InRange p :=
  h.inRange_of_mem hp (k := 0) (by omega)

theorem following_of_tiled {B : List Slot} {s : Slot} {back : Nat}
    (h : Tiled s.position back (s :: B) b.capacity) (hspan : ∀ t ∈ B, 0 < t.span) :
    b.following s.position s.toSlotHeader = (B.map (·.position)).headD 0 := by
  cases B with
  | nil =>
      have hstop : s.position + s.span = b.capacity := h.2.2
      simp [SlotBlock.following, hstop]
  | cons t B =>
      obtain ⟨-, -, hstart, -, hrest⟩ := h
      have hpos := hspan t (List.mem_cons_self ..)
      have hle := Slot.tiled_le hrest
      simp only [Slot.stop] at hstart hle
      rw [SlotBlock.following, if_neg (by omega)]
      simpa using hstart.symm

theorem Sound.following_eq (h : L.Sound b) {A B : List Slot} {s : Slot}
    (hL : L.slots = A ++ s :: B) :
    b.following s.position s.toSlotHeader = (B.map (·.position)).headD 0 := by
  obtain ⟨m, -, rfl, htiled⟩ := Slot.tiled_append.1 (hL ▸ h.tiled)
  refine following_of_tiled ⟨rfl, htiled⟩ fun t ht => ?_
  exact h.span_pos t (by simp [hL, ht])

theorem Sound.stop_eq (h : L.Sound b) {A B : List Slot} {s : Slot} (hL : L.slots = A ++ s :: B) :
    (s.stop < b.capacity ↔ B ≠ []) ∧ (B ≠ [] → s.stop = (B.map (·.position)).headD 0) := by
  obtain ⟨m, -, rfl, -, hB⟩ := Slot.tiled_append.1 (hL ▸ h.tiled)
  cases B with
  | nil => exact ⟨by simp [show s.stop = b.capacity from hB], fun h => absurd rfl h⟩
  | cons t B =>
      have ht : t ∈ L.slots := by simp [hL]
      have h1 := h.room ht
      have h2 := h.stop_le ht
      have h3 : t.position = s.stop := hB.1
      exact ⟨by simp only [ne_eq, reduceCtorEq, not_false_eq_true, iff_true]; omega,
        fun _ => h3.symm⟩

theorem Sound.replace {A M N B : List Slot} {Z : List Nat} (h : L.Sound b)
    (hL : L.slots = A ++ M ++ B) (hne : M ≠ [])
    (hM : ∀ m k m', Tiled m k M m' → Tiled m k N m') (heach : ∀ s ∈ N, s.Sound b.unit)
    (hfree : Z.Perm (freePositions A ++ freePositions N ++ freePositions B)) :
    Sound b ⟨A ++ N ++ Slot.rebase (lastSpan (lastSpan 0 A) N) B, Z⟩ where
  tiled := Slot.tiled_replace (hL ▸ h.tiled) fun m m' k => hM m k m'
  each := by
    intro s hs
    have hold := h.each
    rw [hL] at hold
    rcases List.mem_append.1 hs with hs | hs
    · rcases List.mem_append.1 hs with hs | hs
      · exact hold s (by simp [hs])
      · exact heach s hs
    · cases B with
      | nil => simp [Slot.rebase] at hs
      | cons t B =>
          rcases List.mem_cons.1 hs with rfl | hs
          · have ht := hold t (by simp)
            exact ⟨ht.span_ge, ht.span_le, ht.aligned⟩
          · exact hold s (by simp [hs])
  listed := by simpa using hfree
  inside := fun _ => h.inside (by simp [hL, hne])
  short := h.short

theorem Sound.fuse {A M B : List Slot} {s t : Slot} {Z : List Nat} (h : L.Sound b)
    (hL : L.slots = A ++ s :: M ++ B) (hst : t.position = s.position) (hback : t.back = s.back)
    (hspan : t.span = s.span + sumOf (M.map (·.span))) (hmax : t.span ≤ maxSpan)
    (hfree : Z.Perm (freePositions A ++ freePositions (t :: B))) :
    Sound b ⟨A ++ t :: Slot.rebase t.span B, Z⟩ := by
  have hs := h.each s (by simp [hL])
  have ht : t.Sound b.unit :=
    ⟨Nat.le_trans hs.span_ge (hspan ▸ Nat.le_add_right ..), hmax, hst ▸ hs.aligned⟩
  have hfused := h.replace (A := A) (M := s :: M) (N := [t]) (B := B) (Z := Z) hL (by simp)
    (fun m k m' hM => ?_) (by simpa) ?_
  · simpa [lastSpan] using hfused
  · have hstop := Slot.tiled_span hM
    rw [List.map_cons, sumOf_cons, ← hspan] at hstop
    exact ⟨hst.trans hM.1, hback.trans hM.2.1, by rw [← hstop, Tiled, Slot.stop, hst, hM.1]⟩
  · rwa [List.append_assoc, ← freePositions_append]

end Layout

namespace SlotView

/-- The slot `t` takes the place of the slots `s :: M`. -/
def fuse (t : Slot) (B : List Slot) (v : SlotView) : SlotView :=
  (v.setWord t.position t.encode).rebase t.span B

@[simp] theorem block_fuse (t : Slot) (B : List Slot) (v : SlotView) :
    (v.fuse t B).block = v.block := by simp [fuse]

section Fuse

variable {v : SlotView} {L : Layout} {A M B : List Slot} {s t : Slot} {free : List Nat}

theorem positions_fuse (hst : t.position = s.position) :
    Layout.positions ⟨A ++ t :: Slot.rebase t.span B, free⟩ =
      A.map (·.position) ++ s.position :: B.map (·.position) := by
  simp [Layout.positions, map_position_rebase, hst]

theorem mem_positions_fuse (hL : L.slots = A ++ s :: M ++ B) (hst : t.position = s.position) :
    ∀ x ∈ A ++ t :: Slot.rebase t.span B, x.position ∈ L.positions := by
  intro x hx
  have hq : x.position ∈ Layout.positions ⟨A ++ t :: Slot.rebase t.span B, []⟩ :=
    List.mem_map_of_mem hx
  rw [positions_fuse hst] at hq
  simp only [Layout.positions, hL, List.map_append, List.map_cons, List.mem_append,
    List.mem_cons] at hq ⊢
  tauto

theorem nodup_fuse (hS : L.Sound v.block) (hL : L.slots = A ++ s :: M ++ B) :
    (M.map (·.position) ++ (A.map (·.position) ++ s.position :: B.map (·.position))).Nodup := by
  have hnd := hS.nodup_positions
  rw [Layout.positions, hL] at hnd
  refine List.Perm.nodup_iff ?_ |>.1 hnd
  simp only [List.map_append, List.map_cons]
  grind

theorem mem_gone (hS : L.Sound v.block) (hL : L.slots = A ++ s :: M ++ B)
    (hst : t.position = s.position) {Z : List Nat} (q : Nat) :
    q ∈ M.map (·.position) ↔ q ∈ L.positions ∧
      q ∉ Layout.positions ⟨A ++ t :: Slot.rebase t.span B, Z⟩ := by
  have hnd := nodup_fuse hS hL
  rw [positions_fuse hst, Layout.positions, hL]
  have hdisj := (List.nodup_append.1 hnd).2.2
  constructor
  · intro hq
    refine ⟨?_, fun h => hdisj q hq q h rfl⟩
    simp only [List.map_append, List.map_cons, List.mem_append, List.mem_cons]
    tauto
  · rintro ⟨hq, hn⟩
    simp only [List.map_append, List.map_cons, List.mem_append, List.mem_cons] at hq hn
    tauto

theorem headed_fuse (hS : L.Sound v.block) (hL : L.slots = A ++ s :: M ++ B)
    (hst : t.position = s.position) (hV : v.Headed L.slots) :
    (v.fuse t B).Headed (A ++ t :: Slot.rebase t.span B) := by
  have hnd : ((A ++ s :: (M ++ B)).map (·.position)).Nodup := by
    simpa [Layout.positions, hL] using hS.nodup_positions
  have hall : v.Headed (A ++ s :: (M ++ B)) := by simpa [hL] using hV
  have hset := hall.update hnd hst
  have hkept : (v.setWord s.position t.encode).Headed (A ++ [t] ++ B) := fun x hx =>
    hset x (by simp only [List.mem_append, List.mem_cons] at hx ⊢; tauto)
  have hndB : ((A ++ [t] ++ B).map (·.position)).Nodup := by
    simpa [hst] using (List.nodup_append.1 (nodup_fuse hS hL)).2.1
  have hreb := hkept.rebase hndB t.span
  rw [← hst] at hreb
  simpa [fuse] using hreb

theorem linked_fuse (hS : L.Sound v.block) (hL : L.slots = A ++ s :: M ++ B)
    (hst : t.position = s.position) (hV : v.Linked 0 L.free) :
    (v.fuse t B).Linked 0 L.free := by
  have hfree : ∀ q ∈ L.free, q ∈ L.positions := fun q hq => hS.free_subset hq
  refine (hV.setWord hS.spaced hfree ?_ _).rebase hS.spaced hfree (fun x hx => ?_) _
  · exact hst ▸ List.mem_map_of_mem (by simp [hL])
  · exact List.mem_map_of_mem (by simp [hL, hx])

theorem written_fuse (hst : t.position = s.position) :
    Written (Layout.positions ⟨A ++ t :: Slot.rebase t.span B, free⟩) free v (v.fuse t B) := by
  rw [positions_fuse hst]
  refine ((Written.refl _ _ v).setWord ?_ _).rebase (fun x hx => ?_) _
  · simp [hst]
  · have hposition := List.mem_map_of_mem (f := (·.position)) hx
    simp [hposition]

end Fuse

end SlotView

namespace SlotStep

variable {β : Type} {v w : SlotView} {b : β} {L : Layout} {s : Slot}

theorem header_eq {h : SlotHeap} (hS : L.Sound h.block) (hs : s ∈ L.slots)
    (hh : h.word s.position = s.encode) : h.header s.position = .ok s.toSlotHeader := by
  have hr : h.block.InRange s.position := hS.inRange_position (List.mem_map_of_mem hs)
  rw [SlotHeap.header_of_inRange hr, hh]
  exact SlotHeader.decode_encode (hS.fits hs) _

theorem yields_header (hS : L.Sound v.block) (hs : s ∈ L.slots)
    (hh : v.word s.position = s.encode) :
    Yields (header s.position) v s.toSlotHeader v := by
  refine yields_of_header ?_
  rintro h rfl
  exact header_eq hS hs hh

theorem yields_previousFree {p : Nat} (hp : v.block.InRange (p + 1)) :
    Yields (previousFree p) v (v.previous p) v := yields_link hp

theorem yields_nextFree {p : Nat} (h0 : 0 < p) (hp : v.block.InRange (p + 2)) :
    Yields (nextFree p) v (v.next p) v := by
  rw [SlotView.next, if_neg (Nat.ne_of_gt h0)]
  exact yields_link hp

theorem yields_setBackSpan (hS : L.Sound v.block) (hs : s ∈ L.slots)
    (hh : v.word s.position = s.encode) (back : Nat) :
    Yields (setBackSpan s.position back) v ()
      (v.setWord s.position ({ s with back } : Slot).encode) :=
  yields_bind (yields_header hS hs hh) (yields_setElement
    (hS.inRange_position (List.mem_map_of_mem hs)) _)

theorem yields_rebase {B : List Slot} {c : Prop} [Decidable c] {p back : Nat}
    {f : Unit → SlotStep β} (hS : L.Sound v.block) (hB : ∀ s ∈ B, s ∈ L.slots) (hh : v.Headed B)
    (hc : c ↔ B ≠ []) (hp : c → p = (B.map (·.position)).headD 0)
    (hf : Yields (f ()) (v.rebase back B) b w) :
    Yields (if c then setBackSpan p back >>= f else f ()) v b w := by
  refine yields_when (fun h => ?_) (fun h => ?_) hf
  · cases B with
    | nil => exact absurd rfl (hc.1 h)
    | cons s B =>
        rw [hp h]
        exact yields_setBackSpan hS (hB s (List.mem_cons_self ..)) (hh s (List.mem_cons_self ..)) _
  · cases B with
    | nil => rfl
    | cons s B => exact absurd (hc.2 (List.cons_ne_nil s B)) h

theorem yields_fuse {A M B : List Slot} {t : Slot} {f : Unit → SlotStep β} (hS : L.Sound v.block)
    (hL : L.slots = A ++ s :: M ++ B) (hst : t.position = s.position) (hV : v.Headed L.slots)
    (hf : Yields (f ()) (v.fuse t B) b w) :
    Yields (setHeader s.position t.toSlotHeader >>= fun _ =>
      if (B.map (·.position)).headD 0 ≠ 0 then
        setBackSpan ((B.map (·.position)).headD 0) t.span >>= f
      else f ()) v b w := by
  have hs : s.position ∈ L.positions := List.mem_map_of_mem (by simp [hL])
  have hBL : ∀ x ∈ B, x ∈ L.slots := fun x hx => by simp [hL, hx]
  have hB : v.Headed B := fun x hx => hV x (hBL x hx)
  have hnd := hS.nodup_positions
  simp only [Layout.positions, hL, List.map_append, List.map_cons, List.nodup_append,
    List.mem_append, List.mem_cons] at hnd
  have hBs : ∀ x ∈ B, x.position ≠ s.position := fun x hx h =>
    hnd.2.2 s.position (by simp) x.position (List.mem_map_of_mem hx) h.symm
  refine yields_bind (yields_setHeader (hS.inRange_position hs) _) ?_
  refine yields_rebase (L := L) hS hBL (hB.setWord hBs _) ?_ (fun _ => rfl) ?_
  · cases B with
    | nil => simp
    | cons x B =>
        simpa using Nat.ne_of_gt (hS.spaced.pos _ (List.mem_map_of_mem (hBL x (by simp))))
  · rw [← hst]
    exact hf

section Guarded

variable {c : SlotBlock} {x y : Nat} {f : Unit → SlotStep β}

theorem yields_setNext (hx : x ≠ 0 → c.InRange (x + 2)) (hc : v.block = c)
    (hf : Yields (f ()) (v.setNext x y) b w) :
    Yields (if x ≠ 0 then setNextFree x y >>= f else f ()) v b w := by
  refine yields_when (fun h => Yields.to (yields_setNextFree (hx h) y hc) ?_) (fun h => ?_) hf
  · rw [SlotView.setNext, if_neg h]
  · rw [SlotView.setNext, if_pos (not_not.1 h)]

theorem yields_setPrevious (hx : x ≠ 0 → c.InRange (x + 1)) (hc : v.block = c)
    (hf : Yields (f ()) (v.setPrevious x y) b w) :
    Yields (if x ≠ 0 then setPreviousFree x y >>= f else f ()) v b w := by
  refine yields_when (fun h => Yields.to (yields_setPreviousFree (hx h) y hc) ?_) (fun h => ?_) hf
  · rw [SlotView.setPrevious, if_neg h]
  · rw [SlotView.setPrevious, if_pos (not_not.1 h)]

end Guarded

end SlotStep

end AffinityHeap
