import AffinityHeap.Proofs.AddressSpace
import AffinityHeap.Proofs.Slot.Edit

namespace AffinityHeap

open Slot (Tiled lastSpan)

variable {h : SlotHeap} {S : List Slot} {position stop span : Nat}

/-- The free slots laid out from `position` on. -/
def fill (stop span position back : Nat) : List Slot :=
  if _hp : minSlotSpan ≤ stop - position ∧ 0 < span then
    let next := min (position + span) stop
    ⟨⟨back, next - position, .free⟩, position⟩ :: fill stop span next (next - position)
  else []
termination_by stop - position
decreasing_by
  simp only [minSlotSpan, minPayloadWords] at _hp
  omega

theorem fill_cons {stop span position back : Nat} (hroom : minSlotSpan ≤ stop - position)
    (hspan : 0 < span) : fill stop span position back =
      ⟨⟨back, min (position + span) stop - position, .free⟩, position⟩ ::
        fill stop span (min (position + span) stop) (min (position + span) stop - position) := by
  rw [fill, dif_pos ⟨hroom, hspan⟩]

theorem fill_nil {stop span position back : Nat} (hroom : stop - position < minSlotSpan) :
    fill stop span position back = [] := by
  rw [fill, dif_neg fun h => absurd h.1 (Nat.not_le.2 hroom)]

/-- What stands before `position` while slots are laid out: all of it free and listed in order. -/
structure Carving (h : SlotHeap) (S : List Slot) (position : Nat) : Prop where
  sound : Layout.Sound { h.block with capacity := position } ⟨S, S.map (·.position)⟩
  shows : h.view.Shows ⟨S, S.map (·.position)⟩
  free : ∀ s ∈ S, s.status = .free

namespace SlotHeap

/-- One round of the carving. -/
def lay (h : SlotHeap) (s : Slot) (previous : Nat) : SlotHeap :=
  let h := h.setWord s.position s.encode
  let h := h.setWord (s.position + 1) (UInt32.ofNat previous)
  let h := h.setWord (s.position + 2) 0
  let h :=
    if previous = 0 then { h with block.freeHead := s.position }
    else h.setWord (previous + 2) (UInt32.ofNat s.position)
  { h with block.freeCount := h.block.freeCount + 1 }

theorem view_setBlock (h : SlotHeap) (f : SlotBlock → SlotBlock)
    (hf : (f h.block).buffer = h.block.buffer) :
    (⟨f h.block, h.memory⟩ : SlotHeap).view = h.view.setBlock f := by
  refine SlotView.ext_word rfl fun q => ?_
  simp only [view, word, SlotBlock.wordIndex, hf, SlotView.word_setBlock]

theorem view_lay (h : SlotHeap) (s : Slot) {ps : List Nat} (hps : Spaced ps)
    (hs : s.position ∈ ps) {previous : Nat} (hx : Node ps previous) (hne : previous ≠ s.position) :
    (h.lay s previous).view = (((h.view.setWord s.position s.encode).join previous
      s.position).join s.position 0).setBlock fun b => { b with freeCount := b.freeCount + 1 } := by
  have hs0 : s.position ≠ 0 := Nat.ne_of_gt (hps.pos _ hs)
  let u := ((h.setWord s.position s.encode).setWord (s.position + 1)
    (UInt32.ofNat previous)).setWord (s.position + 2) 0
  have hu : u.view = ((h.view.setWord s.position s.encode).setWord (s.position + 1)
      (UInt32.ofNat previous)).setWord (s.position + 2) 0 := by
    simp only [u, view_setWord]
  by_cases h0 : previous = 0
  · have hl : (h.lay s previous).view = u.view.setBlock fun b =>
        { b with freeHead := s.position, freeCount := b.freeCount + 1 } := by
      rw [← view_setBlock _ _ rfl]
      simp only [lay, if_pos h0, u]
    rw [hl, hu]
    subst h0
    refine SlotView.ext_word ?_ fun q => ?_
    · simp [SlotView.block_join, hs0]
    · simp only [SlotView.word_setBlock, SlotView.word_setWord, SlotView.word_join, ne_eq,
        not_true_eq_false, false_and, if_false, hs0, not_false_eq_true, true_and]
      rfl
  · have hne : previous + 2 ≠ s.position + 1 :=
      hps.add_ne_of_ne (hx.resolve_left h0) hs hne (by omega) (by omega)
    have hl : (h.lay s previous).view = (u.view.setWord (previous + 2)
        (UInt32.ofNat s.position)).setBlock fun b => { b with freeCount := b.freeCount + 1 } := by
      rw [← view_setWord, ← view_setBlock _ _ rfl]
      simp only [lay, if_neg h0, u]
    rw [hl, hu]
    refine SlotView.ext_word ?_ fun q => ?_
    · simp [SlotView.block_join, hs0, h0]
    · simp only [SlotView.word_setBlock, SlotView.word_setWord, SlotView.word_join, ne_eq,
        not_true_eq_false, false_and, if_false, hs0, not_false_eq_true, true_and, h0]
      split_ifs <;> first | rfl | omega

theorem carve_cons (hroom : minSlotSpan ≤ stop - position) (hspan : 0 < span) (previous : Nat)
    (h : SlotHeap) : carve stop span position previous h =
      carve stop span (min (position + span) stop) position
        (h.lay ⟨⟨if previous = 0 then 0 else position - previous,
          min (position + span) stop - position, .free⟩, position⟩ previous) := by
  rw [carve, dif_pos ⟨hroom, hspan⟩]
  rfl

theorem block_lay (h : SlotHeap) (s : Slot) (previous : Nat) : ∃ head count,
    (h.lay s previous).block = { h.block with freeHead := head, freeCount := count } := by
  unfold lay
  split <;> exact ⟨_, _, rfl⟩

/-- Of a block the carving sets the capacity and the free list and nothing else. -/
theorem carve_block (stop span position previous : Nat) (h : SlotHeap) :
    ∃ capacity head count, (carve stop span position previous h).block =
      { h.block with capacity := capacity, freeHead := head, freeCount := count } := by
  fun_induction carve stop span position previous h with
  | case1 position previous h hp next back h₁ h₂ h₃ h₄ ih =>
      obtain ⟨capacity, head, count, hb⟩ := ih
      rw [hb]
      simp only [h₄]
      split <;> exact ⟨_, _, _, rfl⟩
  | case2 => exact ⟨_, _, _, rfl⟩

theorem le_carve_capacity (stop span position previous : Nat) (h : SlotHeap) :
    position ≤ (carve stop span position previous h).block.capacity := by
  fun_induction carve stop span position previous h with
  | case1 position previous h hp next back h₁ h₂ h₃ h₄ ih =>
      have hfour : minSlotSpan = 4 := rfl
      omega
  | case2 => exact Nat.le_refl _

theorem confined_lay {h : SlotHeap} {s : Slot} (hs : s.position + 2 < h.block.buffer.len)
    {previous : Nat} (hp : previous ≤ s.position) : h.Confined (h.lay s previous) := by
  have hc := (((Confined.refl h).setWord (p := s.position) (by omega) s.encode).setWord
    (p := s.position + 1) (by omega) (UInt32.ofNat previous)).setWord hs 0
  by_cases h0 : previous = 0
  · simp only [lay, if_pos h0]
    exact ⟨rfl, hc.outside⟩
  · have hc := hc.setWord (p := previous + 2) (by omega) (UInt32.ofNat s.position)
    simp only [lay, if_neg h0]
    exact ⟨rfl, hc.outside⟩

end SlotHeap

theorem Carving.sound_push {s : Slot} (hc : Carving h S position) (hs : s.Sound h.block.unit)
    (hpos : s.position = position) (hback : s.back = lastSpan 0 S) (hfree : s.status = .free)
    (hstop : s.stop ≤ h.block.buffer.len) (hshort : h.block.buffer.len < 0x100000000) :
    Layout.Sound { h.block with capacity := s.stop }
      ⟨S ++ [s], (S ++ [s]).map (·.position)⟩ := by
  refine ⟨?_, ?_, ?_, fun _ => hstop, Nat.lt_of_le_of_lt hstop hshort⟩
  · exact Slot.tiled_append.2 ⟨position, hc.sound.tiled, hpos, hback, rfl⟩
  · intro t ht
    rcases List.mem_append.1 ht with ht | ht
    · exact hc.sound.each t ht
    · rw [List.mem_singleton.1 ht]
      exact hs
  · simpa [hfree] using hc.sound.listed.append_right [s.position]

section Lay

variable {b : SlotBlock} {s : Slot} {R : List Slot} {free : List Nat}

theorem notMem_front (hS : Layout.Sound b ⟨S ++ s :: R, free⟩) :
    s.position ∉ S.map (·.position) := by
  have hnd := hS.nodup_positions
  simp only [Layout.positions, List.map_append, List.map_cons, List.nodup_append] at hnd
  exact fun h => hnd.2.2 _ h _ (List.mem_cons_self ..) rfl

theorem node_front : Node ((S ++ s :: R).map (·.position)) ((S.map (·.position)).getLastD 0) :=
  SlotView.node_getLastD fun q hq => by
    rw [List.map_append]
    exact List.mem_append_left _ hq

/-- One round of the carving, seen from the slots that stand in front. -/
theorem view_lay_behind (hS : Layout.Sound b ⟨S ++ s :: R, free⟩) :
    (h.lay s ((S.map (·.position)).getLastD 0)).view =
      (((h.view.setWord s.position s.encode).join ((S.map (·.position)).getLastD 0)
        s.position).join s.position 0).setBlock fun b => { b with freeCount := b.freeCount + 1 } :=
  have hs : s.position ∈ (S ++ s :: R).map (·.position) := List.mem_map_of_mem (by simp)
  h.view_lay s hS.spaced hs node_front
    (SlotView.getLastD_ne (Nat.ne_of_gt (hS.spaced.pos _ hs)) (notMem_front hS))

theorem written_lay (hS : Layout.Sound b ⟨S ++ s :: R, free⟩) :
    SlotView.Written ((S ++ s :: R).map (·.position)) ((S ++ s :: R).map (·.position)) h.view
      (h.lay s ((S.map (·.position)).getLastD 0)).view := by
  have hlt := hS.spaced.lt
  have hs : s.position ∈ (S ++ s :: R).map (·.position) := List.mem_map_of_mem (by simp)
  rw [view_lay_behind hS]
  exact ((((SlotView.Written.refl _ _ h.view).setWord hs _).join hlt node_front (.inr hs)).join
    hlt (.inr hs) (.inl rfl)).setBlock _

theorem shows_lay (hS : Layout.Sound b ⟨S ++ [s], (S ++ [s]).map (·.position)⟩)
    (hV : h.view.Shows ⟨S, S.map (·.position)⟩) :
    (h.lay s ((S.map (·.position)).getLastD 0)).view.Shows
      ⟨S ++ [s], (S ++ [s]).map (·.position)⟩ := by
  have hps := hS.spaced
  have hin : ∀ t ∈ S ++ [s], t.position ∈ (S ++ [s]).map (·.position) := fun t ht =>
    List.mem_map_of_mem ht
  have hs := hin s (by simp)
  have hold : ∀ q ∈ S.map (·.position), q ∈ (S ++ [s]).map (·.position) := fun q hq => by
    rw [List.map_append]
    exact List.mem_append_left _ hq
  have hx : Node ((S ++ [s]).map (·.position)) ((S.map (·.position)).getLastD 0) := node_front
  rw [view_lay_behind hS]
  refine ⟨?_, ?_, ?_⟩
  · have hset : (h.view.setWord s.position s.encode).Headed (S ++ [s]) := by
      refine SlotView.headed_append.2 ⟨hV.headed.setWord (fun t ht hts => ?_) _, ?_⟩
      · exact notMem_front hS (hts ▸ List.mem_map_of_mem ht)
      · simp [SlotView.word_setWord, SlotView.Headed]
    exact (hset.join hps hin hx (.inr hs)).join hps hin (.inr hs) (.inl rfl)
  · have hlinked : (h.view.setWord s.position s.encode).Linked 0 (S.map (·.position)) :=
      hV.linked.setWord hps hold hs _
    have hall : ∀ q ∈ S.map (·.position) ++ [s.position], q ∈ (S ++ [s]).map (·.position) :=
      fun q hq => by simpa using hq
    have hnd : (S.map (·.position) ++ [s.position]).Nodup := by
      simpa [Layout.positions] using hS.nodup_positions
    have hins := SlotView.linked_insert (Y := []) hps hall hnd hlinked.1 trivial
    simpa using hins.setBlock (f := fun b => { b with freeCount := b.freeCount + 1 }) rfl
  · have hcount := hV.counted
    simp only [SlotView.block_setBlock, SlotView.block_join, SlotView.block_setWord]
    split_ifs <;> simpa using hcount

end Lay

theorem Carving.push {s : Slot} (hc : Carving h S position) (hs : s.Sound h.block.unit)
    (hpos : s.position = position) (hback : s.back = lastSpan 0 S) (hfree : s.status = .free)
    (hstop : s.stop ≤ h.block.buffer.len) (hshort : h.block.buffer.len < 0x100000000) :
    Carving (h.lay s ((S.map (·.position)).getLastD 0)) (S ++ [s]) s.stop := by
  have hsound := hc.sound_push hs hpos hback hfree hstop hshort
  refine ⟨?_, shows_lay hsound hc.shows, fun t ht => ?_⟩
  · obtain ⟨head, count, hb⟩ := h.block_lay s ((S.map (·.position)).getLastD 0)
    rw [hb]
    exact ⟨hsound.tiled, hsound.each, hsound.listed, hsound.inside, hsound.short⟩
  · rcases List.mem_append.1 ht with ht | ht
    · exact hc.free t ht
    · rw [List.mem_singleton.1 ht, hfree]

theorem Carving.back_eq (hc : Carving h S position) :
    (if (S.map (·.position)).getLastD 0 = 0 then 0
      else position - (S.map (·.position)).getLastD 0) = lastSpan 0 S := by
  rcases List.eq_nil_or_concat S with rfl | ⟨S, t, rfl⟩
  · rfl
  · rw [List.concat_eq_append] at hc ⊢
    obtain ⟨m, -, -, -, hstop⟩ := Slot.tiled_append.1 hc.sound.tiled
    have hstop : t.position + t.span = position := hstop
    have hpos := hc.sound.spaced.pos t.position (List.mem_map_of_mem (by simp))
    simp only [List.map_append, List.map_cons, List.map_nil, List.getLastD_concat, Slot.lastSpan_concat]
    rw [if_neg (by omega)]
    omega

theorem Carving.last_le (hc : Carving h S position) :
    (S.map (·.position)).getLastD 0 ≤ position := by
  rcases SlotView.getLastD_cases (S.map (·.position)) with h0 | hmem
  · omega
  · obtain ⟨t, ht, htp⟩ := List.mem_map.1 hmem
    have hstop : t.stop ≤ position := hc.sound.stop_le ht
    exact htp ▸ Nat.le_trans (Nat.le_add_right ..) hstop

/-- A block carved from `position` to `stop`, the slots of `S` now standing in it. -/
structure Carves (h h' : SlotHeap) (S : List Slot) (stop position : Nat) : Prop where
  carving : Carving h' S h'.block.capacity
  confined : h.Confined h'
  le : position ≤ h'.block.capacity
  lt : stop < h'.block.capacity + minSlotSpan
  written : SlotView.Written (S.map (·.position)) (S.map (·.position)) h.view h'.view

theorem Carving.done (hc : Carving h S position) (hroom : stop - position < minSlotSpan) :
    Carves h { h with block.capacity := position } S stop position where
  carving := by
    refine ⟨hc.sound, ?_, hc.free⟩
    rw [SlotHeap.view_setBlock h (fun b => { b with capacity := position }) rfl]
    exact hc.shows.setBlock rfl rfl
  confined := ⟨rfl, fun _ _ => rfl⟩
  le := Nat.le_refl _
  lt := by
    show stop < position + minSlotSpan
    omega
  written _ := .inl rfl

theorem Carves.lay {h' : SlotHeap} {s : Slot} {R : List Slot} {next : Nat}
    (hc : Carving h S s.position) (hin : s.position + 2 < h.block.buffer.len)
    (hle : s.position ≤ next)
    (hcs : Carves (h.lay s ((S.map (·.position)).getLastD 0)) h' (S ++ s :: R) stop next) :
    Carves h h' (S ++ s :: R) stop s.position where
  carving := hcs.carving
  confined := (SlotHeap.confined_lay hin hc.last_le).trans hcs.confined
  le := Nat.le_trans hle hcs.le
  lt := hcs.lt
  written := (written_lay hcs.carving.sound).trans hcs.written

theorem carve_fill {back : Nat} (hc : Carving h S position) (hback : back = lastSpan 0 S)
    (hu : h.block.unit ∣ position + 1 ∨ position = stop)
    (hstop : stop = h.block.buffer.len) (hshort : stop < 0x100000000) (hge : minSlotSpan ≤ span)
    (hle : span ≤ maxSpan) (hdvd : h.block.unit ∣ span) :
    Carves h (h.carve stop span position ((S.map (·.position)).getLastD 0))
      (S ++ fill stop span position back) stop position := by
  have hfour : minSlotSpan = 4 := rfl
  -- `S` are the slots already laid down; `back` is what the next one is told of the last of them.
  induction position, back using fill.induct stop span generalizing h S with
  | @case1 position back hp next ih =>
      obtain ⟨hroom, hpos⟩ := hp
      have haligned : h.block.unit ∣ position + 1 := hu.resolve_right (by omega)
      have hnext : next = position + span ∨ next = stop := by omega
      let s : Slot := ⟨⟨back, next - position, .free⟩, position⟩
      have hs : s.Sound h.block.unit := ⟨show minSlotSpan ≤ next - position by omega,
        show next - position ≤ maxSpan by omega, haligned⟩
      have hsstop : s.stop = next := show position + (next - position) = next by omega
      obtain ⟨head, count, hb⟩ := h.block_lay s ((S.map (·.position)).getLastD 0)
      have hunit : (h.lay s ((S.map (·.position)).getLastD 0)).block.unit = h.block.unit := by
        rw [hb]
        rfl
      have hpush := hc.push hs rfl hback rfl (by omega) (hstop ▸ hshort)
      rw [hsstop] at hpush
      have hu' : h.block.unit ∣ next + 1 ∨ next = stop := by
        refine hnext.imp_left fun hn => ?_
        rw [hn, Nat.add_right_comm]
        exact (Nat.dvd_add_right haligned).2 hdvd
      have hrest := ih hpush (Slot.lastSpan_concat S s 0).symm (hunit.symm ▸ hu')
        (by rw [hb]; exact hstop) (hunit.symm ▸ hdvd)
      rw [List.append_assoc, List.singleton_append, List.map_append, List.map_singleton,
        List.getLastD_concat] at hrest
      rw [SlotHeap.carve_cons hroom hpos, fill_cons hroom hpos, hc.back_eq, ← hback]
      exact hrest.lay hc (show position + 2 < _ by omega) (show position ≤ next by omega)
  | case2 position back hp =>
      have hroom : stop - position < minSlotSpan := by omega
      rw [SlotHeap.carve, dif_neg hp, fill_nil hroom, List.append_nil]
      exact hc.done hroom

namespace SlotBlock

/-- Where the buffer of a block lies and how it is divided. -/
structure Sited (b : SlotBlock) : Prop where
  record : b.buffer.record = 4
  power : IsPowerOfTwo b.alignment
  four_le : 4 ≤ b.alignment
  base : b.alignment ∣ b.buffer.base

/-- The slots of a block no step was made on yet. -/
def freshLayout (len unit : Nat) : Layout :=
  let slots := fill len (SlotGeometry.maxAlignedSpan unit) (SlotGeometry.first unit) 0
  ⟨slots, slots.map (·.position)⟩

theorem four_dvd_of_powerOfTwo {n : Nat} (hn : IsPowerOfTwo n) (h4 : 4 ≤ n) : 4 ∣ n :=
  powerOfTwo_dvd (isPowerOfTwo_iff.2 ⟨2, rfl⟩) hn h4

namespace Sited

variable {b : SlotBlock}

theorem alignment_eq (hb : b.Sited) : b.alignment = 4 * b.unit := by
  have hdvd := four_dvd_of_powerOfTwo hb.power hb.four_le
  have h4 := hb.four_le
  simp only [unit, SlotGeometry.unit]
  omega

theorem four_dvd_base (hb : b.Sited) : 4 ∣ b.buffer.base :=
  Nat.dvd_trans (four_dvd_of_powerOfTwo hb.power hb.four_le) hb.base

end Sited

theorem maxAlignedSpan_bounds {u : Nat} (hu : u ≤ maxSpan) (hpos : 0 < u) :
    minSlotSpan ≤ SlotGeometry.maxAlignedSpan u ∧ SlotGeometry.maxAlignedSpan u ≤ maxSpan := by
  have h1 := Nat.mul_div_le maxSpan u
  have h2 := Nat.lt_mul_div_succ maxSpan hpos
  have h3 : 1 ≤ maxSpan / u := (Nat.one_le_div_iff hpos).2 hu
  have h4 : u ≤ u * (maxSpan / u) := Nat.le_mul_of_pos_right u h3
  simp only [SlotGeometry.maxAlignedSpan]
  refine ⟨?_, h1⟩
  rw [Nat.mul_succ] at h2
  have h5 : 4 + 4 ≤ maxSpan := by decide
  show 3 + 1 ≤ _
  omega

theorem unit_le_maxSpan {alignment : Nat} (hsmall : alignment < 131072) :
    SlotGeometry.unit alignment ≤ maxSpan := by
  have hwide : maxSpan = 32767 := rfl
  simp only [SlotGeometry.unit]
  omega

/-- With an alignment below 131072 the spans asked for have room for a payload. -/
theorem maximumAllocationSize_eq {alignment : Nat} (hsmall : alignment < 131072) :
    SlotGeometry.maximumAllocationSize alignment =
      (SlotGeometry.maxAlignedSpan (SlotGeometry.unit alignment) - 1) * 4 := by
  obtain ⟨hge, hle⟩ := maxAlignedSpan_bounds (unit_le_maxSpan hsmall) (Nat.le_max_right ..)
  have hfour : minSlotSpan = 4 := rfl
  have hwide : maxSpan = 32767 := rfl
  rw [SlotGeometry.maximumAllocationSize, wrapSub_of_le (by omega), wrap_of_small (by omega)]

theorem unit_dvd_first (b : SlotBlock) : b.unit ∣ b.first + 1 := by
  have hpos : 1 ≤ b.unit := Nat.le_max_right ..
  simp only [first, SlotGeometry.first]
  rcases Nat.lt_or_ge b.unit 2 with h | h
  · rw [show b.unit = 1 by omega]
    exact Nat.one_dvd _
  · exact ⟨1, by omega⟩

theorem freshLayout_slots {len unit : Nat} (hlow : minSlotSpan ≤ len - SlotGeometry.first unit)
    (hhigh : len - SlotGeometry.first unit ≤ SlotGeometry.maxAlignedSpan unit) :
    (freshLayout len unit).slots =
      [⟨⟨0, len - SlotGeometry.first unit, .free⟩, SlotGeometry.first unit⟩] := by
  have hspan : 0 < SlotGeometry.maxAlignedSpan unit :=
    Nat.lt_of_lt_of_le (Nat.lt_of_lt_of_le (by decide) hlow) hhigh
  have hstop : min (SlotGeometry.first unit + SlotGeometry.maxAlignedSpan unit) len = len := by
    omega
  show fill _ _ _ _ = _
  rw [fill_cons hlow hspan, hstop, fill_nil (by rw [Nat.sub_self]; decide)]

/-- What carving makes of a block without slots. -/
structure Carved (b : SlotBlock) (m : Memory) (L : Layout) (h : SlotHeap) : Prop where
  sound : L.Sound h.block
  shows : h.view.Shows L
  free : ∀ s ∈ L.slots, s.status = .free
  buffer : h.block.buffer = b.buffer
  alignment : h.block.alignment = b.alignment
  allocations : h.block.allocations = b.allocations
  reserved : h.block.reserved = b.reserved
  maximum : h.block.maximumAllocationSize = min (SlotGeometry.maximumAllocationSize b.alignment)
    ((h.block.capacity - (b.first + 1)) * 4)
  confined : SlotHeap.Confined ⟨b, m⟩ h
  first_le : b.first ≤ h.block.capacity
  rest_lt : b.buffer.len < h.block.capacity + minSlotSpan
  rewrites : SlotView.Rewrites ⟨[], []⟩ L (SlotHeap.view ⟨b, m⟩) h.view

theorem carved_spec {buffer : Buffer} {alignment : Nat} (m : Memory)
    (hlen : buffer.len < 0x100000000) (hu : (blank buffer alignment).unit ≤ maxSpan) :
    Carved (blank buffer alignment) m (freshLayout buffer.len (blank buffer alignment).unit)
      ((blank buffer alignment).carved m) := by
  let b := blank buffer alignment
  have hu : b.unit ≤ maxSpan := hu
  have hpos : 0 < b.unit := Nat.lt_of_lt_of_le Nat.one_pos (Nat.le_max_right ..)
  have hfirst : b.first < 0x100000000 := by
    have hmax : maxSpan < 0x80000000 := by decide
    simp only [first, SlotGeometry.first]
    omega
  obtain ⟨hge, hle⟩ := maxAlignedSpan_bounds hu hpos
  have hstart : Carving ⟨b, m⟩ [] b.first :=
    ⟨⟨rfl, fun s hs => absurd hs List.not_mem_nil, .nil, fun h => absurd rfl h, hfirst⟩,
      ⟨fun s hs => absurd hs List.not_mem_nil, ⟨trivial, rfl⟩, rfl⟩,
      fun s hs => absurd hs List.not_mem_nil⟩
  have hcarves := carve_fill hstart rfl (.inl b.unit_dvd_first) rfl hlen hge hle
    (Nat.dvd_mul_right ..)
  let h := SlotHeap.carve buffer.len (SlotGeometry.maxAlignedSpan b.unit) b.first 0 ⟨b, m⟩
  let f : SlotBlock → SlotBlock := fun c =>
    { c with
      maximumAllocationSize := min (SlotGeometry.maximumAllocationSize alignment)
        ((h.block.capacity - (b.first + 1)) * 4) }
  have hresult : b.carved m = ⟨f h.block, h.memory⟩ := rfl
  have hview := SlotHeap.view_setBlock h f rfl
  have hsound := hcarves.carving.sound
  obtain ⟨capacity, head, count, hb⟩ : ∃ capacity head count, h.block =
      { b with capacity := capacity, freeHead := head, freeCount := count } :=
    SlotHeap.carve_block ..
  rw [hresult]
  exact {
    sound := ⟨hsound.tiled, hsound.each, hsound.listed, hsound.inside, hsound.short⟩
    shows := by
      rw [hview]
      exact hcarves.carving.shows.setBlock rfl rfl
    free := hcarves.carving.free
    buffer := (congrArg SlotBlock.buffer hb :)
    alignment := (congrArg SlotBlock.alignment hb :)
    allocations := (congrArg SlotBlock.allocations hb :)
    reserved := (congrArg SlotBlock.reserved hb :)
    maximum := rfl
    confined := ⟨hcarves.confined.buffer, hcarves.confined.outside⟩
    first_le := hcarves.le
    rest_lt := hcarves.lt
    rewrites := by
      rw [hview]
      exact ⟨fun q _ => hcarves.written q, fun q hq => absurd hq List.not_mem_nil⟩ }

theorem carved_block (b : SlotBlock) (m : Memory) :
    (b.carved m).block.buffer = b.buffer ∧ (b.carved m).block.alignment = b.alignment := by
  obtain ⟨capacity, head, count, hb⟩ := SlotHeap.carve_block b.buffer.len
    (SlotGeometry.maxAlignedSpan b.unit) b.first 0 ⟨b, m⟩
  exact ⟨(congrArg SlotBlock.buffer hb :), (congrArg SlotBlock.alignment hb :)⟩

/-- The alignment, the length and the buffer of a block made at `base`. -/
def sitedBuffer (blockSize alignment base : Nat) : Buffer :=
  ⟨base, wrap (roundUp blockSize (max alignment 4)) / 4, 4, max (max (max alignment 4) minAlignment) 4⟩

theorem create_cases (s : AddressSpace) (blockSize alignment : Nat) :
    (∃ e s', create blockSize alignment s = (.error e, s') ∧ s.Refused s' ∧
        ∀ c, e ≠ .corruption c) ∨
      ∃ base, s.policy s.asked s.handed s.held
          (4 * max (sitedBuffer blockSize alignment base).len 1)
          (sitedBuffer blockSize alignment base).alignment = some base ∧
        IsPowerOfTwo (sitedBuffer blockSize alignment base).alignment ∧
        IsPowerOfTwo (max alignment 4) ∧
        (sitedBuffer blockSize alignment base).len < 0x100000000 ∧
        ∃ h, (blank (sitedBuffer blockSize alignment base) (max alignment 4)).carved
            (Buffer.grantedSpace s 4 (sitedBuffer blockSize alignment base).len base).memory = h ∧
          create blockSize alignment s = (.ok h.block,
            { Buffer.grantedSpace s 4 (sitedBuffer blockSize alignment base).len base with
              memory := h.memory
              overflowed := s.overflows (roundUp blockSize (max alignment 4)) }) := by
  unfold create
  by_cases hpower : IsPowerOfTwo (max alignment 4)
  swap
  · exact .inl ⟨_, s, Obtain.guard_pos hpower, .refl s, fun _ => nofun⟩
  have hpower' := not_not.2 hpower
  -- From here on the space is one that may have overflowed; nothing the system does hangs on that.
  let t : AddressSpace :=
    { s with overflowed := s.overflows (roundUp blockSize (max alignment 4)) }
  have href : s.Refused t := .mark s _
  by_cases hlarge : 0x100000000 ≤ wrap (roundUp blockSize (max alignment 4)) / 4
  · exact .inl ⟨_, t, (Obtain.guard_neg hpower').trans ((Obtain.bind_apply ..).trans
      (Obtain.guard_pos hlarge)), href, fun _ => nofun⟩
  rcases Buffer.zeroed_cases t 4 (wrap (roundUp blockSize (max alignment 4)) / 4)
    (max (max alignment 4) minAlignment) with
    ⟨e, s', hrun, hrefused, hne⟩ | ⟨base, hpolicy, hbuffer, -, hrun⟩
  · refine .inl ⟨e, s', (Obtain.guard_neg hpower').trans ((Obtain.bind_apply ..).trans
      ((Obtain.guard_neg hlarge).trans ((Obtain.bind_apply ..).trans ?_))), href.trans hrefused, hne⟩
    rw [hrun]
  · refine .inr ⟨base, hpolicy, hbuffer, hpower, Nat.lt_of_not_le hlarge, _, rfl,
      (Obtain.guard_neg hpower').trans ((Obtain.bind_apply ..).trans
        ((Obtain.guard_neg hlarge).trans ((Obtain.bind_apply ..).trans ?_)))⟩
    rw [hrun]
    rfl

section Created

variable {b : SlotBlock} {s s' : AddressSpace} {blockSize alignment : Nat}

theorem exists_carved (h : create blockSize alignment s = (.ok b, s')) :
    ∃ buffer m, b = ((blank buffer (max alignment 4)).carved m).block := by
  rcases create_cases s blockSize alignment with ⟨e, _, herr, -⟩ | ⟨base, -, -, -, -, h', hcarved, hok⟩
  · rw [h] at herr
    cases herr
  · rw [h] at hok
    cases hok
    exact ⟨_, _, congrArg SlotHeap.block hcarved.symm⟩

theorem create_alignment (h : create blockSize alignment s = (.ok b, s')) :
    b.alignment = max alignment 4 := by
  obtain ⟨buffer, m, rfl⟩ := exists_carved h
  exact (carved_block ..).2

theorem create_capacity_pos (h : create blockSize alignment s = (.ok b, s')) : 0 < b.capacity := by
  obtain ⟨buffer, m, rfl⟩ := exists_carved h
  exact Nat.lt_of_lt_of_le (Layout.Sound.first_pos _) (SlotHeap.le_carve_capacity ..)

end Created

end SlotBlock

end AffinityHeap
