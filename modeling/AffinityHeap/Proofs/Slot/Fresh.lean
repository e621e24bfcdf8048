import AffinityHeap.Proofs.Slot.Session

namespace AffinityHeap

open SlotGeometry (maxAlignedSpan)

section Fill

variable {stop span position back : Nat}

theorem fill_full : ∀ s ∈ (fill stop span position back).dropLast, s.span = span := by
  fun_induction fill stop span position back with
  | case1 position back hp next ih =>
      by_cases hrest : fill stop span next (next - position) = []
      · rw [hrest]
        exact fun s hs => nomatch hs
      · have hnext : minSlotSpan ≤ stop - next :=
          Nat.not_lt.1 fun hshort => hrest (fill_nil hshort)
        have hfour : minSlotSpan = 4 := rfl
        rw [List.dropLast_cons_of_ne_nil hrest]
        intro s hs
        rcases List.mem_cons.1 hs with rfl | hs
        · show next - position = span
          omega
        · exact ih s hs
  | case2 => exact fun s hs => nomatch hs

theorem fill_last (hspan : minSlotSpan ≤ span) : ∀ s ∈ fill stop span position back,
    minSlotSpan ≤ s.span ∧ s.span ≤ span ∧ minSlotSpan ≤ stop - s.position := by
  fun_induction fill stop span position back with
  | case1 position back hp next ih =>
      intro s hs
      rcases List.mem_cons.1 hs with rfl | hs
      · show minSlotSpan ≤ next - position ∧ next - position ≤ span ∧
          minSlotSpan ≤ stop - position
        omega
      · exact ih s hs
  | case2 => exact fun s hs => nomatch hs

end Fill

/-- The words one round of the carving writes, each with its position. -/
def Slot.stores (s : Slot) (previous : Nat) : List (Nat × UInt32) :=
  (s.position, s.encode) :: (s.position + 1, UInt32.ofNat previous) :: (s.position + 2, 0) ::
    if previous = 0 then [] else [(previous + 2, UInt32.ofNat s.position)]

/-- The words all rounds write, one round for each slot. -/
def rounds : List Slot → Nat → List (Nat × UInt32)
  | [], _ => []
  | s :: rest, previous => s.stores previous ++ rounds rest s.position

theorem mem_rounds {l : List Slot} {previous : Nat} {w : Nat × UInt32}
    (hw : w ∈ rounds l previous) :
    (∃ s ∈ l, ∃ k < minSlotSpan, w.1 = s.position + k) ∨ previous ≠ 0 ∧ w.1 = previous + 2 := by
  induction l generalizing previous with
  | nil => exact nomatch hw
  | cons s rest ih =>
      rcases List.mem_append.1 hw with hw | hw
      · by_cases h0 : previous = 0
        · simp only [Slot.stores, if_pos h0, List.mem_cons, List.not_mem_nil, or_false] at hw
          rcases hw with rfl | rfl | rfl
          · exact .inl ⟨s, List.mem_cons_self .., 0, by decide, rfl⟩
          · exact .inl ⟨s, List.mem_cons_self .., 1, by decide, rfl⟩
          · exact .inl ⟨s, List.mem_cons_self .., 2, by decide, rfl⟩
        · simp only [Slot.stores, if_neg h0, List.mem_cons, List.not_mem_nil, or_false] at hw
          rcases hw with rfl | rfl | rfl | rfl
          · exact .inl ⟨s, List.mem_cons_self .., 0, by decide, rfl⟩
          · exact .inl ⟨s, List.mem_cons_self .., 1, by decide, rfl⟩
          · exact .inl ⟨s, List.mem_cons_self .., 2, by decide, rfl⟩
          · exact .inr ⟨h0, rfl⟩
      · rcases ih hw with ⟨t, ht, hk⟩ | ⟨-, hlast⟩
        · exact .inl ⟨t, List.mem_cons_of_mem _ ht, hk⟩
        · exact .inl ⟨s, List.mem_cons_self .., 2, by decide, hlast⟩

namespace SlotHeap

theorem memory_lay (h : SlotHeap) (s : Slot) (previous : Nat) :
    (h.lay s previous).memory = h.block.store (s.stores previous) h.memory := by
  by_cases h0 : previous = 0
  · simp only [lay, Slot.stores, if_pos h0]
    rfl
  · simp only [lay, Slot.stores, if_neg h0]
    rfl

theorem memory_carve {stop span position previous back : Nat} (h : SlotHeap) (hpos : 0 < position)
    (hback : back = if previous = 0 then 0 else position - previous) :
    (carve stop span position previous h).memory =
      h.block.store (rounds (fill stop span position back) previous) h.memory := by
  -- The carving is told where the last slot starts, the list how far that is back.
  induction position, back using fill.induct stop span generalizing h previous with
  | @case1 position back hp next ih =>
      have hfour : minSlotSpan = 4 := rfl
      let s : Slot := ⟨⟨back, next - position, .free⟩, position⟩
      have hbuffer : (h.lay s previous).block.buffer = h.block.buffer := by
        obtain ⟨head, count, hb⟩ := h.block_lay s previous
        rw [hb]
      have hrest := ih (h.lay s previous) (by omega) (if_neg (Nat.ne_of_gt hpos)).symm
      rw [SlotBlock.store_of_buffer hbuffer, memory_lay, ← SlotBlock.store_append] at hrest
      rw [carve_cons hp.1 hp.2, fill_cons hp.1 hp.2, ← hback]
      exact hrest
  | case2 position back hp =>
      rw [carve, dif_neg hp, fill, dif_neg hp]
      rfl

end SlotHeap

namespace SlotBlock

/-- A block as its carving leaves it, with the slots in address order. -/
structure LaidOut (b : SlotBlock) (before after : Memory) (slots : List Slot) : Prop where
  /-- Headers, back spans, payload alignment and links are those of the slots. -/
  consistent : SlotHeap.Consistent ⟨b, after⟩ slots (slots.map (·.position))
  free : ∀ s ∈ slots, s.status = .free
  full : ∀ s ∈ slots.dropLast, s.span = maxAlignedSpan b.unit
  last : ∀ s ∈ slots.getLast?, minSlotSpan ≤ s.span ∧ s.span ≤ maxAlignedSpan b.unit
  stored : after = b.store (rounds slots 0) before
  inside : ∀ w ∈ rounds slots 0, 0 < w.1 ∧ w.1 < b.buffer.len
  entered : ∀ s ∈ slots, minSlotSpan ≤ b.buffer.len - s.position
  left : b.buffer.len - b.capacity < minSlotSpan
  ends : b.first ≤ b.buffer.len → b.capacity ≤ b.buffer.len ∧ b.buffer.len - b.capacity ≤ 3
  short : b.buffer.len < b.first → slots = [] ∧ b.capacity = b.first

theorem carved_memory (buffer : Buffer) (alignment : Nat) (m : Memory) :
    ((blank buffer alignment).carved m).memory = (blank buffer alignment).store (rounds
      (freshLayout buffer.len (blank buffer alignment).unit).slots 0) m :=
  SlotHeap.memory_carve ⟨blank buffer alignment, m⟩ (Layout.Sound.first_pos _) rfl

theorem create_laidOut {b : SlotBlock} {s s' : AddressSpace} {blockSize alignment : Nat}
    (hsmall : alignment < 131072)
    (hcreate : create blockSize alignment s = (.ok b, s')) :
    b.alignment = max alignment 4 ∧
      b.buffer.len = wrap (roundUp blockSize (max alignment 4)) / 4 ∧
      ∃ slots, b.LaidOut (Buffer.grantedSpace s 4 b.buffer.len b.buffer.base).memory s'.memory
        slots := by
  have hc := create_created hsmall hcreate
  have hsound := hc.carved.sound
  have hfour : minSlotSpan = 4 := rfl
  have hrest : b.buffer.len < b.capacity + minSlotSpan := hc.carved.rest_lt
  have hunit : b.unit ≤ maxSpan := by
    have hmax : maxSpan = 32767 := rfl
    simp only [unit, hc.aligned, SlotGeometry.unit]
    omega
  have hspan := maxAlignedSpan_bounds hunit (unit_pos _)
  refine ⟨hc.aligned, by rw [hc.buffer]; rfl, (freshLayout b.buffer.len b.unit).slots, ?_⟩
  constructor
  · exact hc.carved.keeps.consistent
  · exact hc.carved.free
  · exact fill_full
  · intro s hs
    obtain ⟨hlow, hhigh, -⟩ := fill_last hspan.1 s (List.mem_of_getLast? hs)
    exact ⟨hlow, hhigh⟩
  · have hmemory := carved_memory b.buffer b.alignment
      (Buffer.grantedSpace s 4 b.buffer.len b.buffer.base).memory
    rw [hc.result] at hmemory
    exact hmemory
  · intro w hw
    rcases mem_rounds hw with ⟨s, hs, k, hk, hwk⟩ | ⟨h0, -⟩
    · rw [hwk]
      obtain ⟨hpos, -, hlen⟩ := hsound.inRange hs (Nat.lt_of_lt_of_le hk (hsound.each s hs).span_ge)
      exact ⟨hpos, hlen⟩
    · exact absurd rfl h0
  · exact fun s hs => (fill_last hspan.1 s hs).2.2
  · omega
  · intro hfirst
    by_cases hnil : (freshLayout b.buffer.len b.unit).slots = []
    · have htiled := hsound.tiled
      rw [hnil] at htiled
      have hcap : b.first = b.capacity := htiled
      omega
    · have hin : b.capacity ≤ b.buffer.len := hsound.inside hnil
      omega
  · intro hshort
    have hnil : (freshLayout b.buffer.len b.unit).slots = [] :=
      fill_nil (show b.buffer.len - b.first < minSlotSpan by omega)
    have htiled := hsound.tiled
    rw [hnil] at htiled
    exact ⟨hnil, htiled.symm⟩

theorem create_laidOut_two : ∃ b space',
    create 131088 16 (.new (.sideBySide false 16 0x100000000)) = (.ok b, space') ∧
      ∃ slots, b.LaidOut (Buffer.grantedSpace (.new (.sideBySide false 16 0x100000000)) 4
        b.buffer.len b.buffer.base).memory space'.memory slots := by
  obtain ⟨b, space', hcreate⟩ := Obtain.exists_of_isOk (x := create 131088 16)
    (s := .new (.sideBySide false 16 0x100000000)) (by decide +kernel)
  obtain ⟨-, -, hlaid⟩ := create_laidOut (by decide) hcreate
  exact ⟨b, space', hcreate, hlaid⟩

end SlotBlock

end AffinityHeap
