import AffinityHeap.Proofs.LargestFree

namespace AffinityHeap

open SlotGeometry (maxAlignedSpan neededWords)

open Slot (Tiled)

section Spans

variable {l : List Slot} {unit stop span position start back reached : Nat}

theorem stop_of_fill (hspan : unit ∣ span) (hu : unit ∣ position + 1 ∨ position = stop)
    (ht : Tiled position back (fill stop span position back) reached) :
    unit ∣ reached + 1 ∨ reached = stop := by
  induction hn : stop - position using Nat.strongRecOn generalizing position back with
  | ind n ih =>
    by_cases hp : minSlotSpan ≤ stop - position ∧ 0 < span
    · have hfit : 3 + 1 ≤ stop - position := hp.1
      rw [fill_cons hp.1 hp.2] at ht
      obtain ⟨-, -, ht⟩ := ht
      have hnext : position + (min (position + span) stop - position) =
          min (position + span) stop := by omega
      simp only [Slot.stop, hnext] at ht
      refine ih (stop - min (position + span) stop) (by omega) ?_ ht rfl
      rcases Nat.le_total (position + span) stop with h | h
      · refine .inl ?_
        rw [Nat.min_eq_left h, Nat.add_right_comm]
        exact (Nat.dvd_add_right (hu.resolve_right (by omega))).2 hspan
      · exact .inr (Nat.min_eq_right h)
    · rw [fill, dif_neg hp] at ht
      have ht : position = reached := ht
      rwa [← ht]

theorem tiled_dvd (ht : Tiled start back l stop) (hl : ∀ s ∈ l, unit ∣ s.position + 1)
    (hstop : unit ∣ stop + 1) : ∀ s ∈ l, unit ∣ s.span := by
  induction l generalizing start back with
  | nil => exact fun s hs => absurd hs List.not_mem_nil
  | cons s l ih =>
      obtain ⟨-, -, ht⟩ := ht
      have hl' : ∀ t ∈ l, unit ∣ t.position + 1 := fun t ht => hl t (List.mem_cons_of_mem s ht)
      have hnext : unit ∣ s.position + 1 + s.span := by
        rw [Nat.add_right_comm]
        cases l with
        | nil =>
            have ht : s.position + s.span = stop := ht
            rwa [ht]
        | cons t l =>
            have ht : t.position = s.position + s.span := ht.1
            rw [← ht]
            exact hl' t (List.mem_cons_self ..)
      intro t hmem
      rcases List.mem_cons.1 hmem with rfl | hmem
      · exact (Nat.dvd_add_right (hl t (List.mem_cons_self ..))).1 hnext
      · exact ih ht hl' t hmem

end Spans

namespace SlotBlock

/-- The last slot of the chain ends with the buffer, where its span is one more than a multiple of
the unit, and together with the slot in front of it it can outgrow the bound on sizes. -/
def Overlong (b : SlotBlock) : Prop :=
  2 ≤ b.unit ∧ b.capacity = b.buffer.len ∧ maxAlignedSpan b.unit < b.capacity - b.first

instance (b : SlotBlock) : Decidable b.Overlong := inferInstanceAs (Decidable (_ ∧ _))

/-- How the buffer of a new block is divided. -/
structure Measured (b : SlotBlock) : Prop where
  even : 2 ≤ b.unit → 2 ∣ b.unit
  small : b.unit ≤ maxSpan
  whole : b.unit ∣ b.buffer.len
  edge : b.unit ∣ b.capacity + 1 ∨ b.capacity = b.buffer.len
  maximum : b.maximumAllocationSize =
    min ((maxAlignedSpan b.unit - 1) * 4) ((b.capacity - (b.first + 1)) * 4)

theorem create_measured {b : SlotBlock} {space space' : AddressSpace} {blockSize alignment : Nat}
    (hp : space.Aligned) (hsmall : alignment < 131072)
    (hcreate : create blockSize alignment space = (.ok b, space')) : b.Measured := by
  obtain ⟨hsited, hal, hlen, hc, -⟩ := create_carved hp hsmall hcreate
  have hunit := hsited.alignment_eq
  refine ⟨fun htwo => ?_, ?_, ?_, ?_, create_maximum hp hsmall hcreate⟩
  · have hdvd : 8 ∣ b.alignment :=
      powerOfTwo_dvd (isPowerOfTwo_iff.2 ⟨3, rfl⟩) hsited.power (by omega)
    omega
  · have hmax : maxSpan = 32767 := rfl
    omega
  · obtain ⟨k, hk⟩ : 4 * b.unit ∣ wrap (roundUp blockSize (max alignment 4)) := by
      rw [← hunit, ← hal]
      exact dvd_wrap hsited.power (dvd_roundUp ..)
    rw [hlen, hk, Nat.mul_assoc, Nat.mul_div_cancel_left _ (by decide)]
    exact Nat.dvd_mul_right ..
  · exact stop_of_fill (Nat.dvd_mul_right ..) (.inl b.unit_dvd_first) hc.sound.tiled

variable {b : SlotBlock} {L : Layout}

theorem Measured.span_le (hb : b.Measured) (hS : L.Sound b) (hshort : ¬ b.Overlong) {F : Slot}
    (hF : F ∈ L.slots) : F.span ≤ maxAlignedSpan b.unit := by
  have hmax := (hS.each F hF).span_le
  have hfirst := hS.first_le hF
  have hstop := hS.stop_le hF
  have hpos := unit_pos b
  by_cases hunit : b.unit = 1
  · rw [maxAlignedSpan, hunit]
    simpa using hmax
  rcases hb.edge with hedge | hedge
  · obtain ⟨k, hk⟩ := tiled_dvd hS.tiled (fun s hs => (hS.each s hs).aligned) hedge F hF
    rw [hk] at hmax ⊢
    exact Nat.mul_le_mul_left _ ((Nat.le_div_iff_mul_le hpos).2 (by rwa [Nat.mul_comm]))
  · have hlong : ¬ maxAlignedSpan b.unit < b.capacity - b.first := fun h =>
      hshort ⟨by omega, hedge, h⟩
    simp only [Slot.stop] at hstop
    omega

theorem Measured.payload_le (hb : b.Measured) (hS : L.Sound b) (hshort : ¬ b.Overlong) {F : Slot}
    (hF : F ∈ L.slots) : F.payloadBytes ≤ b.maximumAllocationSize := by
  have hspan := hb.span_le hS hshort hF
  have hfirst := hS.first_le hF
  have hstop := hS.stop_le hF
  rw [hb.maximum]
  simp only [SlotHeader.payloadBytes, Slot.stop] at hstop ⊢
  omega

end SlotBlock

theorem SlotStep.remainderAfter_eq {unit p k : Nat} (hp : unit ∣ p + 1) (hk : unit ∣ k)
    (hpos : 0 < k) : remainderAfter unit p (k - 1) = p + k := by
  obtain ⟨i, hi⟩ := (Nat.dvd_add_right hp).2 hk
  have hu : 0 < unit := Nat.pos_of_dvd_of_pos hk hpos
  have hsum : p + 1 + (k - 1) + unit = unit * i + (unit - 1) := by omega
  rw [remainderAfter, hsum, Nat.mul_add_div hu, Nat.div_eq_of_lt (by omega), Nat.add_zero,
    Nat.mul_comm, ← hi]
  omega

namespace Shape

theorem freeLast?_allocated {A : List Site} {p n : Nat} :
    freeLast? (A ++ [(p, n, .allocated)]) = none := by simp [freeLast?]

theorem exists_slot {L : Layout} {A B : List Site} {p n : Nat} {status : SlotStatus}
    (h : sites L.slots = A ++ (p, n, status) :: B) : ∃ A' F B', L.slots = A' ++ F :: B' ∧
      sites A' = A ∧ sites B' = B ∧ F.position = p ∧ F.span = n ∧ F.status = status := by
  obtain ⟨A', l, hL, hA, hl⟩ := List.map_eq_append_iff.1 h
  obtain ⟨F, B', rfl, hF, hB⟩ := List.map_eq_cons_iff.1 hl
  obtain ⟨hp, hn⟩ := Prod.mk.inj hF
  obtain ⟨hn, hstatus⟩ := Prod.mk.inj hn
  exact ⟨A', F, B', hL, hA, hB, hp, hn, hstatus⟩

end Shape

namespace BlockSession

/-- A session on the slot block `b` whose slots have the shape told. -/
def Bears (b : SlotBlock) (shape : Shape) (s : BlockSession) : Prop :=
  ∃ L, s.Shows b L ∧ Shape.of L.slots L.free = shape

namespace Bears

variable {b : SlotBlock} {s : BlockSession} {shape : Shape} {A B : List Site} {Y free : List Nat}
  {c k m n p : Nat}

theorem fits (hs : s.Bears b shape) (size : Nat) : s.block.Fits size := by
  obtain ⟨L, ⟨b', hblock, -⟩, -⟩ := hs
  rw [hblock]
  trivial

/-- The first slot of the free list is handed out whole. -/
theorem whole (hs : s.Bears b ⟨A ++ (p, n, .free) :: B, p :: Y⟩)
    (hmax : (n - 1) * 4 ≤ b.maximumAllocationSize) :
    ∃ t, s.apply (.allocate ((n - 1) * 4)) = .ok t ∧
      t.Bears b ⟨A ++ (p, n, .allocated) :: B, Y⟩ ∧
      t.live = ⟨b.addressOf (p + 1), (n - 1) * 4⟩ :: s.live := by
  obtain ⟨L, hs, hshape⟩ := hs
  obtain ⟨hsites, hfree⟩ := Shape.mk.inj hshape
  obtain ⟨A', F, B', hL, rfl, rfl, rfl, rfl, hF⟩ := Shape.exists_slot hsites
  have hFL : F ∈ L.slots := by simp [hL]
  obtain ⟨t, ht, ⟨-, hwhy⟩ | ⟨K, L', hserved, hshows, hlive⟩⟩ := hs.allocate F.payloadBytes
  · rcases hwhy with h | h
    · exact absurd h (Nat.not_lt.2 hmax)
    · exact absurd (h F hFL hF) (Nat.lt_irrefl _)
  · have hroom := (remainderAfter_spec (p := F.position)
      (n := neededWords F.payloadBytes) (unit_pos b)).1
    have hneeded : F.span ≤ neededWords F.payloadBytes + 1 := by
      simp only [neededWords, SlotHeader.payloadBytes, ceilDiv]
      omega
    rcases hserved.at_head hs.sound hL hfree (Nat.le_refl _) rfl with
      ⟨-, rfl, rfl⟩ | ⟨hcut, -, -⟩
    · exact ⟨t, ht, ⟨_, hshows, by simp [Shape.of]⟩, hlive⟩
    · simp only [Slot.stop] at hcut
      omega

/-- The first slot of the free list is cut behind `k` words. -/
theorem cut (hs : s.Bears b ⟨A ++ (p, n, .free) :: B, p :: Y⟩) (hk : b.unit ∣ k) (hmin : 4 ≤ k)
    (hm : 5 ≤ m) (hn : n = k + m) (hmax : (k - 1) * 4 ≤ b.maximumAllocationSize) :
    ∃ t, s.apply (.allocate ((k - 1) * 4)) = .ok t ∧
      t.Bears b ⟨A ++ (p, k, .allocated) :: (p + k, m, .free) :: B, (p + k) :: Y⟩ ∧
      t.live = ⟨b.addressOf (p + 1), (k - 1) * 4⟩ :: s.live := by
  obtain ⟨L, hs, hshape⟩ := hs
  obtain ⟨hsites, hfree⟩ := Shape.mk.inj hshape
  obtain ⟨A', F, B', hL, rfl, rfl, rfl, hspan, hF⟩ := Shape.exists_slot hsites
  have hFL : F ∈ L.slots := by simp [hL]
  have hS := hs.sound
  have hsize : (k - 1) * 4 ≤ F.payloadBytes := by
    simp only [SlotHeader.payloadBytes]
    omega
  obtain ⟨t, ht, ⟨-, hwhy⟩ | ⟨K, L', hserved, hshows, hlive⟩⟩ := hs.allocate ((k - 1) * 4)
  · rcases hwhy with h | h
    · exact absurd h (Nat.not_lt.2 hmax)
    · exact absurd (h F hFL hF) (Nat.not_lt.2 hsize)
  · have hneeded : neededWords ((k - 1) * 4) = k - 1 := by
      simp only [neededWords, ceilDiv, minPayloadWords]
      omega
    have hr : F.position + k =
        SlotStep.remainderAfter b.unit F.position (neededWords ((k - 1) * 4)) := by
      rw [hneeded, SlotStep.remainderAfter_eq (hS.each F hFL).aligned hk (by omega)]
    rcases hserved.at_head hS hL hfree hsize hr with ⟨hwhole, -, -⟩ | ⟨-, rfl, rfl⟩
    · simp only [Slot.stop, minPayloadWords] at hwhole
      omega
    · have hrest : F.position + F.span - (F.position + k) = m := by omega
      exact ⟨t, ht, ⟨_, hshows, by simp [Shape.of, Slot.front, Slot.rest, Slot.stop, hrest]⟩, hlive⟩

theorem release (hs : s.Bears b ⟨A ++ (c, n, .allocated) :: B, free⟩) {g : Grant}
    (hg : g ∈ s.live) (hgc : g.address = b.addressOf (c + 1)) :
    ∃ t, s.apply (.release g) = .ok t ∧ t.Bears b (Shape.release A c n B free) := by
  obtain ⟨L, hs, hshape⟩ := hs
  obtain ⟨hsites, rfl⟩ := Shape.mk.inj hshape
  obtain ⟨A', C, B', hL, rfl, rfl, rfl, rfl, hC⟩ := Shape.exists_slot hsites
  obtain ⟨t, L', ht, hfreed, hshows⟩ := hs.release hg (by simp [hL]) hC hgc
  exact ⟨t, ht, L', hshows, hfreed.shape hs.sound hL⟩

theorem exists_grant (hs : s.Bears b ⟨A ++ (c, n, .allocated) :: B, free⟩) :
    ∃ g ∈ s.live, g.address = b.addressOf (c + 1) := by
  obtain ⟨L, hs, hshape⟩ := hs
  obtain ⟨A', C, B', hL, -, -, rfl, -, hC⟩ := Shape.exists_slot (Shape.mk.inj hshape).1
  exact hs.exists_grant (by simp [hL]) hC

/-- A free slot longer than the bound on sizes is counted as room that it is not. -/
theorem overlong (hs : s.Bears b ⟨A ++ (p, n, .free) :: B, free⟩)
    (hmax : b.maximumAllocationSize < (n - 1) * 4) :
    (s.block.stats s.space.memory).Room ((n - 1) * 4) ∧ ¬ s.block.Serves ((n - 1) * 4) s.space := by
  obtain ⟨L, hs, hshape⟩ := hs
  obtain ⟨A', F, B', hL, -, -, -, rfl, hF⟩ := Shape.exists_slot (Shape.mk.inj hshape).1
  obtain ⟨block, space, live⟩ := s
  obtain ⟨b', rfl, hlike, -, hk⟩ := hs
  refine ⟨(hk.room_iff _).2 ⟨F, by simp [hL], hF, Nat.le_refl _⟩, fun hserves => ?_⟩
  have hle := ((Block.serves_slot_iff hk _).1 hserves).2
  rw [hlike.maximum] at hle
  exact absurd hmax (Nat.not_lt.2 hle)

end Bears

end BlockSession

namespace Shape

/-- From whatever session has slots of this shape some run ends where a request is refused that the
statistics say there is room for. -/
def Misleads (b : SlotBlock) (shape : Shape) : Prop :=
  ∀ s : BlockSession, s.Bears b shape →
    ∃ requests t, s.ProperRun requests ∧ s.run requests = .ok t ∧ ¬ t.Foretells

namespace Misleads

variable {b : SlotBlock} {shape shape' : Shape} {A B : List Site} {Y free : List Nat}
  {c k m n p q : Nat}

theorem step (h : Misleads b shape') (hstep : ∀ s : BlockSession, s.Bears b shape →
      ∃ r t, r.Proper s.block s.live ∧ s.apply r = .ok t ∧ t.Bears b shape') : Misleads b shape := by
  intro s hs
  obtain ⟨r, t, hr, ht, hbears⟩ := hstep s hs
  obtain ⟨requests, u, hproper, hu, hmisled⟩ := h t hbears
  refine ⟨r :: requests, u, ⟨hr, fun t' ht' => ?_⟩, ?_, hmisled⟩
  · obtain rfl := Except.ok.inj (ht.symm.trans ht')
    exact hproper
  · rw [BlockSession.run, ht]
    exact hu

theorem whole (hmax : (n - 1) * 4 ≤ b.maximumAllocationSize)
    (h : Misleads b ⟨A ++ (p, n, .allocated) :: B, Y⟩) :
    Misleads b ⟨A ++ (p, n, .free) :: B, p :: Y⟩ := by
  refine h.step fun s hs => ?_
  obtain ⟨t, ht, hbears, -⟩ := hs.whole hmax
  exact ⟨.allocate _, t, hs.fits _, ht, hbears⟩

theorem cut (hk : b.unit ∣ k) (hmin : 4 ≤ k) (hm : 5 ≤ m) (hn : n = k + m)
    (hmax : (k - 1) * 4 ≤ b.maximumAllocationSize)
    (h : Misleads b ⟨A ++ (p, k, .allocated) :: (p + k, m, .free) :: B, (p + k) :: Y⟩) :
    Misleads b ⟨A ++ (p, n, .free) :: B, p :: Y⟩ := by
  refine h.step fun s hs => ?_
  obtain ⟨t, ht, hbears, -⟩ := hs.cut hk hmin hm hn hmax
  exact ⟨.allocate _, t, hs.fits _, ht, hbears⟩

theorem release (h : Misleads b (Shape.release A c n B free)) :
    Misleads b ⟨A ++ (c, n, .allocated) :: B, free⟩ := by
  refine h.step fun s hs => ?_
  obtain ⟨g, hg, hgc⟩ := hs.exists_grant
  obtain ⟨t, ht, hbears⟩ := hs.release hg hgc
  exact ⟨.release g, t, hg, ht, hbears⟩

theorem between (hA : freeLast? A = none) (hB : freeHead? B = none)
    (h : Misleads b ⟨A ++ (c, n, .free) :: B, c :: free⟩) :
    Misleads b ⟨A ++ (c, n, .allocated) :: B, free⟩ := by
  refine release ?_
  simpa only [Shape.release, joinBoth, joinPrevious, joinNext, hA, hB, Option.none_or,
    Option.getD_none, pushFront] using h

theorem before (hA : freeLast? A = none) (hspan : n + k ≤ maxSpan)
    (h : Misleads b ⟨A ++ (c, n + k, .free) :: B, free.replace q c⟩) :
    Misleads b ⟨A ++ (c, n, .allocated) :: (q, k, .free) :: B, free⟩ := by
  refine release ?_
  simpa only [Shape.release, joinBoth, joinPrevious, joinNext, hA, freeHead?, if_pos hspan,
    Option.none_or, Option.getD_some] using h

theorem behind (hB : freeHead? B = none) (hspan : m + n ≤ maxSpan)
    (h : Misleads b ⟨A ++ (p, m + n, .free) :: B, free⟩) :
    Misleads b ⟨A ++ (p, m, .free) :: (c, n, .allocated) :: B, free⟩ := by
  rw [List.append_cons]
  refine release ?_
  simpa [Shape.release, joinBoth, joinPrevious, freeLast?, hB, hspan] using h

theorem overlong (hmax : b.maximumAllocationSize < (n - 1) * 4) :
    Misleads b ⟨A ++ (p, n, .free) :: B, Y⟩ := by
  intro s hs
  obtain ⟨hroom, hrefused⟩ := hs.overlong hmax
  exact ⟨[], s, trivial, rfl, fun hforetells => hrefused ((hforetells _ (hs.fits _)).2 hroom)⟩

/-- Slots in front of the list are handed out whole one after the other. -/
theorem exhaust {D : List Site} (hA : ∀ x ∈ A, x.2 = (n, .free))
    (hmax : (n - 1) * 4 ≤ b.maximumAllocationSize)
    (h : Misleads b ⟨D ++ A.map (fun x => (x.1, n, .allocated)) ++ B, Y⟩) :
    Misleads b ⟨D ++ A ++ B, A.map (·.1) ++ Y⟩ := by
  induction A generalizing D with
  | nil => exact h
  | cons x A ih =>
      obtain ⟨p, m, status⟩ := x
      obtain ⟨rfl, rfl⟩ := Prod.mk.inj (hA _ (List.mem_cons_self ..))
      have hrest := ih (D := D ++ [(p, m, .allocated)])
        (fun x hx => hA x (List.mem_cons_of_mem _ hx)) (by simpa using h)
      have hfirst := whole (A := D) (B := A ++ B) (Y := A.map (·.1) ++ Y) (p := p) hmax
        (by simpa using hrest)
      simpa using hfirst

variable {d w : Nat}

/-- The last slot but one is cut where the last one, put in front of it, would make the longest
slot and a word. -/
theorem joined (hk : b.unit ∣ k) (hmin : 4 ≤ k) (hd : 5 ≤ d)
    (hspan : k + d + 1 ≤ maxSpan) (hmax : b.maximumAllocationSize = (k + d - 1) * 4) :
    Misleads b ⟨A ++ [(p, k + d, .free), (q, k + 1, .free)], [p, q]⟩ := by
  refine cut hk hmin hd rfl (by omega) ?_
  rw [List.append_cons]
  refine whole (by omega) (before freeLast?_allocated (by omega) (overlong ?_))
  omega

/-- Where that leaves a rest too short for a slot, both slots are cut and joined around the place
first. -/
theorem rejoined (h4 : b.unit ∣ 4) (hd : b.unit ∣ d) (hdlow : 2 ≤ d) (hdhigh : d ≤ 4)
    (hm : b.unit ∣ m) (hm4 : 4 ≤ m) (hw : 5 ≤ w) (hlong : w + d + 7 = m) (hspan : m + 9 ≤ maxSpan)
    (hmax : b.maximumAllocationSize = (m + 8 - 1) * 4) :
    Misleads b ⟨A ++ [(p, m + 8, .free), (q, 16 + w, .free)], [p, q]⟩ := by
  have h8 : b.unit ∣ 8 := Nat.dvd_trans h4 (by decide)
  have h16 : b.unit ∣ 16 := Nat.dvd_trans h4 (by decide)
  -- The rest of the first slot, eight words, and the first sixteen words of the second are held.
  refine cut hm hm4 (by decide) rfl (by omega) ?_
  rw [List.append_cons]
  refine whole (by omega) ?_
  rw [List.append_cons]
  refine cut h16 (by decide) hw rfl (by omega) ?_
  rw [List.append_cons]
  refine whole (by omega) ?_
  -- Given back they make one slot, which is cut at the place.
  simp only [List.append_assoc, List.cons_append, List.nil_append]
  rw [List.append_cons]
  refine between freeLast?_allocated rfl (behind rfl (by decide) ?_)
  refine cut (k := 8 - d) (m := 16 + d) (Nat.dvd_sub h8 hd) (by omega) (by omega) (by omega)
    (by omega) ?_
  rw [List.append_cons]
  refine behind rfl (by omega) (overlong ?_)
  omega

end Misleads

end Shape

/-- Of a long chain that fills its stretch all slots but the last have the span asked for. -/
theorem fill_long {stop span position back : Nat} (hspan : 0 < span)
    (hlong : span < stop - position) (hmin : minSlotSpan ≤ stop - position)
    (ht : Tiled position back (fill stop span position back) stop) :
    ∃ A p n, Shape.sites (fill stop span position back) =
        A ++ [(p, span, .free), (p + span, n, .free)] ∧ (∀ x ∈ A, x.2 = (span, .free)) ∧
      p + span + n = stop ∧ n ≤ span := by
  induction hn : stop - position using Nat.strongRecOn generalizing position back with
  | ind m ih =>
    have hnext : min (position + span) stop = position + span := by omega
    rw [fill_cons hmin hspan, hnext, Nat.add_sub_cancel_left] at ht ⊢
    obtain ⟨-, -, ht⟩ := ht
    have ht : Tiled (position + span) span (fill stop span (position + span) span) stop := ht
    have hrest : minSlotSpan ≤ stop - (position + span) := by
      refine Nat.not_lt.1 fun hshort => ?_
      rw [fill_nil hshort] at ht
      have ht : position + span = stop := ht
      omega
    by_cases hmore : span < stop - (position + span)
    · obtain ⟨A, p, n, hsites, hA, hstop, hn⟩ :=
        ih (stop - (position + span)) (by omega) hmore hrest ht rfl
      refine ⟨(position, span, .free) :: A, p, n, ?_, ?_, hstop, hn⟩
      · rw [Shape.sites_cons, hsites, List.cons_append]
      · intro x hx
        rcases List.mem_cons.1 hx with rfl | hx
        · rfl
        · exact hA x hx
    · have hend : min (position + span + span) stop = stop := by omega
      refine ⟨[], position, stop - (position + span), ?_, fun x hx => absurd hx List.not_mem_nil,
        by omega, by omega⟩
      rw [fill_cons hrest hspan, hend, fill_nil (by rw [Nat.sub_self]; decide)]
      rfl

namespace SlotBlock

variable {b : SlotBlock}

/-- The slots of such a block: all but the last as long as they may be, and a last one whose words,
but for one, are a multiple of the unit. -/
theorem Measured.exists_shape (hb : b.Measured) (hlong : b.Overlong)
    (hS : (freshLayout b.buffer.len b.unit).Sound b) : ∃ A p k,
      Shape.of (freshLayout b.buffer.len b.unit).slots (freshLayout b.buffer.len b.unit).free =
        ⟨A ++ [(p, maxAlignedSpan b.unit, .free), (p + maxAlignedSpan b.unit, k + 1, .free)],
          A.map (·.1) ++ [p, p + maxAlignedSpan b.unit]⟩ ∧
      (∀ x ∈ A, x.2 = (maxAlignedSpan b.unit, .free)) ∧ b.unit ∣ k ∧ 3 ≤ k ∧
        k + 1 ≤ maxAlignedSpan b.unit := by
  obtain ⟨-, hcap, hspan⟩ := hlong
  obtain ⟨hge, -⟩ := maxAlignedSpan_bounds hb.small (unit_pos b)
  have hge : 3 + 1 ≤ maxAlignedSpan b.unit := hge
  have htiled := hS.tiled
  rw [hcap] at htiled hspan
  obtain ⟨A, p, n, hsites, hA, hstop, hn⟩ := fill_long (show 0 < maxAlignedSpan b.unit by omega)
    hspan (show 3 + 1 ≤ b.buffer.len - b.first by omega) htiled
  have hsites : Shape.sites (freshLayout b.buffer.len b.unit).slots =
      A ++ [(p, maxAlignedSpan b.unit, .free), (p + maxAlignedSpan b.unit, n, .free)] := hsites
  have hfree : (freshLayout b.buffer.len b.unit).free =
      A.map (·.1) ++ [p, p + maxAlignedSpan b.unit] := by
    have hmap := congrArg (List.map Prod.fst) hsites
    rw [Shape.sites, List.map_map, List.map_append] at hmap
    exact hmap
  obtain ⟨A', T, B', hL, -, -, hTp, rfl, -⟩ :=
    Shape.exists_slot (hsites.trans (List.append_cons ..))
  obtain ⟨hTmin, -, hTdvd⟩ := hS.each T (by simp [hL])
  have hTmin : 3 + 1 ≤ T.span := hTmin
  obtain ⟨k, hk⟩ := Nat.exists_eq_add_of_le' (show 1 ≤ T.span by omega)
  rw [hk] at hsites
  refine ⟨A, p, k, by rw [Shape.of, hsites, hfree], hA, ?_, by omega, by omega⟩
  have hsum : b.buffer.len = T.position + 1 + k := by omega
  exact (Nat.dvd_add_right hTdvd).1 (hsum ▸ hb.whole)

theorem Measured.misleads (hb : b.Measured) (hlong : b.Overlong)
    (hS : (freshLayout b.buffer.len b.unit).Sound b) :
    Shape.Misleads b (.of (freshLayout b.buffer.len b.unit).slots
      (freshLayout b.buffer.len b.unit).free) := by
  obtain ⟨A, p, k, hshape, hA, hkdvd, hk, hkle⟩ := hb.exists_shape hlong hS
  obtain ⟨htwo, hcap, hspan⟩ := hlong
  have heven := hb.even htwo
  have hdvd : b.unit ∣ maxAlignedSpan b.unit := Nat.dvd_mul_right ..
  have hlast : maxSpan < maxAlignedSpan b.unit + b.unit := by
    rw [maxAlignedSpan, ← Nat.mul_succ]
    exact Nat.lt_mul_div_succ maxSpan (unit_pos b)
  have hle := (maxAlignedSpan_bounds hb.small (unit_pos b)).2
  have hmax : b.maximumAllocationSize = (maxAlignedSpan b.unit - 1) * 4 := by
    rw [hb.maximum]
    omega
  -- The unit is even, and so are all multiples of it.
  have hMeven := Nat.dvd_trans heven hdvd
  have hkeven := Nat.dvd_trans heven hkdvd
  have hlimit : maxSpan = 32767 := rfl
  rw [hshape]
  refine Shape.Misleads.exhaust (D := []) hA (Nat.le_of_eq hmax.symm) ?_
  obtain ⟨d, hd⟩ := Nat.exists_eq_add_of_le (show k ≤ maxAlignedSpan b.unit by omega)
  have hddvd : b.unit ∣ d := (Nat.dvd_add_right hkdvd).1 (hd ▸ hdvd)
  rw [hd] at hmax hlast hMeven ⊢
  by_cases hroom : 5 ≤ d
  · exact .joined hkdvd (by omega) hroom (by omega) hmax
  · have hdeven := Nat.dvd_trans heven hddvd
    have hunit := Nat.le_of_dvd (by omega) hddvd
    obtain ⟨i, hi⟩ : d ∣ 4 := by
      rcases (show d = 2 ∨ d = 4 by omega) with rfl | rfl
      · decide
      · decide
    have h4 : b.unit ∣ 4 := hi ▸ Nat.dvd_mul_right_of_dvd hddvd i
    obtain ⟨m, hm⟩ := Nat.exists_eq_add_of_le' (show 8 ≤ k + d by omega)
    obtain ⟨w, hw⟩ := Nat.exists_eq_add_of_le (show 16 ≤ k + 1 by omega)
    have h8 : b.unit ∣ 8 := Nat.dvd_trans h4 (by decide)
    have hmdvd : b.unit ∣ m := by
      rw [hd, hm] at hdvd
      exact (Nat.dvd_add_left h8).1 hdvd
    rw [hm] at hmax ⊢
    rw [hw]
    exact .rejoined h4 hddvd (by omega) (by omega) hmdvd (by omega) (by omega) (by omega) (by omega)
      hmax

end SlotBlock

/-- No slot of a segment block is joined beyond what a request may ask for. -/
def Block.Overlong : Block → Prop
  | .slot b => b.Overlong
  | .segment _ => False

namespace BlockSession

variable {space space' : AddressSpace} {kind : BackendKind} {blockSize alignment : Nat} {b : Block}

/-- What a new block is, whatever its kind. -/
theorem start_cases (hp : space.Aligned) (hsmall : kind = .slot → alignment < 131072)
    (hcreate : Block.create kind blockSize alignment space = (.ok b, space')) :
    (∃ c, b = .slot c ∧ c.Measured ∧
        (start b space').Shows c (SlotBlock.freshLayout c.buffer.len c.unit)) ∨
      ∃ c, b = .segment c ∧ c.alignment ∣ c.buffer.len ∧ (start b space').Segmented c := by
  have hkept := kept_start hp hsmall hcreate
  cases kind with
  | slot =>
      rw [Block.create, Obtain.map_apply] at hcreate
      rcases hrun : SlotBlock.create blockSize alignment space with ⟨e | c, s⟩
      · rw [hrun] at hcreate
        cases hcreate
      · rw [hrun] at hcreate
        cases hcreate
        obtain ⟨hsited, -, hkeeps⟩ := SlotBlock.create_keeps hp (hsmall rfl) hrun
        exact .inl ⟨c, rfl, SlotBlock.create_measured hp (hsmall rfl) hrun, c, rfl, .refl c, hsited,
          hkeeps⟩
  | segment =>
      rw [Block.create, Obtain.map_apply] at hcreate
      rcases SegmentBlock.create_granted space blockSize alignment with
        ⟨e, s, hrun, -⟩ | ⟨base, -, -, hpower, -, hrun⟩
      · rw [hrun] at hcreate
        cases hcreate
      · rw [hrun] at hcreate
        cases hcreate
        exact .inr ⟨_, rfl, SegmentBlock.sited_whole hpower blockSize base, _, rfl, ⟨rfl, rfl⟩, hkept⟩

/-- Below the greatest size that a block ever serves, the statistics tell what it serves; without
that bound they do so in every run exactly where no slot outgrows it. -/
theorem run_foretells (hp : space.Aligned) (hsmall : kind = .slot → alignment < 131072)
    (hcreate : Block.create kind blockSize alignment space = (.ok b, space')) :
    (∀ requests, (start b space').ProperRun requests →
      ∃ s, (start b space').run requests = .ok s ∧ s.ForetellsBounded) ∧
    ((∀ requests, (start b space').ProperRun requests →
      ∃ s, (start b space').run requests = .ok s ∧ s.Foretells) ↔ ¬ b.Overlong) := by
  rcases start_cases hp hsmall hcreate with ⟨c, rfl, hc, hs⟩ | ⟨c, rfl, hlen, hs⟩
  · refine ⟨fun requests hr => ?_, fun hall hlong => ?_, fun hshort requests hr => ?_⟩
    · obtain ⟨t, L, ht, hshows⟩ := hs.run hr
      exact ⟨t, ht, hshows.foretellsBounded⟩
    · obtain ⟨requests, t, hr, ht, hmisled⟩ := hc.misleads hlong hs.sound _ ⟨_, hs, rfl⟩
      obtain ⟨t', ht', hforetells⟩ := hall requests hr
      obtain rfl := Except.ok.inj (ht.symm.trans ht')
      exact hmisled hforetells
    · obtain ⟨t, L, ht, hshows⟩ := hs.run hr
      exact ⟨t, ht, hshows.foretells fun F hF => hc.payload_le hshows.sound hshort hF⟩
  · refine ⟨fun requests hr => ?_, fun _ => id, fun _ requests hr => ?_⟩
    · obtain ⟨t, ht, hsegmented⟩ := hs.run hr
      exact ⟨t, ht, hsegmented.foretellsBounded hlen⟩
    · obtain ⟨t, ht, hsegmented⟩ := hs.run hr
      exact ⟨t, ht, hsegmented.foretells hlen⟩

theorem run_foretells_small : ∃ b space',
    Block.create .slot 64 8 (.new (.sideBySide false 16 0x100000000)) = (.ok b, space') ∧
      (∀ requests, (start b space').ProperRun requests →
        ∃ s, (start b space').run requests = .ok s ∧ s.ForetellsBounded) ∧
      ((∀ requests, (start b space').ProperRun requests →
        ∃ s, (start b space').run requests = .ok s ∧ s.Foretells) ↔ ¬ b.Overlong) := by
  obtain ⟨b, space', hcreate⟩ := Obtain.exists_of_isOk
    (x := Block.create .slot 64 8) (s := .new (.sideBySide false 16 0x100000000))
    (by decide +kernel)
  exact ⟨b, space', hcreate, run_foretells (AddressSpace.aligned_of_policy
    (Policy.sideBySide_aligned (isPowerOfTwo_iff.2 ⟨4, rfl⟩) false 0x100000000)) (by decide)
    hcreate⟩

/-- In a block of 32772 words the slot that is given back is joined with the short last slot to
32767 words, one more than the block ever hands out. -/
theorem room_refused : ∃ b space' s,
    Block.create .slot 131088 8 (.new (.sideBySide false 16 0x100000000)) = (.ok b, space') ∧
      (start b space').run
        [.allocate 12, .allocate 131044, .release ⟨b.base + 24, 131044⟩] = .ok s ∧
      (s.block.stats s.space.memory).Room 131064 ∧ ¬ s.block.Serves 131064 s.space := by
  obtain ⟨c, space', hcreate, hc⟩ := Obtain.exists_of_any
    (x := SlotBlock.create 131088 8) (s := .new (.sideBySide false 16 0x100000000))
    (p := fun c => c.unit == 2 && c.buffer.len == 32772 && c.maximumAllocationSize == 131060)
    (by decide +kernel)
  simp only [Bool.and_eq_true, beq_iff_eq] at hc
  obtain ⟨⟨hunit, hlen⟩, hmax⟩ := hc
  have hcreate' : Block.create .slot 131088 8 (.new (.sideBySide false 16 0x100000000)) =
      (.ok (.slot c), space') := by rw [Block.create, Obtain.map_apply, hcreate]
  have hp := AddressSpace.aligned_of_policy
    (s := .new (.sideBySide false 16 0x100000000))
    (Policy.sideBySide_aligned (isPowerOfTwo_iff.2 ⟨4, rfl⟩) false 0x100000000)
  have hstart : (start (.slot c) space').Bears c
      ⟨[] ++ (1, 32766, .free) :: [(32767, 5, .free)], [1, 32767]⟩ := by
    obtain ⟨hsited, -, hkeeps⟩ := SlotBlock.create_keeps hp (by decide) hcreate
    rw [hlen, hunit] at hkeeps
    exact ⟨_, ⟨c, rfl, .refl c, hsited, hkeeps⟩, by decide +kernel⟩
  obtain ⟨s₁, h₁, hs₁, -⟩ := hstart.cut (k := 4) (m := 32762) (by rw [hunit]; decide) (by decide)
    (by decide) rfl (by omega)
  obtain ⟨s₂, h₂, hs₂, hlive⟩ := Bears.whole (A := [(1, 4, .allocated)]) (p := 5) (n := 32762)
    (B := [(32767, 5, .free)]) hs₁ (by omega)
  obtain ⟨s, h, hs⟩ := Bears.release (A := [(1, 4, .allocated)]) (c := 5) (n := 32762) hs₂
    (g := ⟨c.addressOf 6, 131044⟩) (by simp [hlive]) rfl
  refine ⟨.slot c, space', s, hcreate', ?_, ?_⟩
  · have h₁ : (start (.slot c) space').apply (.allocate 12) = .ok s₁ := h₁
    have h₂ : s₁.apply (.allocate 131044) = .ok s₂ := h₂
    have h : s₂.apply (.release ⟨(Block.slot c).base + 24, 131044⟩) = .ok s := h
    simp only [run, h₁, h₂, h]
  · exact Bears.overlong (A := [(1, 4, .allocated)]) (p := 5) (n := 32767) (B := []) hs (by omega)

end BlockSession

end AffinityHeap
