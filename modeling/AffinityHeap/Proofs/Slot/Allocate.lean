import AffinityHeap.Proofs.Slot.Edit

namespace AffinityHeap

open SlotGeometry (neededWords)

open SlotStep (remainderAfter)

variable {b : SlotBlock} {L L' : Layout} {A B : List Slot} {F K : Slot} {X Y : List Nat}
  {unit size : Nat}

theorem unit_pos (b : SlotBlock) : 0 < b.unit := Nat.lt_of_lt_of_le Nat.one_pos (Nat.le_max_right ..)

theorem remainderAfter_spec {p n : Nat} (hu : 0 < unit) :
    p + 1 + n ≤ remainderAfter unit p n ∧
      remainderAfter unit p n < p + 1 + n + unit ∧
      unit ∣ remainderAfter unit p n + 1 := by
  have h1 := Nat.div_mul_le_self (p + 1 + n + unit) unit
  have h2 := Nat.lt_div_mul_add hu (a := p + 1 + n + unit)
  have h3 : remainderAfter unit p n + 1 = (p + 1 + n + unit) / unit * unit := by
    rw [remainderAfter]
    omega
  exact ⟨by omega, by omega, h3 ▸ Nat.dvd_mul_left ..⟩

theorem le_neededWords (size : Nat) : size ≤ neededWords size * 4 ∧ 3 ≤ neededWords size := by
  simp only [neededWords, ceilDiv, minPayloadWords]
  omega

namespace Slot

/-- The part of a slot in front of `r`, allocated. -/
def front (F : Slot) (r : Nat) : Slot := { F with span := r - F.position, status := .allocated }

/-- The part of a slot from `r` on, free. -/
def rest (F : Slot) (r : Nat) : Slot := ⟨⟨r - F.position, F.stop - r, .free⟩, r⟩

end Slot

/-- What serving a request from the slot `F`, the first on the free list with room for it, makes of
a layout. `K` is the slot handed out. -/
inductive Served (unit size : Nat) : Layout → Slot → Layout → Prop
  | whole {A B : List Slot} {F : Slot} {X Y : List Nat} (hF : F.status = .free)
      (hsize : size ≤ F.payloadBytes)
      (hroom : F.stop ≤ remainderAfter unit F.position (neededWords size) + 1 + minPayloadWords)
      (hfirst : ∀ s ∈ A ++ F :: B, s.position ∈ X → s.payloadBytes < size) :
      Served unit size ⟨A ++ F :: B, X ++ F.position :: Y⟩ { F with status := .allocated }
        ⟨A ++ { F with status := .allocated } :: B, X ++ Y⟩
  | cut {A B : List Slot} {F : Slot} {X Y : List Nat} {r : Nat} (hF : F.status = .free)
      (hsize : size ≤ F.payloadBytes)
      (hr : r = remainderAfter unit F.position (neededWords size))
      (hroom : r + 1 + minPayloadWords < F.stop)
      (hfirst : ∀ s ∈ A ++ F :: B, s.position ∈ X → s.payloadBytes < size) :
      Served unit size ⟨A ++ F :: B, X ++ F.position :: Y⟩
        (F.front r) ⟨A ++ F.front r :: F.rest r :: Slot.rebase (F.stop - r) B, X ++ r :: Y⟩

namespace Served

theorem sound (h : Served b.unit size L K L') (hS : L.Sound b) : L'.Sound b := by
  have hlist := hS.listed
  cases h with
  | @whole A B F X Y hF hsize _ _ =>
      have hfuse := hS.fuse (A := A) (s := F) (M := []) (B := B)
        (t := { F with status := .allocated }) (Z := X ++ Y) (by simp) rfl rfl (by simp)
        (hS.each F (by simp)).span_le ?_
      · obtain ⟨m, -, -, -, hB⟩ := Slot.tiled_append.1 hS.tiled
        simpa [Slot.rebase_of_tiled hB] using hfuse
      · simp only [freePositions_append, freePositions_cons, hF, if_true, reduceCtorEq,
          if_false] at hlist ⊢
        exact (List.perm_middle.symm.trans (hlist.trans List.perm_middle)).cons_inv
  | @cut A B F X Y r hF hsize hr hroom _ =>
      have hFs := hS.each F (by simp)
      obtain ⟨hle, -, hdvd⟩ := remainderAfter_spec (p := F.position)
        (n := neededWords size) (unit_pos b)
      rw [← hr] at hle hdvd
      have hneed := (le_neededWords size).2
      simp only [Slot.stop, minPayloadWords] at hroom
      have hmax := hFs.span_le
      have hcut := hS.replace (A := A) (M := [F]) (B := B) (Z := X ++ r :: Y)
        (N := [F.front r, F.rest r]) (by simp) (by simp) ?_ ?_ ?_
      · simpa [Slot.lastSpan, Slot.rest] using hcut
      · simp only [Slot.Tiled, Slot.front, Slot.rest, Slot.stop]
        rintro m k m' ⟨rfl, rfl, rfl⟩
        exact ⟨rfl, rfl, by omega, trivial, by omega⟩
      · simp only [List.mem_cons, List.not_mem_nil, or_false, forall_eq_or_imp, forall_eq]
        refine ⟨⟨?_, ?_, hFs.aligned⟩, ⟨?_, ?_, hdvd⟩⟩
        · show 3 + 1 ≤ r - F.position
          omega
        · show r - F.position ≤ maxSpan
          omega
        · show 3 + 1 ≤ F.position + F.span - r
          omega
        · show F.position + F.span - r ≤ maxSpan
          omega
      · simp only [freePositions_append, freePositions_cons, hF, if_true, reduceCtorEq,
          if_false, freePositions_nil, Slot.front, Slot.rest] at hlist ⊢
        have hXY := (List.perm_middle.symm.trans (hlist.trans List.perm_middle)).cons_inv
        simpa using List.perm_middle.trans ((hXY.cons r).trans List.perm_middle.symm)

theorem size_le (h : Served unit size L K L') (hu : 0 < unit) : size ≤ K.payloadBytes := by
  cases h with
  | whole _ hsize _ _ => exact hsize
  | @cut _ _ F _ _ r _ _ hr _ _ =>
      have hle := (remainderAfter_spec (p := F.position) (n := neededWords size) hu).1
      have hneed := (le_neededWords size).1
      rw [← hr] at hle
      simp only [SlotHeader.payloadBytes, Slot.front]
      omega

theorem holdings (h : Served unit size L K L') :
    (holdings L'.slots).Perm ((K.position, K.span) :: holdings L.slots) := by
  cases h with
  | whole hF _ _ _ => simp [hF, List.perm_middle]
  | cut hF _ _ _ _ => simp [hF, Slot.front, Slot.rest, List.perm_middle]

/-- Where the first slot of the free list has room, it is the one served. -/
theorem at_head (hserved : Served b.unit size L K L') (hS : L.Sound b)
    (hL : L.slots = A ++ F :: B) (hfree : L.free = F.position :: Y) (hsize : size ≤ F.payloadBytes)
    (hr : r = remainderAfter b.unit F.position (neededWords size)) :
    (F.stop ≤ r + 1 + minPayloadWords ∧ K = { F with status := .allocated } ∧
        L' = ⟨A ++ { F with status := .allocated } :: B, Y⟩) ∨
      (r + 1 + minPayloadWords < F.stop ∧ K = F.front r ∧
        L' = ⟨A ++ F.front r :: F.rest r :: Slot.rebase (F.stop - r) B, r :: Y⟩) := by
  have hFL : F ∈ L.slots := by simp [hL]
  have hhead : ∀ {X Y' : List Nat} {G : Slot}, L.free = X ++ G.position :: Y' →
      (∀ s ∈ L.slots, s.position ∈ X → s.payloadBytes < size) →
      X = [] ∧ G.position = F.position ∧ Y' = Y := by
    intro X Y' G hX hfirst
    cases X with
    | nil =>
        obtain ⟨hp, hY⟩ := List.cons.inj (hX.symm.trans hfree)
        exact ⟨rfl, hp, hY⟩
    | cons p X =>
        obtain ⟨hp, -⟩ := List.cons.inj (hX.symm.trans hfree)
        exact absurd (hfirst F hFL (by simp [hp])) (Nat.not_lt.2 hsize)
  cases hserved with
  | whole hG _ hroom hfirst =>
      obtain ⟨rfl, hp, rfl⟩ := hhead rfl hfirst
      obtain ⟨rfl, rfl, rfl⟩ := hS.split_unique hL rfl hp
      exact .inl ⟨hr ▸ hroom, rfl, rfl⟩
  | cut hG _ hr' hroom hfirst =>
      obtain ⟨rfl, hp, rfl⟩ := hhead rfl hfirst
      obtain ⟨rfl, rfl, rfl⟩ := hS.split_unique hL rfl hp
      obtain rfl := hr'.trans hr.symm
      exact .inr ⟨hroom, rfl, rfl⟩

end Served

namespace SlotStep

section Cut

variable {v : SlotView} {r : Nat}

theorem positions_cut (hL : L.slots = A ++ F :: B) {Z : List Nat} :
    (Layout.positions ⟨A ++ F.front r :: F.rest r :: Slot.rebase (F.stop - r) B, Z⟩).Perm
      (r :: L.positions) := by
  simp only [Layout.positions, hL, List.map_append, List.map_cons, map_position_rebase]
  exact (List.Perm.append_left _ (.swap ..)).trans List.perm_middle

theorem yields_split (hS : L.Sound v.block) (hV : v.Shows L) (hL : L.slots = A ++ F :: B)
    (hfree : L.free = X ++ F.position :: Y) (hS' : Layout.Sound v.block
      ⟨A ++ F.front r :: F.rest r :: Slot.rebase (F.stop - r) B, X ++ r :: Y⟩) :
    Yields (split F.position F.toSlotHeader r (X.getLastD 0) (Y.headD 0)) v
      { F with span := r - F.position } ((((v.setWord r (F.rest r).encode).join (X.getLastD 0)
        r).join r (Y.headD 0)).rebase (F.stop - r) B) := by
  let M : Layout := ⟨A ++ F.front r :: F.rest r :: Slot.rebase (F.stop - r) B, X ++ r :: Y⟩
  have hps : Spaced M.positions := hS'.spaced
  have hperm := positions_cut (r := r) (Z := X ++ r :: Y) hL
  have hrL : r ∉ L.positions := (List.nodup_cons.1 (hperm.nodup_iff.1 hS'.nodup_positions)).1
  have hr := hperm.mem_iff.2 (List.mem_cons_self ..)
  have hr0 : r ≠ 0 := Nat.ne_of_gt (hps.pos _ hr)
  have hold : ∀ q ∈ X ++ F.position :: Y, q ∈ L.positions := fun q hq =>
    hS.free_subset (hfree ▸ hq)
  have hin : ∀ q ∈ L.positions, q ∈ M.positions := fun q hq =>
    hperm.mem_iff.2 (List.mem_cons_of_mem _ hq)
  obtain ⟨hx, hy⟩ := SlotView.nodes_around fun q hq => hin q (hold q hq)
  have hxr : X.getLastD 0 ≠ r := SlotView.getLastD_ne hr0 fun h => hrL (hold _ (by simp [h]))
  have hyr : Y.headD 0 ≠ r := SlotView.headD_ne hr0 fun h => hrL (hold _ (by simp [h]))
  let u := v.setWord r (F.rest r).encode
  have hBL : ∀ s ∈ B, s ∈ L.slots := fun s hs => by simp [hL, hs]
  have hBps : ∀ s ∈ B, s.position ∈ L.positions := fun s hs => List.mem_map_of_mem (hBL s hs)
  have hu : u.Headed B := by
    have hB : v.Headed B := fun s hs => hV.headed s (hBL s hs)
    refine hB.setWord (fun s hs h => hrL ?_) _
    rw [← h]
    exact hBps s hs
  have hw := SlotView.word_links_inner_first (v := u) hps hr hx hy hxr hyr
  unfold split
  refine yields_bind (yields_setHeader (hS'.inRange_position hr) _) ?_
  refine yields_bind (yields_setPreviousFree (hS'.inRange_of_mem hr (by omega)) _) ?_
  refine yields_bind (yields_setNextFree (hS'.inRange_of_mem hr (by omega)) _) ?_
  refine yields_setNext (fun h => hS'.inRange_of_mem (hx.resolve_left h) (by omega)) rfl ?_
  refine yields_setPrevious (fun h => hS'.inRange_of_mem (hy.resolve_left h) (by omega))
    (by simp) ?_
  refine yields_ask ?_
  simp only [SlotView.block_setNext, SlotView.block_setPrevious]
  obtain ⟨hstop, hnext⟩ := hS.stop_eq hL
  refine yields_rebase (L := L) (B := B) (by simpa using hS) hBL ?_ hstop (fun h => hnext (hstop.1 h)) ?_
  · intro s hs
    refine (hw _).trans ?_
    exact ((hu.join hps (fun s hs => hin _ (hBps s hs)) hx (.inr hr)).join hps
      (fun s hs => hin _ (hBps s hs)) (.inr hr) hy) s hs
  · refine yields_bind (yields_updateBlock fun b => by split <;> rfl) ((yields_pure _ _).to ?_)
    have hhead := SlotView.freeHead_eq_iff (hfree ▸ hV.linked)
      (fun q hq => hps.pos q (hin q (hold q hq))) (hfree ▸ hS.nodup_free)
    refine SlotView.ext_word (by simp [SlotView.block_join, hr0, hhead]) fun q => ?_
    rw [SlotView.word_setBlock]
    exact SlotView.word_rebase_congr hw _ q

theorem headed_cut {x y : Nat} (hL : L.slots = A ++ F :: B) (hV : v.Headed L.slots)
    {Z : List Nat} (hS' : Layout.Sound v.block
      ⟨A ++ F.front r :: F.rest r :: Slot.rebase (F.stop - r) B, Z⟩)
    (hx : Node (Layout.positions
      ⟨A ++ F.front r :: F.rest r :: Slot.rebase (F.stop - r) B, Z⟩) x)
    (hy : Node (Layout.positions
      ⟨A ++ F.front r :: F.rest r :: Slot.rebase (F.stop - r) B, Z⟩) y) :
    (((((v.setWord r (F.rest r).encode).join x r).join r y).rebase (F.stop - r) B).setWord
      F.position (F.front r).encode).Headed
        (A ++ F.front r :: F.rest r :: Slot.rebase (F.stop - r) B) := by
  have hps := hS'.spaced
  have hperm := positions_cut (r := r) (Z := Z) hL
  have hnd := hS'.nodup_positions
  have hrL : r ∉ L.positions := (List.nodup_cons.1 (hperm.nodup_iff.1 hnd)).1
  have hr := hperm.mem_iff.2 (List.mem_cons_self ..)
  have hslots : ∀ s ∈ A ++ [F, F.rest r] ++ B, s = F.rest r ∨ s ∈ L.slots := fun s hs => by
    simp only [hL, List.mem_append, List.mem_cons] at hs ⊢
    tauto
  have hset : (v.setWord r (F.rest r).encode).Headed (A ++ [F, F.rest r] ++ B) := by
    intro s hs
    rcases hslots s hs with rfl | hs
    · rw [SlotView.word_setWord, if_pos (show (F.rest r).position = r from rfl)]
    · have hne : s.position ≠ r := fun h => hrL (h ▸ List.mem_map_of_mem hs)
      rw [SlotView.word_setWord, if_neg hne, hV s hs]
  have hat : ∀ s ∈ A ++ [F, F.rest r] ++ B, s.position ∈ Layout.positions
      ⟨A ++ F.front r :: F.rest r :: Slot.rebase (F.stop - r) B, Z⟩ := by
    intro s hs
    rcases hslots s hs with rfl | hs
    · exact hr
    · exact hperm.mem_iff.2 (List.mem_cons_of_mem _ (List.mem_map_of_mem hs))
  simp only [Layout.positions, List.map_append, List.map_cons] at hnd
  have hndB : ((A ++ [F, F.rest r] ++ B).map (·.position)).Nodup := by
    simpa [Slot.front, map_position_rebase] using hnd
  have hreb := ((hset.join hps hat hx (.inr hr)).join hps hat (.inr hr) hy).rebase hndB
    (F.stop - r)
  rw [List.append_assoc] at hreb
  refine SlotView.Headed.update hreb ?_ rfl
  simpa only [List.map_append, List.map_cons, Slot.front] using hnd

theorem cut_shows (hS : L.Sound v.block) (hV : v.Shows L) (hL : L.slots = A ++ F :: B)
    (hfree : L.free = X ++ F.position :: Y) (hS' : Layout.Sound v.block
      ⟨A ++ F.front r :: F.rest r :: Slot.rebase (F.stop - r) B, X ++ r :: Y⟩)
    {w : SlotView} (hw : w = (((((v.setWord r (F.rest r).encode).join (X.getLastD 0) r).join r
      (Y.headD 0)).rebase (F.stop - r) B).setWord F.position (F.front r).encode)) :
    w.Shows ⟨A ++ F.front r :: F.rest r :: Slot.rebase (F.stop - r) B, X ++ r :: Y⟩ ∧
      SlotView.Rewrites L ⟨A ++ F.front r :: F.rest r :: Slot.rebase (F.stop - r) B, X ++ r :: Y⟩
        v w := by
  subst hw
  let M : Layout := ⟨A ++ F.front r :: F.rest r :: Slot.rebase (F.stop - r) B, X ++ r :: Y⟩
  have hps : Spaced M.positions := hS'.spaced
  have hperm := positions_cut (r := r) (Z := X ++ r :: Y) hL
  have hr := hperm.mem_iff.2 (List.mem_cons_self ..)
  have hin : ∀ q ∈ L.positions, q ∈ M.positions := fun q hq =>
    hperm.mem_iff.2 (List.mem_cons_of_mem _ hq)
  have hFp : F.position ∈ L.positions := List.mem_map_of_mem (by simp [hL])
  have hnew : ∀ q ∈ X ++ r :: Y, q ∈ M.positions := fun q hq => hS'.free_subset hq
  obtain ⟨hx, hy⟩ := SlotView.nodes_around hnew
  have hB : ∀ s ∈ B, s.position ∈ M.positions := fun s hs =>
    hin _ (List.mem_map_of_mem (by simp [hL, hs]))
  refine ⟨⟨headed_cut hL hV.headed hS' hx hy, ?_, ?_⟩, ?_⟩
  · have hold : ∀ q ∈ X ++ F.position :: Y, q ∈ L.positions := fun q hq =>
      hS.free_subset (hfree ▸ hq)
    have hl := hV.linked
    rw [hfree] at hl
    have hl := hl.setWord hps (fun q hq => hin q (hold q hq)) hr (F.rest r).encode
    obtain ⟨-, -, -, hpath, hend⟩ := SlotView.linked_split hl
    exact ((SlotView.linked_insert hps hnew hS'.nodup_free hpath hend).rebase hps hnew
      hB _).setWord hps hnew (hin _ hFp) _
  · have hcount := hV.counted
    simp only [hfree, List.length_append, List.length_cons] at hcount
    simp only [SlotView.block_setWord, SlotView.block_rebase, SlotView.block_join]
    split_ifs <;> simpa using hcount
  · have hlt : ∀ z ∈ X ++ r :: Y, z < 0x100000000 := fun z hz => hps.lt z (hnew z hz)
    have hrn : Node (X ++ r :: Y) r := .inr (by simp)
    obtain ⟨hx, hy⟩ : Node (X ++ r :: Y) (X.getLastD 0) ∧ Node (X ++ r :: Y) (Y.headD 0) :=
      SlotView.nodes_around fun _ hz => hz
    have hw := ((((SlotView.Written.refl (M.positions) (X ++ r :: Y) v).setWord hr
      (F.rest r).encode).join hlt hx hrn).join hlt hrn hy).rebase hB (F.stop - r)
    exact SlotView.rewrites_of_subset (hw.setWord (hin _ hFp) _) hin

end Cut

variable {v : SlotView}

theorem whole_shows (hS : L.Sound v.block) (hV : v.Shows L) (hL : L.slots = A ++ F :: B)
    (hfree : L.free = X ++ F.position :: Y) {t : Slot} (ht : t.position = F.position)
    {f : SlotBlock → SlotBlock} (hf : ∀ b, f b = { b with freeCount := wrapSub b.freeCount 1 })
    {w : SlotView} (hw : w = ((v.join (X.getLastD 0) (Y.headD 0)).setBlock f).setWord F.position
      t.encode) :
    w.Shows ⟨A ++ t :: B, X ++ Y⟩ ∧ SlotView.Rewrites L ⟨A ++ t :: B, X ++ Y⟩ v w := by
  subst hw
  have hps := hS.spaced
  have hpos : Layout.positions ⟨A ++ t :: B, X ++ Y⟩ = L.positions := by
    simp [Layout.positions, hL, ht]
  have hold : ∀ q ∈ X ++ F.position :: Y, q ∈ L.positions := fun q hq =>
    hS.free_subset (hfree ▸ hq)
  have hnew : ∀ q ∈ X ++ Y, q ∈ L.positions := fun q hq =>
    hold q (by simp only [List.mem_append, List.mem_cons] at hq ⊢; tauto)
  have hFp : F.position ∈ L.positions := List.mem_map_of_mem (by simp [hL])
  have hx : Node (X ++ Y) (X.getLastD 0) := SlotView.node_getLastD fun z hz => by simp [hz]
  have hy : Node (X ++ Y) (Y.headD 0) := SlotView.node_headD fun z hz => by simp [hz]
  refine ⟨⟨?_, ?_, ?_⟩, ?_⟩
  · have hhead : (v.join (X.getLastD 0) (Y.headD 0)).Headed (A ++ F :: B) :=
      (hL ▸ hV.headed).join hps (fun s hs => List.mem_map_of_mem (hL ▸ hs))
        (hx.imp_right (hnew _)) (hy.imp_right (hnew _))
    exact hhead.update (hL ▸ hS.nodup_positions) ht
  · have hlinked := SlotView.linked_unlink hps hold (hfree ▸ hS.nodup_free) (hfree ▸ hV.linked)
    exact (hlinked.setBlock (by rw [hf])).setWord hps hnew hFp _
  · have hcount := hV.counted
    simp only [hfree, List.length_append, List.length_cons] at hcount
    simp only [SlotView.block_setWord, SlotView.block_setBlock, hf, SlotView.block_join]
    split <;> simp [hcount, ← Nat.add_assoc]
  · have hlt : ∀ z ∈ X ++ Y, z < 0x100000000 := fun z hz => hps.lt z (hnew z hz)
    have hw := (((SlotView.Written.refl L.positions (X ++ Y) v).join hlt hx hy).setBlock f).setWord
      hFp t.encode
    exact SlotView.rewrites_of_subset (hpos.symm ▸ hw) fun _ hq => hpos.symm ▸ hq

theorem yields_unlink (hS : L.Sound v.block) (hV : v.Shows L)
    (hfree : L.free = X ++ F.position :: Y) :
    Yields (unlink F.position (X.getLastD 0) (Y.headD 0)) v ()
      ((v.join (X.getLastD 0) (Y.headD 0)).setBlock fun b =>
        { b with freeCount := wrapSub b.freeCount 1 }) := by
  have hold : ∀ q ∈ X ++ F.position :: Y, q ∈ L.positions := fun q hq =>
    hS.free_subset (hfree ▸ hq)
  obtain ⟨hx, hy⟩ := SlotView.nodes_around hold
  have hhead := SlotView.freeHead_eq_iff (hfree ▸ hV.linked)
    (fun q hq => hS.spaced.pos q (hold q hq)) (hfree ▸ hS.nodup_free)
  unfold unlink
  refine yields_setNext (fun h => hS.inRange_of_mem (hx.resolve_left h) (by omega)) rfl ?_
  refine yields_setPrevious (fun h => hS.inRange_of_mem (hy.resolve_left h) (by omega))
    (by simp) ?_
  refine Yields.to yields_updateBlock ?_
  refine SlotView.ext_word ?_ fun q => ?_
  · simp only [SlotView.block_setBlock, SlotView.block_setPrevious, SlotView.block_setNext,
      SlotView.block_join, hhead]
    split <;> rfl
  · simp only [SlotView.word_setBlock, SlotView.word_setPrevious, SlotView.word_setNext,
      SlotView.word_join]

/-- The end of every allocation, with the slot already off the free list. -/
theorem yields_mark {u : SlotView} {position : Nat} (kept : SlotHeader)
    (hb : u.block.buffer = v.block.buffer) (hr : u.block.InRange position) :
    Yields (setHeader position { kept with status := .allocated } >>= fun _ =>
      updateBlock (fun b => b.charged kept.span) >>= fun _ =>
      ask >>= fun b => pure (b.addressOf (position + 1))) u
      (v.block.addressOf (position + 1))
      ((u.setWord position ({ kept with status := .allocated } : SlotHeader).encode).setBlock
        fun b => b.charged kept.span) := by
  refine yields_bind (yields_setHeader hr _) (yields_bind yields_updateBlock ?_)
  refine yields_ask ?_
  rw [SlotBlock.addressOf, SlotBlock.addressOf, ← hb]
  exact yields_pure _ _

theorem take_turns (hS : L.Sound v.block) (hV : v.Shows L) (hL : L.slots = A ++ F :: B)
    (hF : F.status = .free) (hfree : L.free = X ++ F.position :: Y) (hsize : size ≤ F.payloadBytes)
    (hfirst : ∀ s ∈ L.slots, s.position ∈ X → s.payloadBytes < size) :
    ∃ K L', Served v.block.unit size L K L' ∧ ∃ w,
      Yields (take size F.position F.toSlotHeader (X.getLastD 0) (Y.headD 0)) v
        (v.block.addressOf (K.position + 1)) w ∧ SlotView.Turned
        (fun b => b.charged K.span) L L' v w := by
  obtain ⟨slots, free⟩ := L
  obtain rfl : slots = A ++ F :: B := hL
  obtain rfl : free = X ++ F.position :: Y := hfree
  have hFr : v.block.InRange F.position := hS.inRange_position (List.mem_map_of_mem (by simp))
  let r := remainderAfter v.block.unit F.position (neededWords size)
  by_cases hroom : r + 1 + minPayloadWords < F.position + F.span
  · have hserved := Served.cut (Y := Y) hF hsize rfl hroom hfirst
    obtain ⟨hshows, hrw⟩ := cut_shows hS hV rfl rfl (hserved.sound hS) rfl
    refine ⟨_, _, hserved, _, ?_, hshows.setBlock (f := (·.charged (F.front r).span)) rfl rfl,
      ⟨hrw.written, hrw.cleared⟩, ?_⟩
    · unfold take
      refine yields_ask ?_
      refine yields_ite (fun _ => ?_) (fun h => absurd hroom h)
      refine yields_bind (yields_split hS hV rfl rfl (hserved.sound hS)) (yields_mark _ ?_ ?_)
      · simp only [SlotView.block_rebase, SlotView.block_join, SlotView.block_setWord]
        split_ifs <;> rfl
      · simpa only [SlotView.block_rebase, SlotView.inRange_join, SlotView.block_setWord] using hFr
    · simp only [SlotView.block_setBlock, SlotView.block_setWord, SlotView.block_rebase,
        SlotView.block_join]
      split_ifs <;> exact ⟨_, _, rfl⟩
  · have hserved := Served.whole (Y := Y) hF hsize (Nat.not_lt.1 hroom) hfirst
    obtain ⟨hshows, hrw⟩ := whole_shows hS hV rfl rfl (t := { F with status := .allocated }) rfl
      (fun _ => rfl) rfl
    refine ⟨_, _, hserved, _, ?_, hshows.setBlock (f := (·.charged F.span)) rfl rfl,
      ⟨hrw.written, hrw.cleared⟩, ?_⟩
    · unfold take
      refine yields_ask ?_
      refine yields_ite (fun h => absurd h hroom) (fun _ => ?_)
      refine yields_bind (yields_unlink hS hV rfl) (yields_mark _ ?_ ?_)
      · simp only [SlotView.block_setBlock, SlotView.block_join]
        split_ifs <;> rfl
      · exact SlotView.inRange_join.2 hFr
    · simp only [SlotView.block_setBlock, SlotView.block_setWord, SlotView.block_join]
      split_ifs <;> exact ⟨_, _, rfl⟩

/-- Either a slot is handed out or no free slot has room, and then nothing changes. -/
def Answers (x : SlotStep (Option Nat)) (size : Nat) (v : SlotView) (L : Layout) : Prop :=
  Yields x v none v ∧ (∀ s ∈ L.slots, s.status = .free → s.payloadBytes < size) ∨
    ∃ K L', Served v.block.unit size L K L' ∧ ∃ w,
      Yields x v (some (v.block.addressOf (K.position + 1))) w ∧ SlotView.Turned
        (fun b => b.charged K.span) L L' v w

theorem allocateFrom_succ {n p : Nat} (hp : 0 < p) : allocateFrom size (n + 1) p = (do
    look .list p
    let slot ← header p
    if !slot.isFree then fail (.allocatedSlotInFreeList p)
    if slot.span = 0 then fail (.zeroSpan p)
    let previous ← previousFree p
    let next ← nextFree p
    if size ≤ slot.payloadBytes then some <$> take size p slot previous next
    else allocateFrom size n next) := by
  cases p with
  | zero => exact absurd hp (Nat.lt_irrefl 0)
  | succ p => rw [allocateFrom]

theorem allocateFrom_answers (hS : L.Sound v.block) (hV : v.Shows L) (hfree : L.free = X ++ Y)
    (hfirst : ∀ s ∈ L.slots, s.position ∈ X → s.payloadBytes < size) :
    Answers (allocateFrom size Y.length (Y.headD 0)) size v L := by
  -- `X` are the slots passed over so far: none of them has room.
  induction Y generalizing X with
  | nil =>
      refine .inl ⟨?_, fun s hs hf => hfirst s hs ?_⟩
      · simp only [List.headD_nil, allocateFrom]
        exact yields_pure none v
      · rw [← List.append_nil X, ← hfree]
        exact hS.mem_free.2 ⟨s, hs, hf, rfl⟩
  | cons p Y ih =>
      obtain ⟨F, hFL, hF, rfl⟩ := hS.mem_free.1 (show p ∈ L.free by simp [hfree])
      obtain ⟨A, B, hL⟩ := List.append_of_mem hFL
      have hp : F.position ∈ L.positions := List.mem_map_of_mem hFL
      have hp0 := hS.spaced.pos _ hp
      have hspan : F.span ≠ 0 := Nat.ne_of_gt (hS.span_pos F hFL)
      obtain ⟨-, hprev, hnext, -, -⟩ := SlotView.linked_split (hfree ▸ hV.linked)
      have hstart : ∀ {o w}, Yields (if size ≤ F.payloadBytes then
            some <$> take size F.position F.toSlotHeader (X.getLastD 0) (Y.headD 0)
          else allocateFrom size Y.length (Y.headD 0)) v o w →
          Yields (allocateFrom size (F.position :: Y).length ((F.position :: Y).headD 0)) v o w := by
        intro o w h
        rw [List.length_cons, List.headD_cons, allocateFrom_succ hp0]
        refine yields_bind (yields_look ..) ?_
        refine yields_bind (yields_header hS hFL (hV.headed F hFL)) ?_
        simp only [SlotHeader.isFree_iff.2 hF, Bool.not_true, Bool.false_eq_true, if_false, hspan]
        refine yields_bind (yields_previousFree (hS.inRange_of_mem hp (by omega))) ?_
        refine yields_bind (yields_nextFree hp0 (hS.inRange_of_mem hp (by omega))) ?_
        rw [hprev, hnext]
        exact h
      by_cases hsize : size ≤ F.payloadBytes
      · obtain ⟨K, L', hserved, w, hrun, hturned⟩ := take_turns hS hV hL hF hfree hsize hfirst
        refine .inr ⟨K, L', hserved, w, hstart ?_, hturned⟩
        rw [if_pos hsize]
        exact yields_map some hrun
      · simp only [if_neg hsize] at hstart
        have hX : ∀ s ∈ L.slots, s.position ∈ X ++ [F.position] → s.payloadBytes < size := by
          intro s hs hmem
          rcases List.mem_append.1 hmem with hmem | hmem
          · exact hfirst s hs hmem
          · rw [hS.position_inj hs hFL (List.mem_singleton.1 hmem)]
            exact Nat.lt_of_not_le hsize
        rcases ih (by simpa using hfree) hX with ⟨hrun, hnone⟩ | ⟨K, L', hserved, w, hrun, hturned⟩
        · exact .inl ⟨hstart hrun, hnone⟩
        · exact .inr ⟨K, L', hserved, w, hstart hrun, hturned⟩

/-- First fit: a request within the bound is refused only where no free slot has room for it. -/
theorem allocate_answers (hS : L.Sound v.block) (hV : v.Shows L)
    (hsize : size ≤ v.block.maximumAllocationSize) : Answers (allocate size) size v L := by
  have hfrom : Answers (allocateFrom size L.free.length (L.free.headD 0)) size v L :=
    allocateFrom_answers (X := []) hS hV rfl fun s _ hs => absurd hs List.not_mem_nil
  rw [← hV.counted, ← hV.linked.head_eq] at hfrom
  have hstart : ∀ {o w}, Yields (allocateFrom size v.block.freeCount v.block.freeHead) v o w →
      Yields (allocate size) v o w := by
    intro o w h
    unfold allocate
    refine yields_ask ?_
    exact yields_ite (fun hlt => absurd hsize (Nat.not_le.2 hlt)) (fun _ => h)
  rcases hfrom with ⟨hrun, hnone⟩ | ⟨K, L', hserved, w, hrun, hturned⟩
  · exact .inl ⟨hstart hrun, hnone⟩
  · exact .inr ⟨K, L', hserved, w, hstart hrun, hturned⟩

theorem yields_allocate_large (hsize : v.block.maximumAllocationSize < size) :
    Yields (allocate size) v none v := by
  unfold allocate
  refine yields_ask ?_
  exact yields_ite (fun _ => yields_pure none v) (fun h => absurd hsize h)

end SlotStep

end AffinityHeap
