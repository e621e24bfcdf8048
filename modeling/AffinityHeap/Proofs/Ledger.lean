import AffinityHeap.Proofs.Mirror

namespace AffinityHeap

namespace AddressSpace.Sound

variable {s s' : AddressSpace} {r : Region}

theorem extended (hs : s.Sound) (h : s.Extended s' r) (hr : 0 < r.size) :
    s'.Sound ∧ s'.held = r :: s.held ∧ s'.handed = r :: s.handed ∧ s'.returned = s.returned ∧
      ∀ q ∈ s.held, r.Disjoint q := by
  obtain ⟨⟨alignment, hpower, hanswer⟩, m, o, -, rfl⟩ := h
  obtain ⟨-, hapart⟩ := hs.fair s .refl _ _ _ hpower hanswer
  have hlater : s.Later { AddressSpace.hold { s with asked := s.asked + 1 } r with
      memory := m, overflowed := o } := by
    have hrun : (request r.size alignment s).2 =
        AddressSpace.hold { s with asked := s.asked + 1 } r := by
      simp only [request, hanswer]
    rw [← hrun]
    exact .mark o (.store m (.request _ _ .refl))
  refine ⟨⟨hs.fair.later hlater, .cons hapart hs.apart, fun q hq => ?_⟩, rfl, rfl, rfl, hapart⟩
  rcases List.mem_cons.1 hq with rfl | hq
  · exact hr
  · exact hs.sized q hq

/-- A region that is held is given back and nothing else. -/
theorem exists_giveBack (hs : s.Sound) (hr : r ∈ s.held) :
    ∃ rest, s.held.Perm (r :: rest) ∧ (AddressSpace.giveBack r.base s).2.held = rest := by
  obtain ⟨q, A, B, -, hq, hheld, herase⟩ :=
    List.exists_of_eraseP (p := fun q => q.base == r.base) hr BEq.rfl
  have hmem : q ∈ s.held := hheld ▸ List.mem_append_right A (List.mem_cons_self ..)
  obtain rfl : q = r :=
    hs.eq_of_holds hmem hr (hs.holds_base hmem) (beq_iff_eq.1 hq ▸ hs.holds_base hr)
  exact ⟨A ++ B, hheld ▸ List.perm_middle, herase⟩

end AddressSpace.Sound

namespace Holder

/-- A buffer of no bytes still holds one record of the system's. -/
def padding : Holder → Nat
  | block b => if b.memorySize = 0 then b.buffer.record else 0
  | large a => if a.requested = 0 then 1 else 0

def memorySize : Holder → Nat
  | block b => b.memorySize
  | large a => a.memorySize

def Filled : Holder → Prop
  | block b => 0 < b.buffer.record
  | large a => a.buffer.record = 1 ∧ a.requested = a.buffer.len

/-- A block holds bytes, as one does whose size was rounded up within a word. -/
def Solid : Holder → Prop
  | block b => 0 < b.memorySize
  | large _ => True

variable {h : Holder}

theorem Filled.size (hf : h.Filled) : h.region.size = h.memorySize + h.padding := by
  cases h with
  | block b =>
      have hf : 0 < b.buffer.record := hf
      show b.buffer.record * max b.buffer.len 1 =
        b.buffer.len * b.buffer.record + if b.buffer.len * b.buffer.record = 0 then _ else 0
      by_cases hlen : b.buffer.len = 0
      · rw [hlen, Nat.zero_mul, if_pos rfl, Nat.zero_add]
        exact Nat.mul_one _
      · have hpos : b.buffer.len * b.buffer.record ≠ 0 := Nat.mul_ne_zero hlen (by omega)
        rw [if_neg hpos, Nat.max_eq_left (Nat.pos_of_ne_zero hlen), Nat.mul_comm, Nat.add_zero]
  | large a =>
      obtain ⟨hrecord, hlen⟩ := hf
      simp only [region, Buffer.region, memorySize, LargeAllocation.memorySize, Buffer.byteLen,
        padding, hrecord, hlen]
      split <;> omega

theorem Filled.pos (hf : h.Filled) : 0 < h.region.size := by
  cases h with
  | block b => exact Nat.mul_pos hf (by omega)
  | large a => exact Nat.mul_pos (hf.1 ▸ Nat.one_pos) (by omega)

theorem Solid.padding_block {b : Block} (hb : (block b).Solid) : (block b).padding = 0 :=
  if_neg (Nat.ne_of_gt hb)

theorem created {kind : BackendKind} {blockSize alignment : Nat} {b b' : Block}
    {s s' : AddressSpace} (h : Block.create kind blockSize alignment s = (.ok b, s'))
    (hbuffer : b'.buffer = b.buffer) (hpos : 0 < blockSize) :
    s.Extended s' (block b').region ∧ (block b').Filled ∧
      (s'.overflowed = true ∨ (block b').Solid) := by
  have hmade := Block.made_of_create h
  have hsize : (block b').memorySize = b.memorySize := congrArg Buffer.byteLen hbuffer
  rw [region, Block.region, Filled, hbuffer]
  refine ⟨hmade.extended, hmade.record_pos, ?_⟩
  rcases Nat.lt_or_ge (Block.bytesFor kind blockSize alignment) UInt64.size with hlt | hge
  · refine .inr ?_
    show 0 < (block b').memorySize
    rw [hsize, hmade.size_eq, wrap_of_lt hlt]
    exact Nat.lt_of_lt_of_le hpos (Block.le_bytesFor kind blockSize alignment)
  · refine .inl ?_
    rw [hmade.marked]
    exact AddressSpace.overflows_iff.2 (.inr hge)

end Holder

variable {H H' C : List Holder} {h h' : Holder} {s s' : AddressSpace}

/-- The regions held are those of the holders, and each that was handed out is held or was given
back. -/
structure Tally (H : List Holder) (s : AddressSpace) : Prop where
  sound : s.Sound
  held : s.held.Perm (H.map Holder.region)
  once : (s.handed.map Region.base).Perm (s.held.map Region.base ++ s.returned)
  filled : ∀ h ∈ H, h.Filled
  solid : s.overflowed = true ∨ ∀ h ∈ H, h.Solid

namespace Tally

theorem start {policy : Policy} (hfair : (AddressSpace.new policy).Fair) :
    Tally [] (AddressSpace.new policy) :=
  ⟨AddressSpace.new_sound hfair, .nil, .nil, fun _ hh => absurd hh List.not_mem_nil,
    .inr fun _ hh => absurd hh List.not_mem_nil⟩

theorem perm (ht : Tally H s) (hp : H.Perm H') : Tally H' s :=
  ⟨ht.sound, ht.held.trans (hp.map _), ht.once, fun h hh => ht.filled h (hp.mem_iff.2 hh),
    ht.solid.imp id fun hsolid h hh => hsolid h (hp.mem_iff.2 hh)⟩

theorem store (ht : Tally H s) (m : Memory) : Tally H { s with memory := m } :=
  ⟨ht.sound.store m, ht.held, ht.once, ht.filled, ht.solid⟩

theorem replace (ht : Tally (h :: H) s) (hr : h'.region = h.region) (hf : h.Filled → h'.Filled)
    (hsolid : h.Solid → h'.Solid) : Tally (h' :: H) s := by
  refine ⟨ht.sound, ?_, ht.once, ?_, ht.solid.imp id ?_⟩
  · rw [List.map_cons, hr]
    exact ht.held
  · have hfilled := ht.filled
    rw [List.forall_mem_cons] at hfilled ⊢
    exact ⟨hf hfilled.1, hfilled.2⟩
  · rw [List.forall_mem_cons, List.forall_mem_cons]
    exact fun hall => ⟨hsolid hall.1, hall.2⟩

theorem refused (ht : Tally H s) (href : s.Refused s') : Tally H s' := by
  obtain ⟨hsound, -⟩ := ht.sound.refused href
  obtain ⟨asked, overflowed, hmono, rfl⟩ := href.eq
  exact ⟨hsound, ht.held, ht.once, ht.filled, ht.solid.imp hmono id⟩

theorem extend (ht : Tally H s) (hx : s.Extended s' h.region) (hf : h.Filled)
    (hsolid : s'.overflowed = true ∨ h.Solid) : Tally (h :: H) s' := by
  obtain ⟨hsound, hheld, hhanded, hreturned, -⟩ := ht.sound.extended hx hf.pos
  refine ⟨hsound, ?_, ?_, ?_, ?_⟩
  · rw [hheld, List.map_cons]
    exact ht.held.cons _
  · rw [hheld, hhanded, hreturned]
    exact ht.once.cons _
  · exact List.forall_mem_cons.2 ⟨hf, ht.filled⟩
  · obtain ⟨-, m, o, hmono, rfl⟩ := hx
    rcases ht.solid with ho | hall
    · exact .inl (hmono ho)
    · exact hsolid.imp id fun hh => List.forall_mem_cons.2 ⟨hh, hall⟩

theorem base_ne (ht : Tally H s) (hx : s.Extended s' h.region) (hf : h.Filled) (hh' : h' ∈ H) :
    h'.region.base ≠ h.region.base := by
  obtain ⟨-, -, -, -, hapart⟩ := ht.sound.extended hx hf.pos
  have hmem : h'.region ∈ s.held := ht.held.mem_iff.2 (List.mem_map_of_mem hh')
  intro heq
  refine (hapart _ hmem).not_holds ?_ (ht.sound.holds_base hmem)
  rw [heq]
  exact ⟨Nat.le_refl _, Nat.lt_add_of_pos_right hf.pos⟩

theorem giveBack (ht : Tally (h :: H) s) :
    Tally H (AddressSpace.giveBack h.region.base s).2 := by
  have hmem : h.region ∈ s.held := ht.held.mem_iff.2 (List.mem_cons_self ..)
  obtain ⟨rest, hperm, hheld⟩ := ht.sound.exists_giveBack hmem
  refine ⟨ht.sound.giveBack _, ?_, ?_, fun k hk => ht.filled k (List.mem_cons_of_mem h hk),
    ht.solid.imp id fun hall k hk => hall k (List.mem_cons_of_mem h hk)⟩
  · rw [hheld]
    exact (hperm.symm.trans ht.held).cons_inv
  · rw [hheld]
    exact ht.once.trans (((hperm.map _).append_right _).trans List.perm_middle.symm)

theorem giveBackAll {α : Type} {f : α → List Holder} {give : α → StateM AddressSpace Unit}
    (hgive : ∀ a C s, Tally (f a ++ C) s → Tally C (give a s).2) {l : List α}
    (ht : Tally (l.flatMap f ++ C) s) : Tally C (l.forM give s).2 := by
  induction l generalizing s with
  | nil => exact ht
  | cons a l ih =>
      rw [List.flatMap_cons, List.append_assoc] at ht
      exact ih (hgive a _ s ht)

theorem giveBackBlocks {blocks : List Block} (ht : Tally (blocks.map .block ++ C) s) :
    Tally C (blocks.forM (·.giveBack) s).2 := by
  refine giveBackAll (f := fun b => [.block b]) (fun b C s h => Tally.giveBack h) ?_
  rwa [← List.map_eq_flatMap]

theorem live (ht : Tally H s) :
    s.live = sumOf (H.map Holder.memorySize) + sumOf (H.map Holder.padding) := by
  rw [AddressSpace.live, totalSize, sumOf_perm (ht.held.map _), List.map_map, ← sumOf_map_add]
  exact congrArg sumOf (List.map_congr_left fun h hh => (ht.filled h hh).size)

end Tally

namespace Pool

variable {p p' : Pool} {x y : Pool × AddressSpace}

theorem fresh (hk : p.blocks.Keyed Block.base) (ht : Tally (p.holders ++ C) s) {b : Block}
    (hx : s.Extended s' (Holder.block b).region) (hf : (Holder.block b).Filled) :
    p.blocks.find? b.base = none := by
  refine Option.eq_none_iff_forall_ne_some.2 fun c hc => ?_
  exact ht.base_ne hx hf (List.mem_append_left C (mem_holders hc)) (hk _ _ hc)

theorem tally_of_move (h : Move x y) (hpos : 0 < x.1.blockSize)
    (hk : x.1.blocks.Keyed Block.base) (ht : Tally (x.1.holders ++ C) x.2) :
    y.1.blocks.Keyed Block.base ∧ Tally (y.1.holders ++ C) y.2 := by
  cases h with
  | @revise p s base b b' m hfind hbuffer =>
      have hbase : b'.base = b.base := congrArg Buffer.base hbuffer
      have ht' := ht.perm ((holders_perm hfind).append_right C)
      have hregion : (Holder.block b').region = (Holder.block b).region :=
        congrArg Buffer.region hbuffer
      have hfilled : (Holder.block b).Filled → (Holder.block b').Filled := by
        rw [Holder.Filled, Holder.Filled, hbuffer]
        exact id
      have hsolid : (Holder.block b).Solid → (Holder.block b').Solid := by
        rw [Holder.Solid, Holder.Solid, Block.memorySize, Block.memorySize, hbuffer]
        exact id
      refine ⟨hk.insert (hbase.trans (hk _ _ hfind)), ?_⟩
      refine ((ht'.replace hregion hfilled hsolid).store m).perm ?_
      exact ((holders_insert_perm p base b' p.cached).append_right C).symm
  | aim hfind => exact ⟨hk, ht⟩
  | refuse hrefused => exact ⟨hk, ht.refused hrefused⟩
  | @grow p s s' b b' size m hcreate hbuffer =>
      obtain ⟨hx, hfilled, hsolid⟩ :=
        Holder.created hcreate hbuffer (Nat.lt_of_lt_of_le hpos (Nat.le_max_right ..))
      refine ⟨hk.insert rfl, ((ht.extend hx hfilled hsolid).store m).perm ?_⟩
      refine .trans ?_ ((holders_insert_perm p b'.base b' (some b'.base)).append_right C).symm
      -- No block of the pool is written over by the new one.
      rw [SortedMap.erase_of_find?_none (fresh hk ht hx hfilled)]
      exact .refl _
  | @waste p s s' b b' size m hcreate hbuffer =>
      obtain ⟨hx, hfilled, hsolid⟩ :=
        Holder.created hcreate hbuffer (Nat.lt_of_lt_of_le hpos (Nat.le_max_right ..))
      exact ⟨hk, ((ht.extend hx hfilled hsolid).store m).giveBack⟩
  | sweep p s =>
      have ht' := ht.perm (p.holders_swept.append_right C)
      rw [List.append_assoc] at ht'
      exact ⟨hk.filter _, ht'.giveBackBlocks⟩

theorem tally_of_moves (h : Moves x y) (hpos : 0 < x.1.blockSize)
    (hk : x.1.blocks.Keyed Block.base) (ht : Tally (x.1.holders ++ C) x.2) :
    y.1.blocks.Keyed Block.base ∧ Tally (y.1.holders ++ C) y.2 := by
  induction h with
  | refl => exact ⟨hk, ht⟩
  | tail hmoves hmove ih =>
      have hsame : _ = x.1.blockSize := (congrArg Pool.blockSize (emptied_eq_of_moves hmoves) :)
      exact tally_of_move hmove (hsame ▸ hpos) ih.1 ih.2

end Pool

namespace Level

variable {l l' : Level} {p : Pool} {a : Affinity} {x y : Level × AddressSpace}

/-- The register of large allocations adds up, and everything is found under its own key. -/
structure Booked (l : Level) : Prop where
  indexed : l.Indexed
  keyed : ∀ k p, l.pools.find? k = some p → p.blocks.Keyed Block.base
  based : l.large.entries.Keyed (·.buffer.base)
  total : l.large.totalBytes = sumOf (l.large.entries.values.map (·.memorySize))

namespace Booked

theorem ofConfig (c : Config) : (ofConfig c).Booked := by
  refine ⟨indexed_ofConfig c, fun k p hp => ?_, fun k a ha => (nomatch ha), rfl⟩
  obtain ⟨q, -, -, rfl⟩ := find?_ofConfig hp
  exact fun k b hb => (nomatch hb)

theorem poolOf_keyed (hl : l.Booked) (a : Affinity) : (l.poolOf a).blocks.Keyed Block.base := by
  cases hfind : l.pools.find? a.index with
  | some p =>
      rw [poolOf_of_find? hfind]
      exact hl.keyed _ p hfind
  | none =>
      rw [poolOf, hfind]
      intro k b hb
      cases hb

theorem withPool (hl : l.Booked) (hp : p.blocks.Keyed Block.base) : (l.withPool p).Booked := by
  refine ⟨hl.indexed.withPool p, fun k q hq => ?_, hl.based, hl.total⟩
  rw [find?_withPool] at hq
  split at hq
  · rw [← Option.some.inj hq]
    exact hp
  · exact hl.keyed k q hq

end Booked

theorem tally_withPool (ha : p.affinity = a) :
    Tally ((l.withPool p).holders ++ C) s ↔ Tally (p.holders ++ (l.rest a ++ C)) s := by
  have hperm := (l.holders_withPool p).append_right C
  rw [ha, List.append_assoc] at hperm
  exact ⟨fun ht => ht.perm hperm, fun ht => ht.perm hperm.symm⟩

theorem tally_poolOf (l : Level) (a : Affinity) :
    Tally (l.holders ++ C) s ↔ Tally ((l.poolOf a).holders ++ (l.rest a ++ C)) s := by
  have hperm := (l.holders_poolOf a).append_right C
  rw [List.append_assoc] at hperm
  exact ⟨fun ht => ht.perm hperm, fun ht => ht.perm hperm.symm⟩

theorem tally_of_changed {answer : Except HeapError Unit} (h : l.Changed a answer l')
    (hl : l.Booked) (ht : Tally (l.holders ++ C) s) : l'.Booked ∧ Tally (l'.holders ++ C) s := by
  cases h with
  | refused e => exact ⟨hl, ht⟩
  | made e =>
      refine ⟨hl.withPool (hl.poolOf_keyed a), ?_⟩
      exact (tally_withPool (hl.indexed.poolOf_affinity a)).2 ((l.tally_poolOf a).1 ht)
  | recorded p q haffinity hblocks hsettings hvalid hsame =>
      have hkeyed : p.blocks.Keyed Block.base := by
        rw [hblocks]
        exact hl.poolOf_keyed a
      have hholders : p.holders = (l.poolOf a).holders := by
        rw [Pool.holders, Pool.holders, hblocks]
      obtain ⟨hindexed, hkeyed, hbased, htotal⟩ := hl.withPool hkeyed
      refine ⟨⟨hindexed, hkeyed, hbased, htotal⟩, (tally_withPool (l := l) haffinity).2 ?_⟩
      rw [hholders]
      exact (l.tally_poolOf a).1 ht

theorem tally_of_enlarge {size alignment address : Nat} {large : LargeAllocations}
    (hrun : l.large.allocate size alignment s = (.ok (address, large), s')) (hl : l.Booked)
    (ht : Tally (l.holders ++ C) s) :
    Booked { l with large } ∧ Tally (holders { l with large } ++ C) s' := by
  obtain ⟨b, rfl, hrecord, hrequested, hx, rfl⟩ := LargeAllocations.allocate_extended hrun
  have hfilled : (Holder.large b).Filled := ⟨hrecord, hrequested⟩
  have hfresh : l.large.entries.find? b.buffer.base = none := by
    refine Option.eq_none_iff_forall_ne_some.2 fun c hc => ?_
    exact ht.base_ne (h := .large b) hx hfilled (List.mem_append_left C (mem_largeHolders hc))
      (hl.based _ _ hc)
  refine ⟨⟨hl.indexed, hl.keyed, hl.based.insert rfl, ?_⟩,
    (ht.extend (h := .large b) hx hfilled (.inr trivial)).perm
      ((holders_insertLarge _ hfresh).append_right C).symm⟩
  have hvalues := l.large.entries.values_insert_perm b.buffer.base b
  rw [SortedMap.erase_of_find?_none hfresh] at hvalues
  show l.large.totalBytes + b.memorySize = _
  rw [sumOf_perm (hvalues.map (·.memorySize)), List.map_cons, sumOf_cons, hl.total, Nat.add_comm]

theorem tally_of_release (address : Nat) (hl : l.Booked) (ht : Tally (l.holders ++ C) s) :
    Booked { l with large := (l.large.release address s).1.2 } ∧
      Tally (holders { l with large := (l.large.release address s).1.2 } ++ C)
        (l.large.release address s).2 := by
  cases hfind : l.large.entries.find? address with
  | none =>
      rw [LargeAllocations.release, hfind]
      exact ⟨hl, ht⟩
  | some b =>
      have hvalues := SortedMap.values_perm hfind
      rw [LargeAllocations.release_eq hfind]
      refine ⟨⟨hl.indexed, hl.keyed, hl.based.erase address, ?_⟩, Tally.giveBack (h := .large b)
        (ht.perm ((holders_eraseLarge (l.large.totalBytes - b.memorySize) hfind).append_right C))⟩
      show l.large.totalBytes - b.memorySize = _
      rw [hl.total, sumOf_perm (hvalues.map (·.memorySize)), List.map_cons, sumOf_cons,
        Nat.add_sub_cancel_left]

theorem Mirrors.blockSize_pos (hl : l.Mirrors) (a : Affinity) : 0 < (l.poolOf a).blockSize := by
  have hsame : (l.poolOf a).blockSize = (l.config.pool a).blockSize :=
    (congrArg Pool.blockSize (hl.pools a) :)
  rw [hsame]
  exact Nat.pos_of_ne_zero (PoolConfig.validate_iff.1 (Config.pool_validate hl.valid a)).2

theorem tally_of_move (h : Move x y) (hl : x.1.Booked) (hm : x.1.Mirrors)
    (ht : Tally (x.1.holders ++ C) x.2) : y.1.Booked ∧ Tally (y.1.holders ++ C) y.2 := by
  cases h with
  | @pool l s s' p affinity hmoves =>
      obtain ⟨hkeyed, ht'⟩ := Pool.tally_of_moves hmoves (hm.blockSize_pos affinity)
        (hl.poolOf_keyed affinity) ((l.tally_poolOf affinity).1 ht)
      have haffinity : p.affinity = (l.poolOf affinity).affinity :=
        (congrArg Pool.affinity (Pool.emptied_eq_of_moves hmoves) :)
      refine ⟨hl.withPool hkeyed, ?_⟩
      exact (tally_withPool (haffinity.trans (hl.indexed.poolOf_affinity affinity))).2 ht'
  | refuse hrefused => exact ⟨hl, ht.refused hrefused⟩
  | enlarge hrun => exact tally_of_enlarge hrun hl ht
  | release l s address => exact tally_of_release address hl ht
  | change affinity hchanged => exact tally_of_changed hchanged hl ht

theorem tally_giveBack (ht : Tally (l.holders ++ C) s) : Tally C (l.giveBack s).2 := by
  rw [holders, List.append_assoc] at ht
  have hpools : Tally (l.largeHolders ++ C) (l.pools.values.forM (·.giveBack) s).2 := by
    refine Tally.giveBackAll (f := Pool.holders) (fun p C s h => ?_) ht
    exact Tally.giveBackBlocks h
  refine Tally.giveBackAll (f := fun a => [.large a]) (fun a C s h => Tally.giveBack h) ?_
  rwa [← List.map_eq_flatMap]

end Level

namespace Allocator

variable {x y : List Level × AddressSpace}

theorem tally_of_move (h : Move x y) (hl : ∀ l ∈ x.1, l.Booked) (hm : ∀ l ∈ x.1, l.Mirrors)
    (ht : Tally (x.1.flatMap Level.holders) x.2) :
    (∀ l ∈ y.1, l.Booked) ∧ Tally (y.1.flatMap Level.holders) y.2 := by
  cases h with
  | @level l l' s s' front back hmove =>
      have hmem : l ∈ front ++ l :: back := List.mem_append_right front (List.mem_cons_self ..)
      obtain ⟨hbooked, ht'⟩ := Level.tally_of_move hmove (hl l hmem) (hm l hmem)
        (ht.perm (Chain.holders_perm front back l))
      exact ⟨forall_replace hl hbooked, ht'.perm (Chain.holders_perm front back l').symm⟩
  | write m => exact ⟨hl, ht.store m⟩
  | @wrap levels s c hvalid =>
      refine ⟨fun k hk => ?_, ?_⟩
      · rcases List.mem_cons.1 hk with rfl | hk
        · exact .ofConfig c
        · exact hl k hk
      · rw [List.flatMap_cons, Level.holders_ofConfig]
        exact ht
  | close levels s =>
      refine ⟨fun k hk => absurd hk List.not_mem_nil, ?_⟩
      refine Tally.giveBackAll (f := Level.holders) (fun l C s h => Level.tally_giveBack h) ?_
      rwa [List.flatMap_nil, List.append_nil]

theorem mirrors_of_moves (h : Moves x y) (hm : ∀ l ∈ x.1, l.Mirrors) : ∀ l ∈ y.1, l.Mirrors :=
  forall_of_moves (fun _ _ h hl => hl.move h) (fun _ => .ofConfig) hm h

theorem tally_of_moves (h : Moves x y) (hl : ∀ l ∈ x.1, l.Booked) (hm : ∀ l ∈ x.1, l.Mirrors)
    (ht : Tally (x.1.flatMap Level.holders) x.2) :
    (∀ l ∈ y.1, l.Booked) ∧ Tally (y.1.flatMap Level.holders) y.2 := by
  induction h with
  | refl => exact ⟨hl, ht⟩
  | tail hmoves hmove ih => exact tally_of_move hmove ih.1 (mirrors_of_moves hmoves hm) ih.2

end Allocator

namespace Level

variable {l : Level}

/-- Live large allocations of no bytes, each of which has a byte of its own. -/
def emptyLarge (l : Level) : Nat := l.large.entries.values.countP (·.requested = 0)

/-- What the system has handed out for blocks of no bytes, a record for each. -/
def hollowBytes (l : Level) : Nat :=
  sumOf ((l.pools.values.flatMap (·.blocks.values)).map fun b =>
    if b.memorySize = 0 then b.buffer.record else 0)

theorem Booked.memorySize (hl : l.Booked) (m : Memory) :
    (l.stats m).memorySize = sumOf (l.holders.map Holder.memorySize) := by
  have hpool : ∀ p : Pool, (p.stats m).memorySize = sumOf (p.holders.map Holder.memorySize) :=
    fun p => by
      simp only [PoolStats.memorySize, Pool.stats, Pool.holders, List.map_map, Function.comp_def,
        Block.stats_memorySize, Holder.memorySize]
  have hlarge : sumOf (l.largeHolders.map Holder.memorySize) = l.large.totalBytes := by
    rw [hl.total, largeHolders, List.map_map]
    rfl
  rw [holders, List.map_append, sumOf_append, hlarge, List.map_flatMap, sumOf_flatMap]
  simp only [LevelStats.memorySize, stats, List.map_map, Function.comp_def, hpool]

theorem padding_eq (l : Level) :
    sumOf (l.holders.map Holder.padding) = l.emptyLarge + l.hollowBytes := by
  have hpools : sumOf ((l.pools.values.flatMap Pool.holders).map Holder.padding) =
      l.hollowBytes := by
    simp only [hollowBytes, Pool.holders, List.map_flatMap, List.map_map]
    rfl
  have hlarge : sumOf (l.largeHolders.map Holder.padding) = l.emptyLarge := by
    rw [largeHolders, List.map_map]
    exact sumOf_map_ite (fun a : LargeAllocation => a.requested = 0) _
  rw [holders, List.map_append, sumOf_append, hpools, hlarge, Nat.add_comm]

theorem hollowBytes_eq_zero (hsolid : ∀ h ∈ l.holders, h.Solid) : l.hollowBytes = 0 := by
  refine sumOf_eq_zero fun n hn => ?_
  obtain ⟨b, hb, rfl⟩ := List.mem_map.1 hn
  obtain ⟨p, hp, hb⟩ := List.mem_flatMap.1 hb
  have hmem : .block b ∈ l.holders :=
    List.mem_append_left _ (List.mem_flatMap.2 ⟨p, hp, List.mem_map_of_mem hb⟩)
  exact (hsolid _ hmem).padding_block

end Level

namespace Instance

variable {i : Instance} {s : AddressSpace}

/-- What the statistics of the allocator that runs account for, if there is one. -/
def memorySize (m : Memory) : Instance → Nat
  | some a => (a.stats m).memorySize
  | none => 0

/-- Nothing is leaked and nothing is given back twice; what is held is accounted for, but for the
records of blocks whose size came to nothing in a word. -/
structure Balanced (i : Instance) (s : AddressSpace) : Prop where
  holders : s.held.Perm ((i.levels.flatMap Level.holders).map Holder.region)
  live : s.live = i.memorySize s.memory + sumOf (i.levels.map Level.emptyLarge) +
    sumOf (i.levels.map Level.hollowBytes)
  fits : s.overflowed = false →
    s.live = i.memorySize s.memory + sumOf (i.levels.map Level.emptyLarge)
  totals : ∀ l ∈ i.levels, l.large.totalBytes = sumOf (l.large.entries.values.map (·.memorySize))
  once : (s.handed.map Region.base).Perm (s.held.map Region.base ++ s.returned)
  closed : (i.shutdown s).2.held = [] ∧
    ((i.shutdown s).2.handed.map Region.base).Perm (i.shutdown s).2.returned

theorem memorySize_eq (hl : ∀ l ∈ i.levels, l.Booked) (m : Memory) :
    i.memorySize m = sumOf ((i.levels.flatMap Level.holders).map Holder.memorySize) := by
  cases i with
  | none => rfl
  | some a =>
      rw [memorySize, HeapStats.memorySize, a.stats_levels, List.map_map, List.map_flatMap, sumOf_flatMap]
      exact congrArg sumOf (List.map_congr_left fun l hl' => (hl l hl').memorySize m)

theorem padding_eq (i : Instance) : sumOf ((i.levels.flatMap Level.holders).map Holder.padding) =
    sumOf (i.levels.map Level.emptyLarge) + sumOf (i.levels.map Level.hollowBytes) := by
  rw [List.map_flatMap, sumOf_flatMap, ← sumOf_map_add]
  exact congrArg sumOf (List.map_congr_left fun l _ => l.padding_eq)

theorem shutdown_moves (i : Instance) (s : AddressSpace) :
    Allocator.Moves (i.levels, s) ([], (i.shutdown s).2) := by
  cases i with
  | none => exact .refl
  | some a => exact .single (.close a.levels s)

theorem balanced (hl : ∀ l ∈ i.levels, l.Booked) (hm : ∀ l ∈ i.levels, l.Mirrors)
    (ht : Tally (i.levels.flatMap Level.holders) s) : i.Balanced s := by
  obtain ⟨-, hclosed⟩ := Allocator.tally_of_moves (i.shutdown_moves s) hl hm ht
  have hnone : (i.shutdown s).2.held = [] := List.perm_nil.1 hclosed.held
  have hlive : s.live = i.memorySize s.memory + sumOf (i.levels.map Level.emptyLarge) +
      sumOf (i.levels.map Level.hollowBytes) := by
    rw [ht.live, memorySize_eq hl, padding_eq, Nat.add_assoc]
  refine ⟨ht.held, hlive, fun hfits => ?_, fun l hmem => (hl l hmem).total, ht.once, hnone, ?_⟩
  · have hsolid := ht.solid.resolve_left (hfits ▸ Bool.false_ne_true)
    have hhollow : sumOf (i.levels.map Level.hollowBytes) = 0 := by
      refine sumOf_eq_zero fun n hn => ?_
      obtain ⟨l, hmem, rfl⟩ := List.mem_map.1 hn
      exact Level.hollowBytes_eq_zero fun h hh => hsolid h (List.mem_flatMap.2 ⟨l, hmem, hh⟩)
    rw [hlive, hhollow, Nat.add_zero]
  · have honce := hclosed.once
    rwa [hnone] at honce

end Instance

namespace Demand

end Demand

end AffinityHeap
