import AffinityHeap.Proofs.Slot.Edit
import Mathlib.Data.List.Nodup

namespace AffinityHeap

open Slot (Tiled lastSpan)

namespace SlotStep

def Turns (x : SlotStep Unit) (v : SlotView) (L L' : Layout) : Prop :=
  ∃ w, Yields x v () w ∧ SlotView.Turned id L L' v w

variable {v : SlotView} {L : Layout} {A B : List Slot} {P C N : Slot} {X Y : List Nat}

theorem yields_pushFront {c : Nat} (hc : v.block.InRange c) (hc₁ : v.block.InRange (c + 1))
    (hc₂ : v.block.InRange (c + 2))
    (hhead : v.block.freeHead ≠ 0 → v.block.InRange (v.block.freeHead + 1)) (slot : SlotHeader) :
    Yields (pushFront c slot) v ()
      (((((v.setWord c ({ slot with status := .free } : SlotHeader).encode).setWord (c + 1)
        (UInt32.ofNat 0)).setWord (c + 2) (UInt32.ofNat v.block.freeHead)).setPrevious
        v.block.freeHead c).setBlock fun b =>
          { b with freeHead := c, freeCount := wrap (b.freeCount + 1) }) := by
  unfold pushFront
  refine yields_bind (yields_setHeader hc _) ?_
  refine yields_ask ?_
  refine yields_bind (yields_setPreviousFree hc₁ _) ?_
  refine yields_bind (yields_setNextFree hc₂ _) ?_
  refine yields_setPrevious hhead (by simp) ?_
  exact yields_updateBlock

theorem pushFront_turns (hS : L.Sound v.block) (hV : v.Shows L) (hL : L.slots = A ++ C :: B)
    (hC : C.status = .allocated) :
    Turns (pushFront C.position C.toSlotHeader) v L
      ⟨A ++ { C with status := .free } :: B, C.position :: L.free⟩ := by
  have hps := hS.spaced
  have hCL : C ∈ L.slots := by simp [hL]
  have hc : C.position ∈ L.positions := List.mem_map_of_mem hCL
  have hc0 : C.position ≠ 0 := Nat.ne_of_gt (hps.pos _ hc)
  have hfree : ∀ q ∈ C.position :: L.free, q ∈ L.positions := by
    rintro q (_ | ⟨_, hq⟩)
    · exact hc
    · exact hS.free_subset hq
  have hnd : (C.position :: L.free).Nodup :=
    List.nodup_cons.2 ⟨hS.notMem_free hCL hC, hS.nodup_free⟩
  have hhead : Node L.free v.block.freeHead := by
    rw [hV.linked.head_eq]
    exact SlotView.node_headD fun _ hz => hz
  have hheadps : Node L.positions v.block.freeHead := hhead.imp_right (hS.free_subset ·)
  let C' : Slot := { C with status := .free }
  let w := (((v.setWord C.position C'.encode).join 0 C.position).join C.position
    v.block.freeHead).setBlock fun b => { b with freeCount := wrap (b.freeCount + 1) }
  have hpos : Layout.positions ⟨A ++ C' :: B, C.position :: L.free⟩ = L.positions := by
    simp [Layout.positions, hL, C']
  refine ⟨w, ?_, ⟨?_, ?_, ?_⟩, ?_, ⟨C.position, wrap (v.block.freeCount + 1), ?_⟩⟩
  · refine Yields.to (yields_pushFront (hS.inRange_position hc) (hS.inRange_of_mem hc (by omega))
      (hS.inRange_of_mem hc (by omega)) (fun h => hS.inRange_of_mem (hheadps.resolve_left h)
      (by omega)) _) ?_
    simp only [w, SlotView.join, SlotView.setPrevious, if_neg hc0, if_true]
    by_cases h0 : v.block.freeHead = 0
    · simp only [h0, if_true]
      rfl
    · simp only [if_neg h0]
      rfl
  · have hset : (v.setWord C.position C'.encode).Headed (A ++ C' :: B) :=
      (show v.Headed (A ++ C :: B) from hL ▸ hV.headed).update
        (show ((A ++ C :: B).map (·.position)).Nodup from hL ▸ hS.nodup_positions) rfl
    have hl : ∀ s ∈ A ++ C' :: B, s.position ∈ L.positions := fun s hs =>
      hpos ▸ List.mem_map_of_mem hs
    exact (hset.join hps hl (.inl rfl) (.inr hc)).join hps hl (.inr hc) hheadps
  · have hv : (v.setWord C.position C'.encode).Linked 0 L.free :=
      hV.linked.setWord hps (fun q hq => hS.free_subset hq) hc _
    have hjoin := SlotView.linked_insert (X := []) hps hfree hnd trivial hv.endLinked
    rw [← hv.head_eq] at hjoin
    exact hjoin.setBlock rfl
  · have hlt := hS.length_free_lt
    simp only [w, SlotView.block_setBlock, SlotView.block_join, hc0]
    simp only [if_true, if_false, SlotView.block_setWord, hV.counted]
    exact wrap_of_lt (Nat.lt_of_le_of_lt hlt (by decide))
  · have hlt : ∀ z ∈ C.position :: L.free, z < 0x100000000 := fun z hz => hps.lt z (hfree z hz)
    have hcnode : Node (C.position :: L.free) C.position := .inr (List.mem_cons_self ..)
    have hw : SlotView.Written L.positions (C.position :: L.free) v w :=
      (((SlotView.Written.refl _ _ v).setWord hc _).join hlt (.inl rfl) hcnode).join hlt hcnode
        (hhead.imp_right (List.mem_cons_of_mem _))
    exact SlotView.rewrites_of_subset (hpos.symm ▸ hw) fun _ hq => hpos.symm ▸ hq
  · simp [w, SlotView.block_join, hc0]

theorem mergePrevious_turns (hS : L.Sound v.block) (hV : v.Shows L)
    (hL : L.slots = A ++ P :: C :: B) :
    Turns (mergePrevious P.position P.toSlotHeader C.position C.toSlotHeader
        ((B.map (·.position)).headD 0)) v L
      ⟨A ++ { P with span := P.span + C.span } :: Slot.rebase (P.span + C.span) B, L.free⟩ := by
  have hps := hS.spaced
  have hp : P.position ∈ L.positions := List.mem_map_of_mem (by simp [hL])
  have hc : C.position ∈ L.positions := List.mem_map_of_mem (by simp [hL])
  have hLC : L.slots = A ++ P :: [C] ++ B := by simp [hL]
  let P' : Slot := { P with span := P.span + C.span }
  have hst : P'.position = P.position := rfl
  have hhead := SlotView.headed_fuse hS hLC hst hV.headed
  have hgone := SlotView.mem_gone (Z := L.free) hS hLC hst
  refine ⟨(v.fuse P' B).clear [C.position], ?_, ⟨?_, ?_, ?_⟩, ?_, ⟨v.block.freeHead,
    v.block.freeCount, ?_⟩⟩
  · exact yields_fuse (t := P') hS hLC hst hV.headed (yields_clearHeader (hS.inRange_position hc) (by simp))
  · exact hhead.clear fun s hs h => ((hgone _).1 h).2 (List.mem_map_of_mem hs)
  · exact (SlotView.linked_fuse hS hLC hst hV.linked).clear hps
      (fun q hq => hS.free_subset hq) (by simpa)
  · simp [hV.counted]
  · exact SlotView.rewrites_clear (SlotView.written_fuse hst) hgone
  · simp

theorem yields_mergeNext (hS : L.Sound v.block) (hV : v.Shows L)
    (hL : L.slots = A ++ C :: N :: B) (hC : C.status = .allocated)
    (hfree : L.free = X ++ N.position :: Y) :
    Yields (mergeNext C.position C.toSlotHeader N.position N.toSlotHeader) v ()
      ((((v.fuse { C with span := C.span + N.span, status := .free } B).join (X.getLastD 0)
        C.position).join C.position (Y.headD 0)).clear [N.position]) := by
  have hps := hS.spaced
  have hCL : C ∈ L.slots := by simp [hL]
  have hc : C.position ∈ L.positions := List.mem_map_of_mem hCL
  have hn : N.position ∈ L.positions := List.mem_map_of_mem (by simp [hL])
  have hc0 : C.position ≠ 0 := Nat.ne_of_gt (hps.pos _ hc)
  have hLN : L.slots = A ++ C :: [N] ++ B := by simp [hL]
  have hLB : L.slots = (A ++ [C]) ++ N :: B := by simp [hL]
  have hold : ∀ q ∈ X ++ N.position :: Y, q ∈ L.positions := fun q hq =>
    hS.free_subset (hfree ▸ hq)
  have hcfree : C.position ∉ X ++ N.position :: Y := hfree ▸ hS.notMem_free hCL hC
  obtain ⟨hx, hy⟩ := SlotView.nodes_around hold
  have hxc : X.getLastD 0 ≠ C.position :=
    SlotView.getLastD_ne hc0 fun h => hcfree (by simp [h])
  have hyc : Y.headD 0 ≠ C.position := SlotView.headD_ne hc0 fun h => hcfree (by simp [h])
  have hlinked := hfree ▸ hV.linked
  obtain ⟨-, hprev, hnext, -, -⟩ := SlotView.linked_split hlinked
  unfold mergeNext
  refine yields_bind (yields_previousFree (hS.inRange_of_mem hn (by omega))) ?_
  refine yields_bind (yields_nextFree (hps.pos _ hn) (hS.inRange_of_mem hn (by omega))) ?_
  refine yields_ask ?_
  rw [hS.following_eq hLB, hprev, hnext]
  refine yields_fuse (t := { C with span := C.span + N.span, status := .free }) hS hLN rfl
    hV.headed ?_
  refine yields_setNext (fun h => hS.inRange_of_mem (hx.resolve_left h) (by omega)) (by simp) ?_
  refine yields_setPrevious (fun h => hS.inRange_of_mem (hy.resolve_left h) (by omega))
    (by simp) ?_
  refine yields_bind (yields_setPreviousFree (hS.inRange_of_mem hc (by omega)) _ (by simp)) ?_
  refine yields_bind (yields_setNextFree (hS.inRange_of_mem hc (by omega)) _ (by simp)) ?_
  refine yields_bind (yields_updateBlock fun b => by split <;> rfl) ?_
  refine (yields_setElement ?_ 0).to ?_
  · simp only [SlotView.block_setBlock, SlotView.block_setWord, SlotView.block_setPrevious,
      SlotView.block_setNext, SlotView.block_fuse]
    split <;> exact hS.inRange_position hn
  · have hhead := SlotView.freeHead_eq_iff hlinked (fun q hq => hps.pos q (hold q hq))
      (hfree ▸ hS.nodup_free)
    refine SlotView.ext_word (by simp [SlotView.block_join, hc0, hhead]) fun q => ?_
    simp only [SlotView.word_clear, ← SlotView.word_links_inner_last hps hc hx hy hxc hyc]
    simp [SlotView.word_setWord]

theorem mergeNext_turns (hS : L.Sound v.block) (hV : v.Shows L)
    (hL : L.slots = A ++ C :: N :: B) (hC : C.status = .allocated)
    (hfree : L.free = X ++ N.position :: Y) :
    Turns (mergeNext C.position C.toSlotHeader N.position N.toSlotHeader) v L
      ⟨A ++ { C with span := C.span + N.span, status := .free } ::
        Slot.rebase (C.span + N.span) B, X ++ C.position :: Y⟩ := by
  have hps := hS.spaced
  have hCL : C ∈ L.slots := by simp [hL]
  have hc : C.position ∈ L.positions := List.mem_map_of_mem hCL
  have hn : N.position ∈ L.positions := List.mem_map_of_mem (by simp [hL])
  have hc0 : C.position ≠ 0 := Nat.ne_of_gt (hps.pos _ hc)
  have hLN : L.slots = A ++ C :: [N] ++ B := by simp [hL]
  let C' : Slot := { C with span := C.span + N.span, status := .free }
  have hst : C'.position = C.position := rfl
  have hhead := SlotView.headed_fuse hS hLN hst hV.headed
  have hgone := SlotView.mem_gone (Z := X ++ C.position :: Y) hS hLN hst
  have hlinked := SlotView.linked_fuse hS hLN hst hV.linked
  rw [hfree] at hlinked
  obtain ⟨-, -, -, hpath, hend⟩ := SlotView.linked_split hlinked
  obtain ⟨hnew, hnd⟩ := hS.free_replace hfree hc (hS.notMem_free hCL hC)
  obtain ⟨hx, hy⟩ := SlotView.nodes_around hnew
  refine ⟨_, yields_mergeNext hS hV hL hC hfree, ⟨?_, ?_, ?_⟩, ?_, ?_⟩
  · have hl := SlotView.mem_positions_fuse hLN hst
    exact ((hhead.join hps hl hx (.inr hc)).join hps hl (.inr hc) hy).clear
      fun s hs h => ((hgone _).1 h).2 (List.mem_map_of_mem hs)
  · exact (SlotView.linked_insert hps hnew hnd hpath hend).clear hps hnew (by simpa)
  · simp only [SlotView.block_clear, SlotView.block_join, SlotView.block_fuse, if_neg hc0]
    split <;> simp [hV.counted, hfree]
  · have hlt : ∀ z ∈ X ++ C.position :: Y, z < 0x100000000 := fun z hz => hps.lt z (hnew z hz)
    have hcnode : Node (X ++ C.position :: Y) C.position := .inr (by simp)
    obtain ⟨hx, hy⟩ : Node (X ++ C.position :: Y) (X.getLastD 0) ∧
        Node (X ++ C.position :: Y) (Y.headD 0) := SlotView.nodes_around fun _ hz => hz
    exact SlotView.rewrites_clear (((SlotView.written_fuse hst).join hlt hx hcnode).join hlt
      hcnode hy) hgone
  · simp only [SlotView.block_clear, SlotView.block_join, SlotView.block_fuse, if_neg hc0]
    split <;> exact ⟨_, _, rfl⟩

section Splice

variable {β : Type} {b : β} {c : SlotBlock} {u w : SlotView} {f : Unit → SlotStep β}
  {n p x y : Nat} {front behind : Prop} [Decidable front] [Decidable behind]

/-- Taking `n` out of the list in one of three ways: where it stands right behind or right in front
of `p`, only the links of `p` and of the node on the far side are written. -/
theorem yields_splice (hS : L.Sound u.block) (hp : p ∈ L.positions) (hx : Node L.positions x)
    (hy : Node L.positions y) (hfront : front → x = p) (hbehind : behind → y = p)
    (hhead : u.block.freeHead = n ↔ x = 0) (hf : Yields (f ()) (u.join x y) b w) :
    Yields (if front then setNextFree p y >>= fun _ =>
        if y ≠ 0 then setPreviousFree y p >>= f else f ()
      else if behind then setPreviousFree p x >>= fun _ =>
        if x = 0 then updateBlock (fun b => { b with freeHead := p }) >>= f
        else setNextFree x p >>= f
      else
        have last := fun _ => updateBlock (fun b =>
          if b.freeHead = n then { b with freeHead := y } else b) >>= f
        have second := fun _ => if y ≠ 0 then setPreviousFree y x >>= last else last ()
        if x ≠ 0 then setNextFree x y >>= second else second ()) u b w := by
  have hp0 : p ≠ 0 := Nat.ne_of_gt (hS.spaced.pos p hp)
  have hin : ∀ {z k}, z ∈ L.positions → k < 4 → u.block.InRange (z + k) := hS.inRange_of_mem
  refine yields_ite (fun h => ?_) (fun _ => yields_ite (fun h => ?_) (fun _ => ?_))
  · obtain rfl := hfront h
    refine yields_bind (yields_setNextFree (hin hp (by omega)) y) ?_
    refine yields_setPrevious (fun h => hin (hy.resolve_left h) (by omega)) rfl ?_
    refine Yields.of ?_ hf
    simp [SlotView.join, SlotView.setPrevious, hp0]
  · obtain rfl := hbehind h
    refine yields_bind (yields_setPreviousFree (hin hp (by omega)) x) ?_
    refine yields_ite (fun h => ?_) (fun h => ?_)
    · refine yields_bind yields_updateBlock (Yields.of ?_ hf)
      simp [SlotView.join, h, hp0]
    · refine yields_bind (yields_setNextFree (hin (hx.resolve_left h) (by omega)) y) (Yields.of ?_ hf)
      refine SlotView.ext_word (by simp [SlotView.block_join, h]) fun q => ?_
      have hne : y + 1 ≠ x + 2 := hS.spaced.add_ne hp (hx.resolve_left h) (by omega) (by omega)
        (by omega)
      simp only [SlotView.word_setWord, SlotView.word_join]
      grind
  · refine yields_setNext (fun h => hin (hx.resolve_left h) (by omega)) rfl ?_
    refine yields_setPrevious (fun h => hin (hy.resolve_left h) (by omega)) (by simp) ?_
    refine yields_bind (yields_updateBlock fun b => by split <;> rfl) (Yields.of ?_ hf)
    refine SlotView.ext_word (by simp [SlotView.block_join, hhead]) fun q => ?_
    simp only [SlotView.word_setBlock, SlotView.word_setPrevious, SlotView.word_setNext,
      SlotView.word_join]

end Splice

theorem yields_mergeAll (hS : L.Sound v.block) (hV : v.Shows L)
    (hL : L.slots = A ++ P :: C :: N :: B) (hP : P.status = .free)
    (hfree : L.free = X ++ N.position :: Y) :
    Yields (mergeAll P.position P.toSlotHeader C.position C.toSlotHeader N.position
        N.toSlotHeader) v ()
      ((((v.fuse { P with span := P.span + (C.span + N.span) } B).join (X.getLastD 0)
        (Y.headD 0)).clear [C.position, N.position]).setBlock fun b =>
          { b with freeCount := wrapSub b.freeCount 1 }) := by
  have hps := hS.spaced
  have hPL : P ∈ L.slots := by simp [hL]
  have hp : P.position ∈ L.positions := List.mem_map_of_mem hPL
  have hc : C.position ∈ L.positions := List.mem_map_of_mem (by simp [hL])
  have hn : N.position ∈ L.positions := List.mem_map_of_mem (by simp [hL])
  have hn0 : N.position ≠ 0 := Nat.ne_of_gt (hps.pos _ hn)
  have hLP : L.slots = A ++ P :: [C, N] ++ B := by simp [hL]
  have hLB : L.slots = (A ++ [P, C]) ++ N :: B := by simp [hL]
  have hpfree : P.position ∈ X ++ N.position :: Y := hfree ▸ hS.mem_free.2 ⟨P, hPL, hP, rfl⟩
  have hold : ∀ q ∈ X ++ N.position :: Y, q ∈ L.positions := fun q hq =>
    hS.free_subset (hfree ▸ hq)
  obtain ⟨hx, hy⟩ := SlotView.nodes_around hold
  have hlinked := hfree ▸ hV.linked
  obtain ⟨-, hprev, hnext, -, -⟩ := SlotView.linked_split hlinked
  let u := (v.fuse { P with span := P.span + (C.span + N.span) } B).join (X.getLastD 0)
    (Y.headD 0)
  have hin : ∀ {q}, q ∈ L.positions → u.block.InRange q := fun hq =>
    SlotView.inRange_join.2 (by simpa using hS.inRange_position hq)
  unfold mergeAll
  refine yields_bind (yields_previousFree (hS.inRange_of_mem hp (by omega))) ?_
  refine yields_bind (yields_nextFree (hps.pos _ hp) (hS.inRange_of_mem hp (by omega))) ?_
  refine yields_bind (yields_previousFree (hS.inRange_of_mem hn (by omega))) ?_
  refine yields_bind (yields_nextFree (hps.pos _ hn) (hS.inRange_of_mem hn (by omega))) ?_
  refine yields_ask ?_
  rw [hS.following_eq hLB, hprev, hnext]
  refine yields_fuse (t := { P with span := P.span + (C.span + N.span) }) hS hLP rfl hV.headed ?_
  refine yields_splice (L := L) (n := N.position) (by simpa using hS) hp hx hy ?_ ?_ ?_ ?_
  -- Only the links of the merged slots are read; the list tells the same of them from both sides.
  · intro h
    rw [← hprev]
    exact SlotView.previous_of_next hlinked hpfree h hn0
  · intro h
    rw [← hnext]
    exact SlotView.next_of_previous hlinked hpfree h
  · simpa using SlotView.freeHead_eq_iff hlinked (fun q hq => hps.pos q (hold q hq))
      (hfree ▸ hS.nodup_free)
  · refine yields_bind (yields_clearHeader (hin hc)) ?_
    refine yields_bind (yields_clearHeader (hin hn)) ?_
    exact yields_updateBlock

theorem mergeAll_turns (hS : L.Sound v.block) (hV : v.Shows L)
    (hL : L.slots = A ++ P :: C :: N :: B) (hP : P.status = .free)
    (hfree : L.free = X ++ N.position :: Y) :
    Turns (mergeAll P.position P.toSlotHeader C.position C.toSlotHeader N.position
        N.toSlotHeader) v L
      ⟨A ++ { P with span := P.span + (C.span + N.span) } ::
        Slot.rebase (P.span + (C.span + N.span)) B, X ++ Y⟩ := by
  have hps := hS.spaced
  have hc : C.position ∈ L.positions := List.mem_map_of_mem (by simp [hL])
  have hn : N.position ∈ L.positions := List.mem_map_of_mem (by simp [hL])
  have hLP : L.slots = A ++ P :: [C, N] ++ B := by simp [hL]
  let P' : Slot := { P with span := P.span + (C.span + N.span) }
  have hst : P'.position = P.position := rfl
  have hhead := SlotView.headed_fuse hS hLP hst hV.headed
  have hgone := SlotView.mem_gone (Z := X ++ Y) hS hLP hst
  have hlinked := SlotView.linked_fuse hS hLP hst hV.linked
  have hold : ∀ q ∈ L.free, q ∈ L.positions := fun q hq => hS.free_subset hq
  have hnd := hS.nodup_free
  rw [hfree] at hlinked hold hnd
  obtain ⟨hx, hy⟩ := SlotView.nodes_around hold
  have hnew : ∀ q ∈ X ++ Y, q ∈ L.positions := fun q hq =>
    hold q (((List.sublist_cons_self N.position Y).append_left X).subset hq)
  refine ⟨_, yields_mergeAll hS hV hL hP hfree, ⟨?_, ?_, ?_⟩, ?_, ?_⟩
  · exact (hhead.join hps (SlotView.mem_positions_fuse hLP hst) hx hy).clear
      fun s hs h => ((hgone _).1 h).2 (List.mem_map_of_mem hs)
  · exact ((SlotView.linked_unlink hps hold hnd hlinked).clear hps hnew
      (by simp [hc, hn])).setBlock rfl
  · simp only [SlotView.block_setBlock, SlotView.block_clear, SlotView.block_join,
      SlotView.block_fuse]
    split <;> simp [hV.counted, hfree, ← Nat.add_assoc]
  · have hlt : ∀ z ∈ X ++ Y, z < 0x100000000 := fun z hz => hps.lt z (hnew z hz)
    have hx : Node (X ++ Y) (X.getLastD 0) :=
      SlotView.node_getLastD fun z hz => List.mem_append_left Y hz
    have hy : Node (X ++ Y) (Y.headD 0) :=
      SlotView.node_headD fun z hz => List.mem_append_right X hz
    exact SlotView.rewrites_clear (((SlotView.written_fuse hst).join hlt hx hy).setBlock
      fun b => { b with freeCount := wrapSub b.freeCount 1 }) hgone
  · simp only [SlotView.block_setBlock, SlotView.block_clear, SlotView.block_join,
      SlotView.block_fuse]
    split <;> exact ⟨_, _, rfl⟩

end SlotStep

/-- What a release makes of a layout in which `C` is allocated. -/
inductive Freed (C : Slot) : Layout → Layout → Prop
  | all {A B : List Slot} {P N : Slot} {X Y : List Nat} (hP : P.status = .free)
      (hN : N.status = .free) (hspan : P.span + C.span + N.span ≤ maxSpan) :
      Freed C ⟨A ++ P :: C :: N :: B, X ++ N.position :: Y⟩
        ⟨A ++ { P with span := P.span + (C.span + N.span) } ::
          Slot.rebase (P.span + (C.span + N.span)) B, X ++ Y⟩
  | previous {A B : List Slot} {P : Slot} {free : List Nat} (hP : P.status = .free)
      (hspan : P.span + C.span ≤ maxSpan)
      (hN : ∀ N ∈ B.head?, N.status = .free → maxSpan < P.span + C.span + N.span) :
      Freed C ⟨A ++ P :: C :: B, free⟩
        ⟨A ++ { P with span := P.span + C.span } :: Slot.rebase (P.span + C.span) B, free⟩
  | next {A B : List Slot} {N : Slot} {X Y : List Nat} (hN : N.status = .free)
      (hspan : C.span + N.span ≤ maxSpan)
      (hP : ∀ P ∈ A.getLast?, P.status = .free → maxSpan < P.span + C.span) :
      Freed C ⟨A ++ C :: N :: B, X ++ N.position :: Y⟩
        ⟨A ++ { C with span := C.span + N.span, status := .free } ::
          Slot.rebase (C.span + N.span) B, X ++ C.position :: Y⟩
  | alone {A B : List Slot} {free : List Nat}
      (hP : ∀ P ∈ A.getLast?, P.status = .free → maxSpan < P.span + C.span)
      (hN : ∀ N ∈ B.head?, N.status = .free → maxSpan < C.span + N.span) :
      Freed C ⟨A ++ C :: B, free⟩ ⟨A ++ { C with status := .free } :: B, C.position :: free⟩

namespace Freed

variable {b : SlotBlock} {C : Slot} {L L' : Layout}

theorem sound (h : Freed C L L') (hS : L.Sound b) (hC : C.status = .allocated) : L'.Sound b := by
  have hlist := hS.listed
  cases h with
  | @all A B P N X Y hP hN hspan =>
      refine hS.fuse (s := P) (M := [C, N]) (t := { P with span := P.span + (C.span + N.span) })
        (by simp) rfl rfl (by simp) (by simpa [Nat.add_assoc] using hspan) ?_
      simp only [freePositions_append, freePositions_cons, hP, hC, hN, if_true,
        reduceCtorEq, if_false] at hlist ⊢
      refine (List.perm_cons N.position).1 (List.perm_middle.symm.trans (hlist.trans ?_))
      grind
  | @previous A B P free hP hspan _ =>
      refine hS.fuse (s := P) (M := [C]) (t := { P with span := P.span + C.span })
        (by simp) rfl rfl (by simp) hspan ?_
      simpa [hP, hC] using hlist
  | @next A B N X Y hN hspan _ =>
      refine hS.fuse (s := C) (M := [N]) (t := { C with span := C.span + N.span, status := .free })
        (by simp) rfl rfl (by simp) hspan ?_
      simp only [freePositions_append, freePositions_cons, hC, hN, if_true, reduceCtorEq,
        if_false] at hlist ⊢
      have hXY := (List.perm_middle.symm.trans (hlist.trans List.perm_middle)).cons_inv
      exact List.perm_middle.trans ((hXY.cons _).trans List.perm_middle.symm)
  | @alone A B free _ _ =>
      have hfuse := hS.fuse (A := A) (s := C) (M := []) (B := B)
        (t := { C with status := .free }) (Z := C.position :: free) (by simp) rfl rfl (by simp)
        (hS.each C (by simp)).span_le ?_
      · obtain ⟨m, -, -, -, hB⟩ := Slot.tiled_append.1 hS.tiled
        simpa [Slot.rebase_of_tiled hB] using hfuse
      · have hlist : free.Perm (freePositions A ++ freePositions B) := by simpa [hC] using hlist
        simpa using (hlist.cons C.position).trans List.perm_middle.symm

theorem holdings (h : Freed C L L') (hC : C.status = .allocated) :
    (holdings L.slots).Perm ((C.position, C.span) :: holdings L'.slots) := by
  cases h with
  | all hP hN _ => simp [hP, hC, hN, List.perm_middle]
  | previous hP _ _ => simp [hP, hC, List.perm_middle]
  | next hN _ _ => simp [hC, hN, List.perm_middle]
  | alone _ _ => simp [hC, List.perm_middle]

theorem between_taken {A B : List Slot} (hfreed : Freed C L L') (hS : L.Sound b) (hL : L.slots = A ++ C :: B)
    (hA : ∀ P ∈ A.getLast?, P.status = .allocated) (hB : ∀ N ∈ B.head?, N.status = .allocated) :
    L' = ⟨A ++ { C with status := .free } :: B, C.position :: L.free⟩ := by
  cases hfreed with
  | alone _ _ =>
      obtain ⟨rfl, -, rfl⟩ := hS.split_unique hL rfl rfl
      rfl
  | @all A' B' P N X Y hP _ _ =>
      obtain ⟨rfl, -, rfl⟩ := hS.split_unique hL (List.append_cons A' P _) rfl
      simp [hP] at hA
  | @previous A' B' P free hP _ _ =>
      obtain ⟨rfl, -, rfl⟩ := hS.split_unique hL (List.append_cons A' P _) rfl
      simp [hP] at hA
  | next hN _ _ =>
      obtain ⟨rfl, -, rfl⟩ := hS.split_unique hL rfl rfl
      simp [hN] at hB

theorem before_free {A B : List Slot} {N : Slot} {X Y : List Nat} (hfreed : Freed C L L')
    (hS : L.Sound b)
    (hL : L.slots = A ++ C :: N :: B) (hfree : L.free = X ++ N.position :: Y)
    (hA : ∀ P ∈ A.getLast?, P.status = .allocated) (hN : N.status = .free)
    (hspan : C.span + N.span ≤ maxSpan) :
    L' = ⟨A ++ { C with span := C.span + N.span, status := .free } ::
      Slot.rebase (C.span + N.span) B, X ++ C.position :: Y⟩ := by
  have hpos : ∀ {X' Y' : List Nat}, L.free = X' ++ N.position :: Y' → X' = X ∧ Y' = Y := by
    intro X' Y' hX
    have hnd := hS.nodup_free
    rw [hfree, List.nodup_middle, List.nodup_cons, List.mem_append, not_or] at hnd
    obtain ⟨rfl, -, rfl⟩ :=
      (List.append_cons_inj_of_notMem hnd.1.1 hnd.1.2).1 (hfree.symm.trans hX)
    exact ⟨rfl, rfl⟩
  cases hfreed with
  | next hN' _ _ =>
      obtain ⟨rfl, -, hB⟩ := hS.split_unique hL rfl rfl
      obtain ⟨rfl, rfl⟩ := List.cons.inj hB
      obtain ⟨rfl, rfl⟩ := hpos rfl
      rfl
  | alone _ hN' =>
      obtain ⟨rfl, -, rfl⟩ := hS.split_unique hL rfl rfl
      exact absurd (hN' N rfl hN) (Nat.not_lt.2 hspan)
  | @all A' B' P _ _ _ hP _ _ =>
      obtain ⟨rfl, -, -⟩ := hS.split_unique hL (List.append_cons A' P _) rfl
      simp [hP] at hA
  | @previous A' B' P _ hP _ _ =>
      obtain ⟨rfl, -, -⟩ := hS.split_unique hL (List.append_cons A' P _) rfl
      simp [hP] at hA
end Freed

namespace SlotStep

variable {v : SlotView} {L : Layout} {A B : List Slot} {C : Slot}

def freeHeader? (s : Option Slot) : Option SlotHeader :=
  (s.filter (·.isFree)).map (·.toSlotHeader)

theorem freeHeader?_cases (o : Option Slot) :
    freeHeader? o = none ∧ (∀ s ∈ o, s.status = .allocated) ∨
      ∃ s ∈ o, s.status = .free ∧ freeHeader? o = some s.toSlotHeader := by
  cases o with
  | none => exact .inl ⟨rfl, fun s hs => nomatch hs⟩
  | some s => cases h : s.status <;> simp [freeHeader?, SlotHeader.isFree, h]

theorem absorb_turns (hS : L.Sound v.block) (hV : v.Shows L) (hL : L.slots = A ++ C :: B)
    (hC : C.status = .allocated) :
    ∃ L', Freed C L L' ∧ Turns (absorb ((A.map (·.position)).getLastD 0)
      (freeHeader? A.getLast?) C.position C.toSlotHeader ((B.map (·.position)).headD 0)
      (freeHeader? B.head?)) v L L' := by
  obtain ⟨slots, free⟩ := L
  obtain rfl : slots = A ++ C :: B := hL
  have split : ∀ N ∈ A ++ C :: B, N.status = .free → ∃ X Y, free = X ++ N.position :: Y :=
    fun N hN hf => List.append_of_mem (hS.mem_free.2 ⟨N, hN, hf, rfl⟩)
  have alone := pushFront_turns hS hV rfl hC
  have next : ∀ N ∈ B.head?, N.status = .free → C.span + N.span ≤ maxSpan →
      (∀ P ∈ A.getLast?, P.status = .free → maxSpan < P.span + C.span) →
      ∃ L', Freed C ⟨A ++ C :: B, free⟩ L' ∧ Turns (mergeNext C.position C.toSlotHeader
        ((B.map (·.position)).headD 0) N.toSlotHeader) v ⟨A ++ C :: B, free⟩ L' := by
    intro N hB hN hspan hP
    obtain ⟨B, rfl⟩ : ∃ B', B = N :: B' := List.head?_eq_some_iff.1 hB
    obtain ⟨X, Y, rfl⟩ := split N (by simp) hN
    exact ⟨_, .next hN hspan hP, mergeNext_turns hS hV rfl hC rfl⟩
  have previous : ∀ P ∈ A.getLast?, P.status = .free → P.span + C.span ≤ maxSpan →
      (∀ N ∈ B.head?, N.status = .free → maxSpan < P.span + C.span + N.span) →
      ∃ L', Freed C ⟨A ++ C :: B, free⟩ L' ∧ Turns (mergePrevious
        ((A.map (·.position)).getLastD 0) P.toSlotHeader C.position C.toSlotHeader
        ((B.map (·.position)).headD 0)) v ⟨A ++ C :: B, free⟩ L' := by
    intro P hA hP hspan hN
    obtain ⟨A, rfl⟩ : ∃ A', A = A' ++ [P] := List.getLast?_eq_some_iff.1 hA
    simp only [List.append_assoc, List.singleton_append] at hS hV ⊢
    have h := mergePrevious_turns hS hV rfl
    exact ⟨_, .previous hP hspan hN, by simpa using h⟩
  have all : ∀ P ∈ A.getLast?, P.status = .free → ∀ N ∈ B.head?, N.status = .free →
      P.span + C.span + N.span ≤ maxSpan →
      ∃ L', Freed C ⟨A ++ C :: B, free⟩ L' ∧ Turns (mergeAll ((A.map (·.position)).getLastD 0)
        P.toSlotHeader C.position C.toSlotHeader ((B.map (·.position)).headD 0)
        N.toSlotHeader) v ⟨A ++ C :: B, free⟩ L' := by
    intro P hA hP N hB hN hspan
    obtain ⟨A, rfl⟩ : ∃ A', A = A' ++ [P] := List.getLast?_eq_some_iff.1 hA
    obtain ⟨B, rfl⟩ : ∃ B', B = N :: B' := List.head?_eq_some_iff.1 hB
    obtain ⟨X, Y, rfl⟩ := split N (by simp) hN
    simp only [List.append_assoc, List.singleton_append] at hS hV ⊢
    have h := mergeAll_turns hS hV rfl hP rfl
    exact ⟨_, .all hP hN hspan, by simpa using h⟩
  -- Either neighbour may be free or not; of those that are, the spans settle which are joined.
  rcases freeHeader?_cases A.getLast? with ⟨hp, hP⟩ | ⟨P, hA, hP, hp⟩ <;>
    rcases freeHeader?_cases B.head? with ⟨hn, hN⟩ | ⟨N, hB, hN, hn⟩ <;>
    simp only [hp, hn, absorb]
  · exact ⟨_, .alone (fun P hA h => by simp [hP P hA] at h) (fun N hB h => by simp [hN N hB] at h),
      alone⟩
  · split_ifs with hspan
    · exact next N hB hN hspan fun P hA h => by simp [hP P hA] at h
    · refine ⟨_, .alone (fun P hA h => by simp [hP P hA] at h) (fun M hM _ => ?_), alone⟩
      exact Option.mem_unique hB hM ▸ Nat.lt_of_not_le hspan
  · split_ifs with hspan
    · exact previous P hA hP hspan fun N hB h => by simp [hN N hB] at h
    · refine ⟨_, .alone (fun M hM _ => ?_) (fun N hB h => by simp [hN N hB] at h), alone⟩
      exact Option.mem_unique hA hM ▸ Nat.lt_of_not_le hspan
  · split_ifs with hall hprev hnext
    · exact all P hA hP N hB hN hall
    · refine previous P hA hP hprev fun M hM _ => ?_
      exact Option.mem_unique hB hM ▸ Nat.lt_of_not_le hall
    · refine next N hB hN hnext fun M hM _ => ?_
      exact Option.mem_unique hA hM ▸ Nat.lt_of_not_le hprev
    · refine ⟨_, .alone (fun M hM _ => ?_) (fun M hM _ => ?_), alone⟩
      · exact Option.mem_unique hA hM ▸ Nat.lt_of_not_le hprev
      · exact Option.mem_unique hB hM ▸ Nat.lt_of_not_le hnext

theorem contains_addressOf {b : SlotBlock} (hr : b.buffer.record = 4) {q : Nat}
    (hq : q < b.buffer.len) : b.buffer.contains (b.addressOf q) = true := by
  have hsub : b.addressOf q - b.buffer.base = q * 4 := Nat.add_sub_cancel_left ..
  have hle : b.buffer.base ≤ b.addressOf q := Nat.le_add_right ..
  simp only [Buffer.contains, Buffer.byteLen, hr, hsub, Bool.and_eq_true, decide_eq_true_eq]
  omega

theorem slotOf_aligned {b : SlotBlock} (hr : b.buffer.record = 4) {c : Nat} (hfirst : b.first ≤ c)
    (hlen : c + 1 < b.buffer.len) (hunit : b.unit ∣ c + 1) :
    slotOf (b.addressOf (c + 1)) b = .ok c := by
  have hsub : b.addressOf (c + 1) - b.buffer.base = (c + 1) * 4 := Nat.add_sub_cancel_left ..
  rw [slotOf, Buffer.offsetOf?, if_pos (contains_addressOf hr hlen), hsub]
  simp only [Nat.mul_mod_left, Nat.mul_div_cancel _ (show 0 < 4 by decide),
    Nat.mod_eq_zero_of_dvd hunit]
  rw [if_neg (by omega)]
  rfl

theorem slotOf_addressOf {b : SlotBlock} (hr : b.buffer.record = 4) (hS : L.Sound b)
    (hC : C ∈ L.slots) : slotOf (b.addressOf (C.position + 1)) b = .ok C.position :=
  slotOf_aligned hr (hS.first_le hC)
    (hS.inRange_of_mem (List.mem_map_of_mem hC) (k := 1) (by omega)).2.2 (hS.each C hC).aligned

theorem precedingOf_of_tiled {b : SlotBlock} {back stop : Nat}
    (h : Slot.Tiled b.first back (A ++ C :: B) stop) (hspan : ∀ s ∈ A, 0 < s.span)
    (hfirst : A = [] → C.back = 0) :
    precedingOf C.position C.toSlotHeader b = .ok ((A.map (·.position)).getLastD 0) := by
  obtain ⟨m, hA, rfl, hback, -⟩ := Slot.tiled_append.1 h
  rcases List.eq_nil_or_concat A with rfl | ⟨A, P, rfl⟩
  · rw [precedingOf, if_pos (hfirst rfl)]
    rfl
  · rw [List.concat_eq_append] at hA hback hspan ⊢
    obtain ⟨m, hlow, rfl, -, hstop⟩ := Slot.tiled_append.1 hA
    have hstop : P.position + P.span = C.position := hstop
    have hpos := hspan P (by simp)
    have hle := Slot.tiled_le hlow
    rw [Slot.lastSpan_concat] at hback
    have hsub : C.position - P.span = P.position := by omega
    rw [precedingOf, hback, if_neg (by omega), hsub, if_pos (by omega)]
    simp

theorem precedingOf_eq {b : SlotBlock} (hS : L.Sound b) (hL : L.slots = A ++ C :: B) :
    precedingOf C.position C.toSlotHeader b = .ok ((A.map (·.position)).getLastD 0) := by
  have htiled := hS.tiled
  rw [hL] at htiled
  refine precedingOf_of_tiled htiled (fun s hs => hS.span_pos s (by simp [hL, hs])) ?_
  rintro rfl
  exact htiled.2.1

theorem freeAt?_eq {h : SlotHeap} {s : Option Slot}
    (hs : ∀ x ∈ s, x.position ≠ 0 ∧ h.header x.position = .ok x.toSlotHeader) :
    freeAt? ((s.map (·.position)).getD 0) h = (.ok (freeHeader? s), h) := by
  cases s with
  | none => rfl
  | some x =>
      obtain ⟨hpos, hheader⟩ := hs x rfl
      simp only [Option.map_some, Option.getD_some, freeAt?, if_neg hpos]
      rw [bind_apply, header_apply, hheader]
      cases hst : x.status <;> simp [freeHeader?, Option.filter, SlotHeader.isFree, hst, pure_apply]

theorem yields_freeAt? (hS : L.Sound v.block) (hV : v.Shows L) {s : Option Slot}
    (hs : ∀ x ∈ s, x ∈ L.slots) :
    Yields (freeAt? ((s.map (·.position)).getD 0)) v (freeHeader? s) v := by
  refine yields_of_apply ?_
  rintro h rfl
  refine freeAt?_eq fun x hx => ⟨?_, header_eq hS (hs x hx) (hV.headed x (hs x hx))⟩
  exact Nat.ne_of_gt (hS.spaced.pos _ (List.mem_map_of_mem (hs x hx)))

theorem yields_deallocate {w : SlotView} {address size c p : Nat} {current : SlotHeader}
    {prev next : Option SlotHeader} (hslot : slotOf address v.block = .ok c)
    (hhead : Yields (header c) v current v)
    (hcheck : checkRelease c size current v.block = .ok ())
    (hbefore : precedingOf c current v.block = .ok p)
    (hprev : Yields (freeAt? p) v prev v)
    (hnext : Yields (freeAt? (v.block.following c current)) v next v)
    (hrun : Yields (absorb p prev c current (v.block.following c current) next)
      (v.setBlock (·.discharged current.span)) () w) :
    Yields (deallocate address size) v () w := by
  unfold deallocate
  refine yields_ask (yields_bind (yields_answer hslot) (yields_bind hhead ?_))
  refine yields_bind (yields_answer hcheck) (yields_bind (yields_answer hbefore) ?_)
  exact yields_bind hprev (yields_bind hnext (yields_bind yields_updateBlock hrun))

theorem deallocate_turns {size : Nat} (hr : v.block.buffer.record = 4) (hS : L.Sound v.block)
    (hV : v.Shows L) (hC : C ∈ L.slots) (ht : C.status = .allocated)
    (hsize : size ≤ C.payloadBytes) :
    ∃ L', Freed C L L' ∧ ∃ w,
      Yields (deallocate (v.block.addressOf (C.position + 1)) size) v () w ∧ SlotView.Turned
        (·.discharged C.span) L L' v w := by
  obtain ⟨A, B, hL⟩ := List.append_of_mem hC
  let u := v.setBlock (·.discharged C.span)
  have hSu : L.Sound u.block := ⟨hS.tiled, hS.each, hS.listed, hS.inside, hS.short⟩
  have hVu : u.Shows L := ⟨hV.headed, hV.linked.setBlock rfl, hV.counted⟩
  obtain ⟨L', hfreed, w, hrun, hshows, hrw, hblock⟩ := absorb_turns hSu hVu hL ht
  refine ⟨L', hfreed, w, ?_, hshows, ⟨hrw.written, hrw.cleared⟩, hblock⟩
  have hstop : C.position + C.span ≤ v.block.capacity := hS.stop_le hC
  have hcheck : checkRelease C.position size C.toSlotHeader v.block = .ok () := by
    rw [checkRelease, if_neg (Nat.ne_of_gt (hS.span_pos C hC)),
      SlotHeader.isFree_eq_false_iff.2 ht, if_neg Bool.false_ne_true,
      if_neg (Nat.not_lt.2 hsize), if_neg (Nat.not_lt.2 hstop)]
  have hprev := yields_freeAt? hS hV (s := A.getLast?) fun x hx => by
    simp [hL, List.mem_of_getLast? hx]
  have hnext := yields_freeAt? hS hV (s := B.head?) fun x hx => by
    simp [hL, List.mem_of_mem_head? hx]
  rw [← List.getLast?_map, ← List.getLastD_eq_getLast?] at hprev
  rw [← List.head?_map, ← List.headD_eq_head?_getD, ← hS.following_eq hL] at hnext
  rw [← hS.following_eq hL] at hrun
  exact yields_deallocate (slotOf_addressOf hr hS hC) (yields_header hS hC (hV.headed C hC)) hcheck
    (precedingOf_eq hS hL) hprev hnext hrun

end SlotStep

end AffinityHeap
