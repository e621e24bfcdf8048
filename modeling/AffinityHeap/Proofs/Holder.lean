import AffinityHeap.Large
import AffinityHeap.Proofs.Block
import AffinityHeap.Proofs.Fairness

namespace AffinityHeap

/-- What a region held from the system is used for. -/
inductive Holder where
  | block (b : Block)
  | large (a : LargeAllocation)

variable {live live' : List Grant} {g : Grant} {s s' : AddressSpace} {m m' : Memory} {r : Region}
  {H H' C : List Holder} {h h' : Holder} {size alignment : Nat}

namespace Grant

/-- The grants that start in a region. -/
def within (live : List Grant) (r : Region) : List Grant := live.filter fun g => r.Holds g.address

theorem mem_within : g ∈ within live r ↔ g ∈ live ∧ r.Holds g.address := by
  rw [within, List.mem_filter, decide_eq_true_eq]

theorem within_cons_of_holds (hg : r.Holds g.address) :
    within (g :: live) r = g :: within live r :=
  List.filter_cons_of_pos (decide_eq_true hg)

theorem within_cons_of_not_holds (hg : ¬ r.Holds g.address) :
    within (g :: live) r = within live r :=
  List.filter_cons_of_neg (by simpa using hg)

theorem within_erase_of_holds (hg : r.Holds g.address) :
    within (live.erase g) r = (within live r).erase g := by
  induction live with
  | nil => rfl
  | cons k live ih =>
      by_cases hk : k = g
      · subst hk
        rw [List.erase_cons_head, within_cons_of_holds hg, List.erase_cons_head]
      · have hne : ¬ (k == g) = true := fun h => hk (beq_iff_eq.1 h)
        rw [List.erase_cons_tail hne]
        by_cases hkr : r.Holds k.address
        · rw [within_cons_of_holds hkr, within_cons_of_holds hkr, List.erase_cons_tail hne, ih]
        · rw [within_cons_of_not_holds hkr, within_cons_of_not_holds hkr, ih]

theorem within_erase_of_not_holds (hg : ¬ r.Holds g.address) :
    within (live.erase g) r = within live r := by
  induction live with
  | nil => rfl
  | cons k live ih =>
      by_cases hk : k = g
      · subst hk
        rw [List.erase_cons_head, within_cons_of_not_holds hg]
      · rw [List.erase_cons_tail fun h => hk (beq_iff_eq.1 h)]
        by_cases hkr : r.Holds k.address
        · rw [within_cons_of_holds hkr, within_cons_of_holds hkr, ih]
        · rw [within_cons_of_not_holds hkr, within_cons_of_not_holds hkr, ih]

end Grant

namespace Memory.Agrees

variable {m'' : Memory}

theorem refl (live : List Grant) (m : Memory) : Agrees live m m := fun _ _ _ _ => rfl

theorem trans (h : Agrees live m m') (h' : Agrees live m' m'') : Agrees live m m'' :=
  fun g hg i hi => (h' g hg i hi).trans (h g hg i hi)

end Memory.Agrees

namespace Holder

def region : Holder → Region
  | block b => b.region
  | large a => a.buffer.region

def allocations : Holder → Nat
  | block b => b.allocations
  | large _ => 1

def Keeps (m : Memory) (live : List Grant) : Holder → Prop
  | block b => b.Keeps m live
  | large a => live = [⟨a.buffer.base, a.requested⟩] ∧ a.buffer.record = 1 ∧
      a.requested = a.buffer.len

theorem Keeps.inside (hk : h.Keeps m live) (hg : g ∈ live) :
    h.region.base ≤ g.address ∧ g.region.stop ≤ h.region.stop := by
  cases h with
  | block b => exact (Block.Keeps.seats hk).inside g hg
  | large a =>
      obtain ⟨rfl, hrecord, hlen⟩ := hk
      obtain rfl := List.mem_singleton.1 hg
      simp only [region, Grant.region, Region.stop, Buffer.region, hrecord, hlen]
      omega

theorem Keeps.apart (hk : h.Keeps m live) :
    live.Pairwise fun g k => g.region.Disjoint k.region := by
  cases h with
  | block b => exact (Block.Keeps.seats hk).apart
  | large a =>
      obtain ⟨rfl, -, -⟩ := hk
      exact List.pairwise_singleton ..

theorem Keeps.counted (hk : h.Keeps m live) : h.allocations = live.length := by
  cases h with
  | block b => exact Block.Keeps.counted hk
  | large a =>
      obtain ⟨rfl, -, -⟩ := hk
      rfl

theorem Keeps.of_confines (hk : h.Keeps m live) (hm : r.Confines m m')
    (hr : r.Disjoint h.region) : h.Keeps m' live := by
  cases h with
  | block b => exact Block.Keeps.of_bytes hk fun x hx => hm x (hr.symm.not_holds hx)
  | large a => exact hk

theorem Keeps.write (hk : h.Keeps m live) (hg : g ∈ live) {offset : Nat} {bytes : List UInt8}
    (hfit : offset + bytes.length ≤ g.size) :
    h.Keeps (m.setBytes (g.address + offset) bytes) live := by
  cases h with
  | block b => exact Block.Keeps.write hk hg hfit
  | large a => exact hk

end Holder

/-- The holders have regions of their own, and between them all the live grants. -/
structure Owned (H : List Holder) (s : AddressSpace) (live : List Grant) : Prop where
  sound : s.Sound
  held : ∀ h ∈ H, h.region ∈ s.held
  once : (H.map Holder.region).Nodup
  keeps : ∀ h ∈ H, h.Keeps s.memory (Grant.within live h.region)
  covered : ∀ g ∈ live, ∃ h ∈ H, h.region.Holds g.address

namespace Owned

theorem perm (ho : Owned H s live) (hp : H.Perm H') : Owned H' s live where
  sound := ho.sound
  held h hh := ho.held h (hp.mem_iff.2 hh)
  once := (hp.map _).nodup_iff.1 ho.once
  keeps h hh := ho.keeps h (hp.mem_iff.2 hh)
  covered g hg := by
    obtain ⟨h, hh, hhg⟩ := ho.covered g hg
    exact ⟨h, hp.mem_iff.1 hh, hhg⟩

theorem eq_of_holds (ho : Owned H s live) (hh : h ∈ H) (hh' : h' ∈ H) {x : Nat}
    (hx : h.region.Holds x) (hx' : h'.region.Holds x) : h.region = h'.region :=
  ho.sound.eq_of_holds (ho.held h hh) (ho.held h' hh') hx hx'

theorem disjoint (ho : Owned (h :: H) s live) (hh' : h' ∈ H) : h.region.Disjoint h'.region := by
  have : Std.Symm Region.Disjoint := ⟨fun _ _ => Region.Disjoint.symm⟩
  refine ho.sound.apart.forall (ho.held h (List.mem_cons_self ..))
    (ho.held h' (List.mem_cons_of_mem _ hh')) fun heq => ?_
  exact (List.nodup_cons.1 ho.once).1 (heq ▸ List.mem_map_of_mem hh')

theorem base_ne (ho : Owned (h :: H) s live) (hh' : h' ∈ H) : h'.region.base ≠ h.region.base := by
  intro heq
  refine (ho.disjoint hh').not_holds (ho.sound.holds_base (ho.held h (List.mem_cons_self ..))) ?_
  rw [← heq]
  exact ho.sound.holds_base (ho.held h' (List.mem_cons_of_mem _ hh'))

theorem replace (ho : Owned (h :: H) s live) (hr : h'.region = h.region)
    (hm : h.region.Confines s.memory m') (hk : h'.Keeps m' (Grant.within live' h.region))
    (hsame : ∀ q, h.region.Disjoint q → Grant.within live' q = Grant.within live q)
    (hnew : ∀ g ∈ live', g ∈ live ∨ h.region.Holds g.address) :
    Owned (h' :: H) { s with memory := m' } live' := by
  refine ⟨ho.sound.store m', fun k hk' => ?_, ?_, fun k hk' => ?_, fun g hg => ?_⟩
  · rcases List.mem_cons.1 hk' with rfl | hk'
    · rw [hr]
      exact ho.held h (List.mem_cons_self ..)
    · exact ho.held k (List.mem_cons_of_mem _ hk')
  · rw [List.map_cons, hr]
    exact ho.once
  · rcases List.mem_cons.1 hk' with rfl | hk'
    · rw [hr]
      exact hk
    · have hdis := ho.disjoint hk'
      rw [hsame _ hdis]
      exact (ho.keeps k (List.mem_cons_of_mem _ hk')).of_confines hm hdis
  · rcases hnew g hg with hg | hg
    · obtain ⟨k, hk', hgk⟩ := ho.covered g hg
      rcases List.mem_cons.1 hk' with rfl | hk'
      · exact ⟨h', List.mem_cons_self .., hr ▸ hgk⟩
      · exact ⟨k, List.mem_cons_of_mem _ hk', hgk⟩
    · exact ⟨h', List.mem_cons_self .., hr ▸ hg⟩

theorem add (ho : Owned H s live) (hs : s.Obtained s' h.region alignment)
    (hpos : 0 < h.region.size) (hk : h.Keeps s'.memory (Grant.within live' h.region))
    (hsame : ∀ q, h.region.Disjoint q → Grant.within live' q = Grant.within live q)
    (hnew : ∀ g ∈ live', g ∈ live ∨ h.region.Holds g.address) : Owned (h :: H) s' live' := by
  obtain ⟨hsound, -, hdis⟩ := ho.sound.obtained hs hpos
  have hself : ¬ h.region.Disjoint h.region := fun hd =>
    hd.not_holds ⟨Nat.le_refl _, Nat.lt_add_of_pos_right hpos⟩
      ⟨Nat.le_refl _, Nat.lt_add_of_pos_right hpos⟩
  refine ⟨hsound, fun k hk' => ?_, ?_, fun k hk' => ?_, fun g hg => ?_⟩
  · rw [hs.held]
    rcases List.mem_cons.1 hk' with rfl | hk'
    · exact List.mem_cons_self ..
    · exact List.mem_cons_of_mem _ (ho.held k hk')
  · rw [List.map_cons, List.nodup_cons]
    refine ⟨fun hmem => ?_, ho.once⟩
    obtain ⟨k, hk', heq⟩ := List.mem_map.1 hmem
    exact hself (heq ▸ hdis _ (ho.held k hk'))
  · rcases List.mem_cons.1 hk' with rfl | hk'
    · exact hk
    · have hd := hdis _ (ho.held k hk')
      rw [hsame _ hd]
      exact (ho.keeps k hk').of_confines hs.outside hd
  · rcases hnew g hg with hg | hg
    · obtain ⟨k, hk', hgk⟩ := ho.covered g hg
      exact ⟨k, List.mem_cons_of_mem _ hk', hgk⟩
    · exact ⟨h, List.mem_cons_self .., hg⟩

theorem remove (ho : Owned (h :: H) s live) (hnone : Grant.within live' h.region = [])
    (hsame : ∀ q, h.region.Disjoint q → Grant.within live' q = Grant.within live q)
    (hsub : ∀ g ∈ live', g ∈ live) :
    Owned H (AddressSpace.giveBack h.region.base s).2 live' := by
  have hh := ho.held h (List.mem_cons_self ..)
  obtain ⟨hnot, honce⟩ := List.nodup_cons.1 ho.once
  refine ⟨ho.sound.giveBack _, fun k hk => ?_, honce, fun k hk => ?_, fun g hg => ?_⟩
  · refine (ho.sound.mem_giveBack hh).2 ⟨ho.held k (List.mem_cons_of_mem _ hk), fun heq => ?_⟩
    exact hnot (heq ▸ List.mem_map_of_mem hk)
  · rw [hsame _ (ho.disjoint hk)]
    exact ho.keeps k (List.mem_cons_of_mem _ hk)
  · obtain ⟨k, hk, hgk⟩ := ho.covered g (hsub g hg)
    rcases List.mem_cons.1 hk with rfl | hk
    · have hmem := Grant.mem_within.2 ⟨hg, hgk⟩
      rw [hnone] at hmem
      exact absurd hmem List.not_mem_nil
    · exact ⟨k, hk, hgk⟩

theorem inside (ho : Owned H s live) (hg : g ∈ live) :
    ∃ r ∈ s.held, r.base ≤ g.address ∧ g.region.stop ≤ r.stop := by
  obtain ⟨h, hh, hgh⟩ := ho.covered g hg
  exact ⟨_, ho.held h hh, (ho.keeps h hh).inside (Grant.mem_within.2 ⟨hg, hgh⟩)⟩

theorem apart (ho : Owned H s live) : live.Pairwise fun g k => g.region.Disjoint k.region := by
  refine List.pairwise_iff_forall_sublist.2 fun {g k} hsub => ?_
  obtain ⟨h, hh, hgh⟩ := ho.covered g (hsub.subset (by simp))
  obtain ⟨h', hh', hkh⟩ := ho.covered k (hsub.subset (by simp))
  -- One region keeps its own grants apart; two regions are apart themselves.
  by_cases heq : h.region = h'.region
  · rw [← heq] at hkh
    have hboth : Grant.within [g, k] h.region = [g, k] := by
      rw [Grant.within_cons_of_holds hgh, Grant.within_cons_of_holds hkh]
      rfl
    have hin : [g, k].Sublist (Grant.within live h.region) := hboth ▸ hsub.filter _
    exact List.pairwise_iff_forall_sublist.1 (ho.keeps h hh).apart hin
  · have : Std.Symm Region.Disjoint := ⟨fun _ _ => Region.Disjoint.symm⟩
    have hdis := ho.sound.apart.forall (ho.held h hh) (ho.held h' hh') heq
    have hgin := (ho.keeps h hh).inside (Grant.mem_within.2 ⟨hsub.subset (by simp), hgh⟩)
    have hkin := (ho.keeps h' hh').inside (Grant.mem_within.2 ⟨hsub.subset (by simp), hkh⟩)
    simp only [Region.Disjoint, Grant.region, Region.stop] at *
    omega

theorem counted (ho : Owned H s live) : sumOf (H.map Holder.allocations) = live.length := by
  induction H generalizing live with
  | nil =>
      cases live with
      | nil => rfl
      | cons g live =>
          obtain ⟨h, hh, -⟩ := ho.covered g (List.mem_cons_self ..)
          exact absurd hh List.not_mem_nil
  | cons h H ih =>
      -- The grants of the first holder are counted by it, all others by the rest of the holders.
      let others := live.filter fun g => !decide (h.region.Holds g.address)
      have hothers : ∀ g, g ∈ others ↔ g ∈ live ∧ ¬ h.region.Holds g.address := by
        simp [others]
      have hrest : Owned H s others := by
        refine ⟨ho.sound, fun k hk => ho.held k (List.mem_cons_of_mem _ hk),
          (List.nodup_cons.1 ho.once).2, fun k hk => ?_, fun g hg => ?_⟩
        · have hsame : Grant.within others k.region = Grant.within live k.region := by
            rw [Grant.within, List.filter_filter]
            refine List.filter_congr fun g _ => ?_
            have hdis := (ho.disjoint hk).symm
            by_cases hg : k.region.Holds g.address
            · simp [hg, hdis.not_holds hg]
            · simp [hg]
          rw [hsame]
          exact ho.keeps k (List.mem_cons_of_mem _ hk)
        · obtain ⟨hlive, hnot⟩ := (hothers g).1 hg
          obtain ⟨k, hk, hgk⟩ := ho.covered g hlive
          rcases List.mem_cons.1 hk with rfl | hk
          · exact absurd hgk hnot
          · exact ⟨k, hk, hgk⟩
      have hown := (ho.keeps h (List.mem_cons_self ..)).counted
      rw [List.map_cons, sumOf_cons, hown, ih hrest]
      exact (List.length_eq_length_filter_add _).symm

theorem not_holds_rest (ho : Owned (H ++ C) s live) (hh : h ∈ H) (hk : h' ∈ C) {x : Nat}
    (hx : h.region.Holds x) : ¬ h'.region.Holds x := by
  intro hx'
  have heq := ho.eq_of_holds (List.mem_append_left C hh) (List.mem_append_right H hk) hx hx'
  have honce := ho.once
  rw [List.map_append, List.nodup_append] at honce
  exact honce.2.2 _ (List.mem_map_of_mem hh) _ (List.mem_map_of_mem hk) heq

/-- A grant stays with the holders it was with while the others are left alone. -/
theorem stays (ho : Owned (H ++ C) s live) (ho' : Owned (H' ++ C) s' live') (hg : g ∈ live')
    (hh : h ∈ H) (hgh : h.region.Holds g.address) : ∃ h ∈ H', h.region.Holds g.address := by
  obtain ⟨k, hk, hgk⟩ := ho'.covered g hg
  rcases List.mem_append.1 hk with hk | hk
  · exact ⟨k, hk, hgk⟩
  · exact absurd hgk (ho.not_holds_rest hh hk hgh)

theorem joins (ho : Owned (H ++ C) s live) (ho' : Owned (H' ++ C) s' (g :: live)) :
    ∃ h ∈ H', h.region.Holds g.address := by
  obtain ⟨k, hk, hgk⟩ := ho'.covered g (List.mem_cons_self ..)
  rcases List.mem_append.1 hk with hk | hk
  · exact ⟨k, hk, hgk⟩
  · have hold := (ho.keeps k (List.mem_append_right H hk)).counted
    have hnew := (ho'.keeps k (List.mem_append_right H' hk)).counted
    rw [Grant.within_cons_of_holds hgk, List.length_cons] at hnew
    omega

/-- The grants kept agree if those in the region that is written to do. -/
theorem agrees (ho : Owned H s live) {kept : List Grant} (hsub : ∀ g ∈ kept, g ∈ live)
    (hm : r.Confines s.memory m') (hin : ∀ h ∈ H, r.Disjoint h.region ∨
      Memory.Agrees (Grant.within kept h.region) s.memory m') :
    Memory.Agrees kept s.memory m' := by
  intro g hg i hi
  obtain ⟨h, hh, hgh⟩ := ho.covered g (hsub g hg)
  rcases hin h hh with hdis | hagrees
  · obtain ⟨hbase, hstop⟩ := (ho.keeps h hh).inside (Grant.mem_within.2 ⟨hsub g hg, hgh⟩)
    refine hm _ (hdis.symm.not_holds ⟨by omega, ?_⟩)
    simp only [Grant.region, Region.stop] at hstop ⊢
    omega
  · exact hagrees g (Grant.mem_within.2 ⟨hg, hgh⟩) i hi

theorem write (ho : Owned H s live) (hg : g ∈ live) {offset : Nat} {bytes : List UInt8}
    (hfit : offset + bytes.length ≤ g.size) :
    Owned H { s with memory := s.memory.setBytes (g.address + offset) bytes } live := by
  obtain ⟨h, hh, hgh⟩ := ho.covered g hg
  obtain ⟨A, B, rfl⟩ := List.append_of_mem hh
  have hperm : (A ++ h :: B).Perm (h :: (A ++ B)) := List.perm_middle
  have hmem := Grant.mem_within.2 ⟨hg, hgh⟩
  have hkeeps := ho.keeps h hh
  obtain ⟨hbase, hstop⟩ := hkeeps.inside hmem
  refine (Owned.replace (ho.perm hperm) rfl ?_ (hkeeps.write hmem hfit) (fun _ _ => rfl)
    fun _ h => .inl h).perm hperm.symm
  intro x hx
  refine Memory.byte_setBytes_of_outside ?_
  simp only [Region.Holds, Grant.region, Region.stop] at hx hstop
  omega

section Block

variable {b : Block}

theorem allocate (ho : Owned (.block b :: H) s live) {size : Nat} (hsize : size ≤ Block.sizeLimit) :
    ∃ answer b' m',
    b.allocate size s = ((.ok answer, b'), { s with memory := m' }) ∧ b.Like b' ∧
      Owned (.block b' :: H) { s with memory := m' } (Grant.add live size answer) ∧
      Memory.Agrees live s.memory m' ∧ ∀ address, answer = some address → b.alignment ∣ address := by
  have hkeeps : b.Keeps s.memory (Grant.within live b.region) :=
    ho.keeps _ (List.mem_cons_self ..)
  obtain ⟨answer, b', m', hrun, hkeeps', hlike, hconf, hagrees⟩ :=
    hkeeps.allocate (hkeeps.fits_of_le hsize)
  have hall : Memory.Agrees live s.memory m' := by
    refine ho.agrees (fun _ h => h) hconf fun h hh => ?_
    rcases List.mem_cons.1 hh with rfl | hh
    · exact .inr hagrees
    · exact .inl (ho.disjoint hh)
  refine ⟨answer, b', m', hrun, hlike, ?_, hall, ?_⟩
  · cases answer with
    | none => exact ho.replace hlike.region hconf hkeeps' (fun _ _ => rfl) fun _ h => .inl h
    | some address =>
        have hin := hkeeps'.seats.inside ⟨address, size⟩ (List.mem_cons_self ..)
        rw [hlike.region] at hin
        have hholds : b.region.Holds address := by
          refine ⟨hin.1, Nat.lt_of_lt_of_le ?_ hin.2⟩
          simp only [Grant.region, Region.stop]
          omega
        have hown : Grant.within (⟨address, size⟩ :: live) b.region =
            ⟨address, size⟩ :: Grant.within live b.region := Grant.within_cons_of_holds hholds
        refine ho.replace hlike.region hconf (hown.symm ▸ hkeeps') (fun q hq => ?_) fun g hg => ?_
        · exact Grant.within_cons_of_not_holds (hq.not_holds hholds)
        · rcases List.mem_cons.1 hg with rfl | hg
          · exact .inr hholds
          · exact .inl hg
  · rintro address rfl
    have haligned := hkeeps'.seats.aligned ⟨address, size⟩ (List.mem_cons_self ..)
    rwa [hlike.alignment] at haligned

theorem release (ho : Owned (.block b :: H) s live) (hg : g ∈ live)
    (hb : b.region.Holds g.address) : ∃ b' m',
    b.deallocate g.address g.size s = ((.ok (), b'), { s with memory := m' }) ∧ b.Like b' ∧
      Owned (.block b' :: H) { s with memory := m' } (live.erase g) ∧
      Memory.Agrees (live.erase g) s.memory m' := by
  have hkeeps : b.Keeps s.memory (Grant.within live b.region) :=
    ho.keeps _ (List.mem_cons_self ..)
  obtain ⟨b', m', hrun, hkeeps', hlike, hconf, hagrees⟩ :=
    hkeeps.release (Grant.mem_within.2 ⟨hg, hb⟩)
  rw [← Grant.within_erase_of_holds hb] at hkeeps' hagrees
  have hsub : ∀ k ∈ live.erase g, k ∈ live := fun k hk => List.mem_of_mem_erase hk
  refine ⟨b', m', hrun, hlike, ho.replace hlike.region hconf hkeeps' (fun q hq => ?_)
    fun k hk => .inl (hsub k hk), ?_⟩
  · exact Grant.within_erase_of_not_holds (hq.not_holds hb)
  · refine ho.agrees hsub hconf fun h hh => ?_
    rcases List.mem_cons.1 hh with rfl | hh
    · exact .inr hagrees
    · exact .inl (ho.disjoint hh)

theorem refused (ho : Owned H s live) (hs : s.Refused s') :
    Owned H s' live ∧ Memory.Agrees live s.memory s'.memory := by
  obtain ⟨hsound, hheld, hmemory⟩ := ho.sound.refused hs
  refine ⟨⟨hsound, hheld ▸ ho.held, ho.once, hmemory ▸ ho.keeps, ho.covered⟩, ?_⟩
  rw [hmemory]
  exact Memory.Agrees.refl live s.memory

theorem within_fresh (ho : Owned H s live) (hr : ∀ q ∈ s.held, r.Disjoint q) :
    Grant.within live r = [] := by
  refine List.eq_nil_iff_forall_not_mem.2 fun g hg => ?_
  obtain ⟨hlive, hgr⟩ := Grant.mem_within.1 hg
  obtain ⟨h, hh, hgh⟩ := ho.covered g hlive
  exact (hr _ (ho.held h hh)).not_holds hgr hgh

theorem obtained_agrees (ho : Owned H s live) (hs : s.Obtained s' r alignment)
    (hr : ∀ q ∈ s.held, r.Disjoint q) : Memory.Agrees live s.memory s'.memory :=
  ho.agrees (fun _ h => h) hs.outside fun h hh => .inl (hr _ (ho.held h hh))

theorem create (ho : Owned H s live) {kind : BackendKind} (blockSize : Nat)
    (hsmall : kind = .slot → alignment < 131072) :
    (∃ e s', Block.create kind blockSize alignment s = (.error e, s') ∧ Owned H s' live ∧
        Memory.Agrees live s.memory s'.memory ∧ ∀ c, e ≠ .corruption c) ∨
      ∃ b s', Block.create kind blockSize alignment s = (.ok b, s') ∧ alignment ≤ b.alignment ∧
        Owned (.block b :: H) s' live ∧ Memory.Agrees live s.memory s'.memory := by
  rcases Block.create_cases ho.sound.fair.aligned kind blockSize hsmall with
    ⟨e, s', hrun, href, hne⟩ | ⟨b, s', obtained, hrun, hobtained, hkeeps, hal⟩
  · obtain ⟨ho', hagrees⟩ := ho.refused href
    exact .inl ⟨e, s', hrun, ho', hagrees, hne⟩
  · obtain ⟨-, -, hdis⟩ := ho.sound.obtained hobtained hkeeps.region_pos
    have hnone : Grant.within live (Holder.block b).region = [] := ho.within_fresh hdis
    refine .inr ⟨b, s', hrun, hal, ?_, ho.obtained_agrees hobtained hdis⟩
    refine ho.add hobtained hkeeps.region_pos ?_ (fun _ _ => rfl) fun _ h => .inl h
    rw [hnone]
    exact hkeeps

theorem giveBack (ho : Owned (.block b :: H) s live) (he : b.isEmpty = true) :
    Owned H (b.giveBack s).2 live := by
  have hkeeps : b.Keeps s.memory (Grant.within live b.region) :=
    ho.keeps _ (List.mem_cons_self ..)
  exact ho.remove (hkeeps.eq_nil_of_isEmpty he) (fun _ _ => rfl) fun _ h => h

theorem giveBackAll {blocks : List Block} (he : ∀ b ∈ blocks, b.isEmpty = true)
    (ho : Owned (blocks.map .block ++ H) s live) :
    ∃ s', blocks.forM (·.giveBack) s = ((), s') ∧ Owned H s' live ∧ s'.memory = s.memory := by
  induction blocks generalizing s with
  | nil => exact ⟨s, rfl, ho, rfl⟩
  | cons b blocks ih =>
      have hb := Owned.giveBack ho (he b (List.mem_cons_self ..))
      exact ih (fun c hc => he c (List.mem_cons_of_mem _ hc)) hb

end Block

section Large

variable {a : LargeAllocation}

theorem allocateLarge (ho : Owned H s live) (l : LargeAllocations) (hal : IsPowerOfTwo alignment)
    (size : Nat) :
    (∃ e s', l.allocate size alignment s = (.error e, s') ∧ Owned H s' live ∧
        Memory.Agrees live s.memory s'.memory) ∨
      ∃ a total s', l.allocate size alignment s =
          (.ok (a.buffer.base, ⟨l.entries.insert a.buffer.base a, total⟩), s') ∧
        alignment ∣ a.buffer.base ∧
        Owned (.large a :: H) s' (⟨a.buffer.base, size⟩ :: live) ∧
        Memory.Agrees live s.memory s'.memory := by
  have hone : max alignment 1 = alignment := Nat.max_eq_left hal.pos
  rcases Buffer.zeroed_cases s 1 size alignment with
    ⟨e, s', hrun, href, -⟩ | ⟨base, hpolicy, hpower, -, hrun⟩
  · obtain ⟨ho', hagrees⟩ := ho.refused href
    exact .inl ⟨e, s', by rw [LargeAllocations.allocate, Obtain.bind_apply, hrun], ho', hagrees⟩
  · let a : LargeAllocation := ⟨⟨base, size, 1, max alignment 1⟩, size⟩
    have hobtained := Buffer.zeroed_obtained hpower hpolicy
    have hpos : 0 < a.buffer.region.size := by
      simp only [a, Buffer.region]
      omega
    obtain ⟨-, hdvd, hdis⟩ := ho.sound.obtained hobtained hpos
    have hholds : (Holder.large a).region.Holds base :=
      ⟨Nat.le_refl _, Nat.lt_add_of_pos_right hpos⟩
    refine .inr ⟨a, l.totalBytes + a.buffer.byteLen, _,
      by rw [LargeAllocations.allocate, Obtain.bind_apply, hrun]; rfl, hone ▸ hdvd, ?_,
      ho.obtained_agrees hobtained hdis⟩
    refine ho.add hobtained hpos ⟨?_, rfl, rfl⟩ (fun q hq => ?_) fun g hg => ?_
    · have hnone : Grant.within live (Holder.large a).region = [] := ho.within_fresh hdis
      rw [Grant.within_cons_of_holds hholds, hnone]
    · exact Grant.within_cons_of_not_holds (hq.not_holds hholds)
    · rcases List.mem_cons.1 hg with rfl | hg
      · exact .inr hholds
      · exact .inl hg

theorem releaseLarge (ho : Owned (.large a :: H) s live) (hg : g ∈ live)
    (ha : a.buffer.region.Holds g.address) :
    g.address = a.buffer.base ∧ Owned H (a.buffer.giveBack s).2 (live.erase g) := by
  obtain ⟨hone, -, -⟩ : (Holder.large a).Keeps s.memory (Grant.within live a.buffer.region) :=
    ho.keeps _ (List.mem_cons_self ..)
  have hmem := Grant.mem_within.2 ⟨hg, ha⟩
  rw [hone] at hmem
  have heq := List.mem_singleton.1 hmem
  refine ⟨congrArg Grant.address heq, ho.remove ?_ (fun q hq => ?_) fun k hk =>
    List.mem_of_mem_erase hk⟩
  · show Grant.within (live.erase g) a.buffer.region = []
    rw [Grant.within_erase_of_holds ha, hone, heq, List.erase_cons_head]
  · exact Grant.within_erase_of_not_holds (hq.not_holds ha)

end Large

end Owned

end AffinityHeap
