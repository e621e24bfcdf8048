import AffinityHeap.Proofs.Ledger

namespace AffinityHeap

namespace Pool

variable {p p' : Pool} {b b' : Block} {s s' : AddressSpace} {m m' : Memory} {C : List Holder}
  {base size address : Nat} {candidates : List Nat}

theorem usable_insert (hb : p.blocks.find? base = some b) (hl : b.Like b') (k : Nat) :
    usable { p with blocks := p.blocks.insert base b' } k = p.usable k := by
  simp only [usable, SortedMap.find?_insert]
  by_cases hk : base = k
  · subst hk
    simp only [if_true, hb, hl.alignment]
  · simp only [if_neg hk]

/-- The blocks lie where their words are aligned, and the cache names one that serves requests. -/
structure Charted (p : Pool) : Prop where
  sited : ∀ k b, p.blocks.find? k = some b → b.Sited ∧ b.Whole
  cached : ∀ base, p.cached = some base → p.usable base = true

def Whole (p : Pool) : Prop := ∀ b ∈ p.blocks.values, b.Whole

namespace Charted

theorem whole (hp : p.Charted) : p.Whole := fun b hb => by
  obtain ⟨k, hk⟩ := SortedMap.mem_values.1 hb
  exact (hp.sited k b hk).2

theorem ofConfig (c : PoolConfig) (backend : BackendKind) : (ofConfig c backend).Charted :=
  ⟨fun _ _ h => (nomatch h), fun _ h => nomatch h⟩

theorem aim (hp : p.Charted) (h : p.usable base = true) :
    Charted { p with cached := some base } := by
  refine ⟨hp.sited, fun k hk => ?_⟩
  obtain rfl := Option.some.inj hk
  exact h

theorem revise (hp : p.Charted) (hb : p.blocks.find? base = some b) (hstays : b.Stays m b' m') :
    Charted { p with blocks := p.blocks.insert base b' } := by
  refine ⟨fun k c hc => ?_, fun k hk => ?_⟩
  · rw [SortedMap.find?_insert] at hc
    split at hc
    · obtain rfl := Option.some.inj hc
      obtain ⟨hsited, hwhole⟩ := hp.sited base b hb
      exact ⟨hstays.sited hsited, hstays.whole hwhole⟩
    · exact hp.sited k c hc
  · rw [usable_insert hb hstays.toLike]
    exact hp.cached k hk

theorem allocateIn (hp : p.Charted) {answer : Except Corruption (Option Nat)}
    (h : p.allocateIn base size s = ((answer, p'), s')) :
    p'.Charted ∧ (∀ k, p'.usable k = p.usable k) ∧ ∃ m, s' = { s with memory := m } := by
  rcases p.allocateIn_eq base size s with ⟨-, hrun⟩ | ⟨b, answer, b', m, hb, hstays, hrun⟩
  · rw [hrun] at h
    cases h
    exact ⟨hp, fun _ => rfl, s.memory, rfl⟩
  · rw [hrun] at h
    cases h
    exact ⟨hp.revise hb hstays, usable_insert hb hstays.toLike, m, rfl⟩

theorem allocateAmong (hp : p.Charted) (hc : ∀ base ∈ candidates, p.usable base = true)
    {answer : Except Corruption (Option Nat)}
    (h : allocateAmong size candidates p s = ((answer, p'), s')) :
    p'.Charted ∧ ∃ m, s' = { s with memory := m } := by
  induction candidates generalizing p s with
  | nil =>
      cases h
      exact ⟨hp, s'.memory, rfl⟩
  | cons base rest ih =>
      rcases hrun : p.allocateIn base size s with ⟨⟨first, q⟩, t⟩
      obtain ⟨hq, husable, m, rfl⟩ := hp.allocateIn hrun
      simp only [Pool.allocateAmong, bind, StateT.bind, hrun] at h
      rcases first with e | _ | address
      · cases h
        exact ⟨hq, m, rfl⟩
      · obtain ⟨hp', m', rfl⟩ := ih hq (fun k hk => by
          rw [husable]
          exact hc k (List.mem_cons_of_mem base hk)) h
        exact ⟨hp', m', rfl⟩
      · cases h
        refine ⟨hq.aim ?_, m, rfl⟩
        rw [husable]
        exact hc base (List.mem_cons_self ..)

theorem grow (hp : p.Charted) (hs : s.Aligned) {answer : Except HeapError (Option Nat)}
    (h : p.grow size s = ((answer, p'), s')) : p'.Charted := by
  rcases p.grow_eq size s with
    ⟨e, t, -, hrun⟩ | ⟨b, t, b', m, hcreate, hstays, ⟨e, hrun⟩ | ⟨address, hrun⟩⟩
  · rw [hrun] at h
    cases h
    exact hp
  · rw [hrun] at h
    cases h
    exact hp
  · rw [hrun] at h
    cases h
    have hmade := Block.made_of_create hcreate
    refine ⟨fun k c hc => ?_, fun k hk => ?_⟩
    · rw [SortedMap.find?_insert] at hc
      split at hc
      · obtain rfl := Option.some.inj hc
        exact ⟨hstays.sited (hmade.sited hs), hstays.whole hmade.whole⟩
      · exact hp.sited k c hc
    · obtain rfl := Option.some.inj hk
      exact usable_iff.2 ⟨b', SortedMap.find?_insert_self ..,
        hstays.alignment ▸ hmade.alignment_le⟩

theorem allocate (hp : p.Charted) (hs : s.Aligned) {answer : Except HeapError (Option Nat)}
    (h : p.allocate size s = ((answer, p'), s')) : p'.Charted := by
  rw [Pool.allocate] at h
  split at h
  · cases h
    exact hp
  · rcases hrun : Pool.allocateAmong size p.candidates p s with ⟨⟨first, q⟩, t⟩
    obtain ⟨hq, m, rfl⟩ := hp.allocateAmong (fun k hk => (List.mem_filter.1 hk).2) hrun
    simp only [bind, StateT.bind, hrun] at h
    rcases first with e | _ | address
    · cases h
      exact hq
    · exact hq.grow (s := { s with memory := m }) hs h
    · cases h
      exact hq

theorem deallocate (hp : p.Charted) {answer : Except Corruption Bool}
    (h : p.deallocate address size s = ((answer, p'), s')) : p'.Charted := by
  rcases p.deallocate_eq address size s with
    ⟨-, hrun⟩ | ⟨base, b, result, b', m, cached, -, hb, -, hstays, hrun, hcached⟩
  · rw [hrun] at h
    cases h
    exact hp
  · rw [hrun] at h
    cases h
    have hrevised := hp.revise hb hstays
    rcases hcached with rfl | ⟨-, rfl, hle⟩
    · exact hrevised
    · exact hrevised.aim (usable_iff.2 ⟨b', SortedMap.find?_insert_self .., hle⟩)

theorem reclaim (hp : p.Charted) {released : Nat} (h : p.reclaim s = ((released, p'), s')) :
    p'.Charted := by
  cases h
  refine ⟨fun k b hb => hp.sited k b (SortedMap.find?_filter.1 hb).1, fun k hk => ?_⟩
  obtain ⟨hcached, hkept⟩ := Option.filter_eq_some_iff.1 hk
  obtain ⟨b, hb, hle⟩ := usable_iff.1 (hp.cached k hcached)
  obtain ⟨c, hc⟩ := Option.isSome_iff_exists.1 hkept
  obtain rfl := Option.some.inj (hb.symm.trans (SortedMap.find?_filter.1 hc).1)
  exact usable_iff.2 ⟨b, hc, hle⟩

theorem setAlignment (hp : p.Charted) {alignment : Nat} (h : p.setAlignment alignment = .ok p') :
    p'.Charted := by
  rw [Pool.setAlignment] at h
  cases hcheck : checkAlignment alignment with
  | error e =>
      rw [hcheck] at h
      cases h
  | ok u =>
      rw [hcheck] at h
      by_cases hsame : alignment = p.alignment
      · simp only [if_pos hsame] at h
        cases h
        exact hp
      · simp only [if_neg hsame] at h
        cases h
        refine ⟨hp.sited, fun k hk => ?_⟩
        cases hk

theorem reconfigure (hp : p.Charted) {c : PoolConfig} {backend : BackendKind}
    (h : p.reconfigure c backend = .ok p') : p'.Charted := by
  rw [Pool.reconfigure] at h
  cases hvalid : c.validate with
  | error e =>
      rw [hvalid] at h
      cases h
  | ok u =>
      rw [hvalid] at h
      exact setAlignment (p := { p with
        name := c.displayName
        backend := c.backend.getD backend
        blockSize := c.blockSize }) ⟨hp.sited, hp.cached⟩ h

end Charted

/-- A release that only the block `b` and, where it succeeds, the cache take part in. -/
def Delegates (p : Pool) (b : Block) (address size : Nat) (s : AddressSpace) : Prop :=
  ∃ answer b' m cached, b.deallocate address size s = ((answer, b'), { s with memory := m }) ∧
    b.Like b' ∧ b.region.Confines s.memory m ∧
    p.deallocate address size s = ((answer.map fun _ => true,
      { p with blocks := p.blocks.insert b.base b', cached }), { s with memory := m }) ∧
    (cached = p.cached ∨ answer = .ok () ∧ cached = some b.base)

/-- Where a pool keeps its blocks, and which of them an address belongs to. -/
structure Resolves (p : Pool) (s : AddressSpace) : Prop where
  keyed : ∀ base b, p.blocks.find? base = some b → b.base = base
  cached : ∀ base, p.cached = some base →
    ∃ b, p.blocks.find? base = some b ∧ p.alignment ≤ b.alignment
  owns : ∀ address, p.owns address = true ↔ ∃ b ∈ p.blocks.values, b.contains address = true
  sole : ∀ address, ∀ b ∈ p.blocks.values, ∀ c ∈ p.blocks.values,
    b.contains address = true → c.contains address = true → b = c
  declines : ∀ address size, (∃ p' s', p.deallocate address size s = ((.ok false, p'), s')) ↔
    ∀ b ∈ p.blocks.values, b.contains address = false
  idle : ∀ address size p' s', p.deallocate address size s = ((.ok false, p'), s') →
    p' = p ∧ s' = s
  delegates : ∀ address size, ∀ b ∈ p.blocks.values, b.contains address = true →
    p.Delegates b address size s

theorem delegates_of_owner? (hp : p.Charted) (howner : p.owner? address = some (b.base, b)) :
    p.Delegates b address size s := by
  rcases p.deallocate_eq address size s with
    ⟨hnone, -⟩ | ⟨base, c, answer, b', m, cached, hsome, hb, hserve, hstays, hrun, hcached⟩
  · cases howner.symm.trans hnone
  · cases howner.symm.trans hsome
    exact ⟨answer, b', m, cached, hserve, hstays.toLike, hstays.confines (hp.sited b.base b hb).1,
      hrun, hcached.imp id fun h => ⟨h.1, h.2.1⟩⟩

theorem Charted.resolves (hp : p.Charted) (hk : p.blocks.Keyed Block.base)
    (ht : Tally (p.holders ++ C) s) : p.Resolves s := by
  have hheld : ∀ b ∈ p.blocks.values, b.region ∈ s.held := fun b hb =>
    ht.held.mem_iff.2 (List.mem_map_of_mem (f := Holder.region)
      (List.mem_append_left C (List.mem_map_of_mem hb)))
  have howner : ∀ {address} {b : Block}, b ∈ p.blocks.values → b.contains address = true →
      p.owner? address = some (b.base, b) := fun hb hc =>
    owner?_of_contains hk ht.sound hheld hb hc
  have hmem : ∀ {address} {x : Nat × Block}, p.owner? address = some x →
      x.2 ∈ p.blocks.values ∧ x.2.contains address = true := fun {address x} hx => by
    obtain ⟨hfloor, hcontains⟩ := Option.filter_eq_some_iff.1 hx
    exact ⟨SortedMap.mem_values.2 ⟨x.1, (SortedMap.below?_eq_some hfloor).1⟩, hcontains⟩
  have hdelegates : ∀ address size, ∀ b ∈ p.blocks.values, b.contains address = true →
      p.Delegates b address size s := fun address size b hb hc =>
    delegates_of_owner? hp (howner hb hc)
  refine ⟨hk, fun base h => usable_iff.1 (hp.cached base h), fun address => ?_,
    fun address b hb c hc hba hca => ?_, fun address size => ?_,
    fun address size p' s' => deallocate_false, hdelegates⟩
  · constructor
    · intro howns
      obtain ⟨x, hx⟩ := Option.isSome_iff_exists.1 howns
      exact ⟨x.2, hmem hx⟩
    · rintro ⟨b, hb, hc⟩
      rw [owns, howner hb hc]
      rfl
  · have heq := (howner hb hba).symm.trans (howner hc hca)
    exact (Prod.mk.inj (Option.some.inj heq)).2
  · constructor
    · rintro ⟨p', s', hrun⟩ b hb
      refine Bool.eq_false_iff.2 fun hc => ?_
      obtain ⟨answer, b', m, cached, -, -, -, hrun', -⟩ := hdelegates address size b hb hc
      rw [hrun] at hrun'
      cases answer <;> cases hrun'
    · intro hnone
      have hno : p.owner? address = none := Option.eq_none_iff_forall_ne_some.2 fun x hx => by
        obtain ⟨hb, hc⟩ := hmem hx
        rw [hnone _ hb] at hc
        cases hc
      exact ⟨p, s, by rw [Pool.deallocate, hno]; rfl⟩

end Pool

end AffinityHeap
