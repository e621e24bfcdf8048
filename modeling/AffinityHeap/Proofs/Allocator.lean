import AffinityHeap.Proofs.Level

namespace AffinityHeap

/-- A live grant and the number of allocators in front of the one that handed it out. -/
structure Issued extends Grant where
  level : Nat
  deriving DecidableEq, Repr

namespace Issued

def grants (live : List Issued) : List Grant := live.map toGrant

def add (live : List Issued) (size level : Nat) : Option Nat → List Issued
  | some address => ⟨⟨address, size⟩, level⟩ :: live
  | none => live

def withdraw (live : List Issued) (g : Grant) : List Issued := live.eraseP fun i => i.toGrant == g

def deeper (i : Issued) : Issued := { i with level := i.level + 1 }

variable {live : List Issued} {g : Grant}

theorem grants_add (live : List Issued) (size level : Nat) (answer : Option Nat) :
    grants (add live size level answer) = Grant.add (grants live) size answer := by
  cases answer <;> rfl

theorem grants_withdraw (live : List Issued) (g : Grant) :
    grants (withdraw live g) = (grants live).erase g := by
  rw [grants, grants, withdraw, List.erase_eq_eraseP', List.eraseP_map]
  rfl

theorem grants_deeper (live : List Issued) : grants (live.map deeper) = grants live := by
  rw [grants, List.map_map]
  rfl

theorem mem_grants : g ∈ grants live ↔ ∃ i ∈ live, i.toGrant = g := List.mem_map

end Issued

def HeapStats.allocations (h : HeapStats) : Nat := sumOf (h.levels.map (·.allocations))

theorem Allocator.stats_levels (m : Memory) (a : Allocator) :
    (a.stats m).levels = a.levels.map (·.stats m) := rfl

variable {l l' : Level} {front back levels : List Level} {live live' : List Issued} {g : Grant}
  {i : Issued} {s s' : AddressSpace} {c : Config} {n : Nat}

/-- The memory of a chain of levels: every live grant lies with the level that issued it. -/
structure Chain (levels : List Level) (s : AddressSpace) (live : List Issued) : Prop where
  proper : ∀ l ∈ levels, l.Proper
  owned : Owned (levels.flatMap Level.holders) s (Issued.grants live)
  issued : ∀ i ∈ live, ∃ l, levels[i.level]? = some l ∧ ∃ h ∈ l.holders, h.region.Holds i.address

namespace Chain

/-- The holders of the levels in front of one and of those behind it. -/
def others (front back : List Level) : List Holder :=
  front.flatMap Level.holders ++ back.flatMap Level.holders

theorem holders_perm (front back : List Level) (l : Level) :
    ((front ++ l :: back).flatMap Level.holders).Perm (l.holders ++ others front back) := by
  rw [List.flatMap_append, List.flatMap_cons, others, ← List.append_assoc, ← List.append_assoc]
  exact List.perm_append_comm.append_right _

theorem middle (hc : Chain (front ++ l :: back) s live) :
    l.Proper ∧ Owned (l.holders ++ others front back) s (Issued.grants live) :=
  ⟨hc.proper l (List.mem_append_right front (List.mem_cons_self ..)),
    hc.owned.perm (holders_perm front back l)⟩

theorem getElem?_middle (h : n = front.length) : (front ++ l :: back)[n]? = some l := by
  rw [h, List.getElem?_append_right (Nat.le_refl _), Nat.sub_self]
  rfl

theorem getElem?_replace (h : n ≠ front.length) :
    (front ++ l' :: back)[n]? = (front ++ l :: back)[n]? := by
  rw [List.getElem?_append, List.getElem?_append]
  split
  · rfl
  · rw [show n - front.length = n - front.length - 1 + 1 by omega]
    rfl

theorem mem_others (h : n ≠ front.length) {k : Level} (hk : (front ++ l :: back)[n]? = some k) :
    k ∈ front ++ back := by
  rw [List.getElem?_append] at hk
  split at hk
  · exact List.mem_append_left _ (List.mem_of_getElem? hk)
  · rw [show n - front.length = n - front.length - 1 + 1 by omega, List.getElem?_cons_succ] at hk
    exact List.mem_append_right _ (List.mem_of_getElem? hk)

theorem replace (hc : Chain (front ++ l :: back) s live) (hl : l'.Proper)
    (ho : Owned (l'.holders ++ others front back) s' (Issued.grants live'))
    (hlive : (∀ i ∈ live', i ∈ live) ∨ ∃ i, i.level = front.length ∧ live' = i :: live) :
    Chain (front ++ l' :: back) s' live' := by
  have hstays : ∀ i ∈ live', i ∈ live → ∃ k, (front ++ l' :: back)[i.level]? = some k ∧
      ∃ h ∈ k.holders, h.region.Holds i.address := by
    intro i hi' hi
    obtain ⟨k, hk, h, hh, hih⟩ := hc.issued i hi
    by_cases hlevel : i.level = front.length
    · rw [getElem?_middle hlevel] at hk
      obtain rfl := Option.some.inj hk
      exact ⟨l', getElem?_middle hlevel,
        hc.middle.2.stays ho (Issued.mem_grants.2 ⟨i, hi', rfl⟩) hh hih⟩
    · rw [← getElem?_replace hlevel] at hk
      exact ⟨k, hk, h, hh, hih⟩
  refine ⟨fun k hk => ?_, ho.perm (holders_perm front back l').symm, fun i hi => ?_⟩
  · rcases List.mem_append.1 hk with hk | hk
    · exact hc.proper k (List.mem_append_left _ hk)
    · rcases List.mem_cons.1 hk with rfl | hk
      · exact hl
      · exact hc.proper k (List.mem_append_right front (List.mem_cons_of_mem _ hk))
  · rcases hlive with hold | ⟨j, hlevel, rfl⟩
    · exact hstays i hi (hold i hi)
    · rcases List.mem_cons.1 hi with rfl | hi'
      · exact ⟨l', getElem?_middle hlevel, hc.middle.2.joins ho⟩
      · exact hstays i hi hi'

theorem configure (hc : Chain (front ++ l :: back) s live)
    (hl : l'.Proper ∧ l'.holders.Perm l.holders) : Chain (front ++ l' :: back) s live :=
  hc.replace hl.1 (hc.middle.2.perm (hl.2.symm.append_right _)) (.inl fun _ h => h)

theorem allocate (hc : Chain (front ++ l :: back) s live) (size : Nat) (affinity : Affinity) :
    ∃ answer l' s', l.allocate size affinity s = ((.ok answer, l'), s') ∧
      Chain (front ++ l' :: back) s' (Issued.add live size front.length answer) ∧
      Memory.Agrees (Issued.grants live) s.memory s'.memory ∧
      ∀ address, answer = some address → (l.poolOf affinity).alignment ∣ address := by
  obtain ⟨hproper, howned⟩ := hc.middle
  obtain ⟨answer, l', s', hrun, hserves⟩ := Level.allocate_serves hproper howned size affinity
  refine ⟨answer, l', s', hrun, hc.replace hserves.proper ?_ ?_, hserves.agrees, hserves.aligned⟩
  · rw [Issued.grants_add]
    exact hserves.owned
  · cases answer with
    | none => exact .inl fun _ h => h
    | some address => exact .inr ⟨_, rfl, rfl⟩

theorem not_holds_others (hc : Chain (front ++ l :: back) s live) {x : Nat}
    (hl : ∃ h ∈ l.holders, h.region.Holds x) :
    ∀ k ∈ front ++ back, ∀ h ∈ k.holders, ¬ h.region.Holds x := by
  intro k hk h hh
  obtain ⟨h', hh', hx⟩ := hl
  refine hc.middle.2.not_holds_rest hh' ?_ hx
  rcases List.mem_append.1 hk with hk | hk
  · exact List.mem_append_left _ (List.mem_flatMap.2 ⟨k, hk, hh⟩)
  · exact List.mem_append_right _ (List.mem_flatMap.2 ⟨k, hk, hh⟩)

/-- Every other level turns down an address that one level holds. -/
theorem deallocate_others (hc : Chain (front ++ l :: back) s live) (hg : g ∈ Issued.grants live)
    (hl : ∃ h ∈ l.holders, h.region.Holds g.address) :
    ∀ k ∈ front ++ back, k.deallocate g.address g.size s = ((.ok false, k), s) := by
  intro k hk
  have hmem : k ∈ front ++ l :: back := by
    rcases List.mem_append.1 hk with hk | hk
    · exact List.mem_append_left _ hk
    · exact List.mem_append_right front (List.mem_cons_of_mem l hk)
  obtain ⟨A, B, heq⟩ := List.append_of_mem hmem
  obtain ⟨hproper, howned⟩ := (heq ▸ hc).middle
  rcases Level.deallocate_cases hproper howned hg with
    ⟨hrun, -⟩ | ⟨l', s', -, ⟨h, hh, hgh⟩, -⟩
  · exact hrun
  · exact absurd hgh (hc.not_holds_others hl k hk h hh)

theorem deallocateIn_cases {rest : List Level} (hc : Chain (front ++ rest) s live)
    (hg : g ∈ Issued.grants live) :
    (Allocator.deallocateIn g.address g.size rest s = ((.ok false, rest), s) ∧
        ∀ l ∈ rest, ∀ h ∈ l.holders, ¬ h.region.Holds g.address) ∨
      ∃ near l far l' s', rest = near ++ l :: far ∧ (∃ h ∈ l.holders, h.region.Holds g.address) ∧
        l.deallocate g.address g.size s = ((.ok true, l'), s') ∧
        Allocator.deallocateIn g.address g.size rest s = ((.ok true, near ++ l' :: far), s') ∧
        Chain (front ++ (near ++ l' :: far)) s' (Issued.withdraw live g) ∧
        Memory.Agrees ((Issued.grants live).erase g) s.memory s'.memory := by
  induction rest generalizing front with
  | nil => exact .inl ⟨rfl, fun l hl => absurd hl List.not_mem_nil⟩
  | cons l rest ih =>
      obtain ⟨hproper, howned⟩ := hc.middle
      rcases Level.deallocate_cases hproper howned hg with
        ⟨hrun, hnone⟩ | ⟨l', s', hrun, hholds, hreleases⟩
      · rw [List.append_cons] at hc
        rcases ih hc with
          ⟨hrest, hall⟩ | ⟨near, k, far, k', s', rfl, hholds, hrelease, hrest, hc', hagrees⟩
        · refine .inl ⟨?_, fun k hk => ?_⟩
          · simp only [Allocator.deallocateIn, bind, StateT.bind, hrun, hrest]
            rfl
          · rcases List.mem_cons.1 hk with rfl | hk
            · exact hnone
            · exact hall k hk
        · rw [← List.append_cons] at hc'
          refine .inr ⟨l :: near, k, far, k', s', rfl, hholds, hrelease, ?_, hc', hagrees⟩
          simp only [Allocator.deallocateIn, bind, StateT.bind, hrun, hrest]
          rfl
      · refine .inr ⟨[], l, rest, l', s', rfl, hholds, hrun, ?_,
          hc.replace hreleases.proper ?_ (.inl fun i hi => List.mem_of_mem_eraseP hi),
          hreleases.agrees⟩
        · simp only [Allocator.deallocateIn, bind, StateT.bind, hrun]
          rfl
        · rw [Issued.grants_withdraw]
          exact hreleases.owned

theorem reclaimIn {rest : List Level} (hc : Chain (front ++ rest) s live) :
    ∃ n rest' s', Allocator.reclaimIn rest s = ((n, rest'), s') ∧ rest'.length = rest.length ∧
      Chain (front ++ rest') s' live ∧ s'.memory = s.memory := by
  induction rest generalizing front s with
  | nil => exact ⟨0, [], s, rfl, rfl, hc, rfl⟩
  | cons l rest ih =>
      obtain ⟨hproper, howned⟩ := hc.middle
      obtain ⟨n, l', t, hrun, hproper', howned', hmemory⟩ := Level.reclaim_owned hproper howned
      have hc' := hc.replace hproper' howned' (.inl fun _ h => h)
      rw [List.append_cons] at hc'
      obtain ⟨k, rest', s', hrest, hlength, hc'', hmemory'⟩ := ih hc'
      rw [← List.append_cons] at hc''
      refine ⟨n + k, l' :: rest', s', ?_, by rw [List.length_cons, hlength, List.length_cons],
        hc'', hmemory'.trans hmemory⟩
      simp only [Allocator.reclaimIn, bind, StateT.bind, hrun, hrest]
      rfl

theorem write (hc : Chain levels s live) (hg : g ∈ Issued.grants live) {offset : Nat}
    {bytes : List UInt8} (hfit : offset + bytes.length ≤ g.size) :
    Chain levels { s with memory := s.memory.setBytes (g.address + offset) bytes } live :=
  ⟨hc.proper, hc.owned.write hg hfit, hc.issued⟩

theorem holders_start (c : Config) : [Level.ofConfig c].flatMap Level.holders = [] :=
  (List.flatMap_singleton ..).trans (Level.holders_ofConfig c)

theorem start (hs : s.Sound) (hvalid : c.validate = .ok ()) (hnarrow : c.Narrow) :
    Chain [.ofConfig c] s [] := by
  refine ⟨fun l hl => ?_, holders_start c ▸ ⟨hs, ?_, .nil, ?_, ?_⟩, ?_⟩
  · rw [List.mem_singleton.1 hl]
    exact Level.ofConfig_proper hvalid hnarrow
  all_goals exact fun x hx => absurd hx List.not_mem_nil

theorem wrap (hc : Chain levels s live) (hvalid : c.validate = .ok ()) (hnarrow : c.Narrow) :
    Chain (.ofConfig c :: levels) s (live.map Issued.deeper) := by
  refine ⟨fun l hl => ?_, ?_, fun i hi => ?_⟩
  · rcases List.mem_cons.1 hl with rfl | hl
    · exact Level.ofConfig_proper hvalid hnarrow
    · exact hc.proper l hl
  · rw [List.flatMap_cons, Level.holders_ofConfig, Issued.grants_deeper]
    exact hc.owned
  · obtain ⟨j, hj, rfl⟩ := List.mem_map.1 hi
    exact hc.issued j hj

theorem counted {a : Allocator} (hc : Chain a.levels s live) (m : Memory) :
    (a.stats m).allocations = live.length := by
  have hcount := hc.owned.counted
  rw [List.map_flatMap, sumOf_flatMap, Issued.grants, List.length_map] at hcount
  rw [← hcount, HeapStats.allocations, a.stats_levels, List.map_map]
  simp only [Function.comp_def, Level.stats_allocations]

end Chain

namespace Allocator

variable {a b : Allocator} {levels : List Level} {n : Nat}

theorem levels_ofLevels? (h : ofLevels? levels = some a) : a.levels = levels := by
  cases levels with
  | nil => cases h
  | cons outer nested =>
      obtain rfl := Option.some.inj h
      rfl

theorem levels_replaceInner (a : Allocator) (n : Nat) (b : Allocator) :
    (a.replaceInner n b).levels = a.levels.take n ++ b.levels := by
  rw [replaceInner]
  cases a.levels.take n with
  | nil => rfl
  | cons outer nested => rfl

/-- The levels in front of an inner allocator, also where it is replaced. -/
theorem levels_inner (h : a.inner n = some b) : ∃ front, front.length = n ∧
    a.levels = front ++ b.levels ∧ ∀ c, (a.replaceInner n c).levels = front ++ c.levels := by
  have hdrop : b.levels = a.levels.drop n := levels_ofLevels? h
  refine ⟨a.levels.take n, List.length_take_of_le ?_, by rw [hdrop, List.take_append_drop],
    a.levels_replaceInner n⟩
  have hlength := congrArg List.length hdrop
  rw [levels, List.length_cons, List.length_drop] at hlength
  omega

theorem exists_inner (h : n < a.levels.length) : ∃ b, a.inner n = some b := by
  rw [inner]
  cases hdrop : a.levels.drop n with
  | nil => exact absurd (List.drop_eq_nil_iff.1 hdrop) (Nat.not_le.2 h)
  | cons outer nested => exact ⟨⟨outer, nested⟩, rfl⟩

/-- A release walks down the whole chain. -/
theorem deallocate_of_levels {address size : Nat} {result : Except Corruption Bool}
    {outer : Level} {nested : List Level} {s s' : AddressSpace}
    (h : deallocateIn address size a.levels s = ((result, outer :: nested), s')) :
    a.deallocate address size s = ((result, ⟨outer, nested⟩), s') := by
  simp only [levels, deallocateIn, bind, StateT.bind] at h
  simp only [deallocate, bind, StateT.bind]
  rcases hrun : a.outer.deallocate address size s with ⟨⟨_ | _ | _, l⟩, t⟩
  · rw [hrun] at h
    cases h
    rfl
  · rw [hrun] at h
    cases h
    rfl
  · rw [hrun] at h
    cases h
    rfl

theorem reclaim_of_levels {released : Nat} {outer : Level} {nested : List Level}
    {s s' : AddressSpace} (h : reclaimIn a.levels s = ((released, outer :: nested), s')) :
    a.reclaim s = ((released, ⟨outer, nested⟩), s') := by
  simp only [levels, reclaimIn, bind, StateT.bind] at h
  simp only [reclaim, bind, StateT.bind]
  cases h
  rfl

/-- A release made by the level at place `n` alone: every other one would have turned it down and
stays as it was. -/
structure SoleRelease (n : Nat) (g : Grant) (a : Allocator) (s : AddressSpace) (a' : Allocator)
    (s' : AddressSpace) : Prop where
  run : a.deallocate g.address g.size s = ((.ok true, a'), s')
  length : a'.levels.length = a.levels.length
  released : ∃ l l', a.levels[n]? = some l ∧ a'.levels[n]? = some l' ∧
    l.deallocate g.address g.size s = ((.ok true, l'), s')
  others : ∀ k l, k ≠ n → a.levels[k]? = some l →
    a'.levels[k]? = some l ∧ l.deallocate g.address g.size s = ((.ok false, l), s)

end Allocator

namespace Chain

variable {a : Allocator}

/-- A pointer is released by the level that issued it. -/
theorem deallocate (hc : Chain (front ++ a.levels) s live) (hi : i ∈ live)
    (hlevel : front.length ≤ i.level) : ∃ a' s',
    a.SoleRelease (i.level - front.length) i.toGrant s a' s' ∧
      Chain (front ++ a'.levels) s' (Issued.withdraw live i.toGrant) ∧
      Memory.Agrees ((Issued.grants live).erase i.toGrant) s.memory s'.memory := by
  have hg : i.toGrant ∈ Issued.grants live := Issued.mem_grants.2 ⟨i, hi, rfl⟩
  obtain ⟨k, hk, h, hh, hih⟩ := hc.issued i hi
  rcases hc.deallocateIn_cases hg with
    ⟨-, hnone⟩ | ⟨near, l, far, l', s', hlevels, hl, hrelease, hrun, hc', hagrees⟩
  · rw [List.getElem?_append_right hlevel] at hk
    exact absurd hih (hnone k (List.mem_of_getElem? hk) h hh)
  have hchain : Chain ((front ++ near) ++ l :: far) s live := by
    rw [List.append_assoc, ← hlevels]
    exact hc
  have hplace : i.level = (front ++ near).length := by
    refine Decidable.of_not_not fun hne => ?_
    rw [hlevels, ← List.append_assoc] at hk
    exact hchain.not_holds_others hl k (mem_others hne hk) h hh hih
  rw [List.length_append] at hplace
  have hnear : i.level - front.length = near.length := by omega
  cases hback : near ++ l' :: far with
  | nil => exact absurd hback (by simp)
  | cons outer nested =>
      have hlevels' : (⟨outer, nested⟩ : Allocator).levels = near ++ l' :: far := hback.symm
      refine ⟨⟨outer, nested⟩, s', ?_, hlevels' ▸ hc', hagrees⟩
      rw [hnear]
      refine ⟨Allocator.deallocate_of_levels (hback ▸ hrun), ?_, ⟨l, l', ?_, ?_, hrelease⟩,
        fun n k hn hk => ⟨?_, ?_⟩⟩
      · rw [hlevels', hlevels, List.length_append, List.length_append]
        rfl
      · rw [hlevels, getElem?_middle rfl]
      · rw [hlevels', getElem?_middle rfl]
      · rw [hlevels', getElem?_replace hn, ← hlevels]
        exact hk
      · rw [hlevels] at hk
        refine hchain.deallocate_others hg hl k ?_
        rw [List.append_assoc]
        exact List.mem_append_right front (mem_others hn hk)

end Chain

end AffinityHeap
