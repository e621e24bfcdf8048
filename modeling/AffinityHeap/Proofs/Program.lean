import AffinityHeap.Proofs.Journal
import AffinityHeap.Proofs.Overflow
import AffinityHeap.Proofs.Usage
import AffinityHeap.Proofs.Validate

namespace AffinityHeap

open AffinityHeap.Random (Source)

/-- Every size and alignment is a number with a sign. -/
structure Config.Signed (c : Config) : Prop where
  blockSize : c.defaultBlockSize < signedLimit
  alignment : c.defaultAlignment < signedLimit
  pools : ∀ p ∈ c.pools, p.blockSize < signedLimit ∧ p.alignment < signedLimit

theorem Config.Signed.pool {c : Config} (hc : c.Signed) (a : Affinity) :
    (c.pool a).blockSize < signedLimit ∧ (c.pool a).alignment < signedLimit := by
  rw [Config.pool]
  cases hfind : c.pools.find? (fun p => p.affinity == a) with
  | none => exact ⟨hc.blockSize, hc.alignment⟩
  | some p => exact hc.pools p (List.mem_of_find?_eq_some hfind)

/-- The integers of a document have 64 bits and a sign. -/
def TomlReader.Signed [TomlReader] : Prop := ∀ text c, TomlReader.read text = .ok c → c.Signed

section Settings

variable [TomlReader] {P : Config → Prop} {c : Config} {e : Environment}

/-- What holds of the defaults and of a document that is read and checked holds of the settings
taken from the environment, if the backend has no part in it. -/
theorem Config.ofEnvironment_holds (hdefault : P default)
    (hread : ∀ text c, TomlReader.read text = .ok c → c.validate = .ok () → P c)
    (hbackend : ∀ (c : Config) kind, P c → P { c with backend := kind })
    (h : ofEnvironment e = .ok c) : P c := by
  have hnamed : ∀ (d : Config) (name : String), P d →
      (do return { d with backend := ← BackendKind.parse name }) = Except.ok c → P c := by
    intro d name hd h
    obtain ⟨kind, -, h⟩ := bind_eq_ok.1 h
    obtain rfl := pure_eq_ok.1 h
    exact hbackend d kind hd
  have htoml : ∀ {text d}, ofToml text = .ok d → P d := by
    intro text d h
    unfold ofToml at h
    split at h
    · cases h
    · rename_i hdecoded
      obtain ⟨_, hvalid, h⟩ := bind_eq_ok.1 h
      obtain rfl := pure_eq_ok.1 h
      exact hread text _ hdecoded hvalid
  have hfile : ∀ {path d}, ofFile e path = .ok d → P d := by
    intro path d h
    unfold ofFile at h
    split at h
    · exact htoml h
    · cases h
  unfold ofEnvironment at h
  cases hname : Environment.written? e.backend <;>
    cases hpath : Environment.written? e.configPath <;> rw [hname, hpath] at h
  case none.none =>
    obtain rfl := pure_eq_ok.1 h
    exact hdefault
  case none.some path =>
    obtain ⟨d, hd, h⟩ := bind_eq_ok.1 h
    obtain rfl := pure_eq_ok.1 h
    exact hfile hd
  case some.none name => exact hnamed default name hdefault h
  case some.some name path =>
    obtain ⟨d, hd, h⟩ := bind_eq_ok.1 h
    exact hnamed d name (hfile hd) h

theorem Program.settings_holds {o : Options} (hdefault : P .default)
    (hread : ∀ text c, TomlReader.read text = .ok c → c.validate = .ok () → P c)
    (hbackend : ∀ (c : Config) kind, P c → P { c with backend := kind })
    (h : settings o e = .ok c) : P c := by
  obtain ⟨d, hd, h⟩ := bind_eq_ok.1 h
  have hP := Config.ofEnvironment_holds hdefault hread hbackend hd
  obtain rfl := pure_eq_ok.1 h
  split
  · exact hbackend d _ hP
  · exact hP

theorem Program.settings_valid {o : Options} (h : settings o e = .ok c) : c.validate = .ok () :=
  settings_holds (P := fun c => c.validate = .ok ()) (by decide) (fun _ _ _ hvalid => hvalid)
    (fun _ _ hvalid => hvalid) h

theorem Program.settings_signed {o : Options} (hreader : TomlReader.Signed)
    (h : settings o e = .ok c) : c.Signed :=
  settings_holds ⟨by decide, by decide, by decide⟩ (fun text c hread _ => hreader text c hread)
    (fun _ _ hc => ⟨hc.blockSize, hc.alignment, hc.pools⟩) h

end Settings

theorem Workload.swapRemove_perm {α : Type} {xs : Array α} {i : Nat} {a : α}
    (h : xs[i]? = some a) : xs.toList.Perm (a :: (swapRemove xs i).toList) := by
  rw [← Array.getElem?_toList] at h
  obtain ⟨hi, ha⟩ := List.getElem?_eq_some_iff.1 h
  obtain ⟨A, B, hsplit, hlength⟩ : ∃ A B, xs.toList = A ++ a :: B ∧ A.length = i := by
    refine ⟨xs.toList.take i, xs.toList.drop (i + 1), ?_, List.length_take_of_le (Nat.le_of_lt hi)⟩
    rw [← ha, List.getElem_cons_drop, List.take_append_drop]
  have hback : xs.back? = (A ++ a :: B).getLast? := by rw [← Array.getLast?_toList, hsplit]
  rcases List.eq_nil_or_concat B with rfl | ⟨B, last, rfl⟩
  · have hlast : xs.back? = some a := by rw [hback, List.getLast?_concat]
    have hrest : (swapRemove xs i).toList = A := by
      simp [swapRemove, hlast, hsplit, ← hlength]
    rw [hsplit, hrest]
    exact List.perm_append_singleton a A
  · rw [List.concat_eq_append] at hsplit hback
    have hlast : xs.back? = some last := by
      rw [hback, ← List.cons_append, ← List.append_assoc, List.getLast?_concat]
    have hset : (A ++ a :: (B ++ [last])).set A.length last = (A ++ last :: B) ++ [last] := by simp
    have hrest : (swapRemove xs i).toList = A ++ last :: B := by
      simp only [swapRemove, hlast, Array.toList_pop, Array.toList_setIfInBounds, hsplit,
        ← hlength, hset, List.dropLast_concat]
    rw [hsplit, hrest]
    refine List.perm_middle.trans (.cons a (.append_left A ?_))
    exact List.perm_append_singleton last B

/-- A live allocation as the clients of the heap see it. -/
def Held.grant (h : Held) : Grant := ⟨h.address, h.size⟩

namespace AllocatorCall

/-- The call leaves the settings as they are. -/
def Serving : AllocatorCall → Prop
  | allocate .. | release _ | reclaim => True
  | _ => False

end AllocatorCall

namespace HeapSession

variable {build : Build} {s t : HeapSession} {c : AllocatorCall} {level : Nat}

theorem serve_config (hserving : c.Serving) (h : s.serve level c = .ok t) :
    t.allocator.config = s.allocator.config := by
  cases c with
  | allocate size affinity =>
      have hconfig : (s.allocator.allocate size affinity s.space).1.2.config = _ :=
        s.allocator.outer.allocate_config size affinity s.space
      rw [serve] at h
      rcases hrun : s.allocator.allocate size affinity s.space with ⟨⟨_ | _, a⟩, space⟩ <;>
        rw [hrun] at h hconfig <;> cases h
      exact hconfig
  | release g =>
      have hconfig := s.allocator.deallocate_config g.address g.size s.space
      rw [serve] at h
      rcases hrun : s.allocator.deallocate g.address g.size s.space with
        ⟨⟨_ | _ | _, a⟩, space⟩ <;> rw [hrun] at h hconfig <;> cases h <;> exact hconfig
  | reclaim =>
      cases h
      exact s.allocator.outer.reclaimAmong_config _ s.space
  | _ => cases hserving

/-- Nothing has overflowed, and with numbers such as these nothing will. -/
structure Signed (s : HeapSession) : Prop where
  config : s.allocator.config.Signed
  clean : s.space.overflowed = false

/-- The heap and its books agree. -/
structure Orderly (build : Build) (s : HeapSession) : Prop where
  kept : s.Kept
  booked : ∀ l ∈ s.allocator.levels, l.Booked
  mirrors : ∀ l ∈ s.allocator.levels, l.Mirrors
  tally : Tally (s.allocator.levels.flatMap Level.holders) s.space
  signed : build = .checked → s.Signed

namespace Orderly

theorem start {policy : Policy} (hfair : (AddressSpace.new policy).Fair) {c : Config}
    (hvalid : c.validate = .ok ()) (hnarrow : c.Narrow) (hsigned : build = .checked → c.Signed) :
    (start c (.new policy)).Orderly build where
  kept := Chain.start (AddressSpace.new_sound hfair) hvalid hnarrow
  booked l hl := by
    rw [List.mem_singleton.1 hl]
    exact .ofConfig c
  mirrors l hl := by
    rw [List.mem_singleton.1 hl]
    exact .ofConfig hvalid
  tally := by
    show Tally ([Level.ofConfig c].flatMap Level.holders) _
    rw [Chain.holders_start]
    exact .start hfair
  signed hchecked := ⟨hsigned hchecked, rfl⟩

theorem runs (hs : s.Orderly build) : s.space.Runs build := fun hchecked =>
  (hs.signed hchecked).clean

/-- The pools have the numbers of the settings, so that none of them outgrows a word. -/
theorem not_outgrows (hs : s.Orderly build) (hchecked : build = .checked) (c : AllocatorCall) :
    ¬ c.Outgrows s.allocator s.space := by
  cases c with
  | allocate size affinity =>
      have hc : Chain ([] ++ s.allocator.levels) s.space s.live := hs.kept
      obtain ⟨hproper, howned⟩ := hc.middle
      have hmirrors := (hs.mirrors _ (List.mem_cons_self ..)).pools affinity
      obtain ⟨hblock, halignment⟩ := (hs.signed hchecked).config.pool affinity
      refine Pool.not_outgrows (hproper.fit affinity).1 ?_ ?_ size
      · exact Nat.le_of_lt ((congrArg Pool.blockSize hmirrors :) ▸ hblock)
      · exact Nat.le_of_lt ((congrArg Pool.alignment hmirrors :) ▸ halignment)
  | _ => exact id

theorem serve (hs : s.Orderly build) (h : s.serve 0 c = .ok t) (hserving : c.Serving)
    (hkept : t.Kept) : t.Orderly build := by
  have hmoves := AllocatorCall.on_moves [] (fun l hl => (hs.booked l hl).indexed) (on_of_serve h)
  obtain ⟨hbooked, htally⟩ := Allocator.tally_of_moves hmoves hs.booked hs.mirrors hs.tally
  refine ⟨hkept, hbooked, Allocator.mirrors_of_moves hmoves hs.mirrors, htally, fun hchecked => ?_⟩
  refine ⟨serve_config hserving h ▸ (hs.signed hchecked).config, Bool.eq_false_iff.2 fun ho => ?_⟩
  have hchain : Chain ([] ++ s.allocator.levels) s.space s.live := hs.kept
  rcases (serve_overflowed hchain h).1 ho with ho | ho
  · exact absurd ho (Bool.eq_false_iff.1 (hs.runs hchecked))
  · exact hs.not_outgrows hchecked c ho

end Orderly

end HeapSession

/-- The journal accounts for what the workload holds, and so does the heap. -/
structure Tracks (build : Build) (events : List Event) (held : List Held) (s : HeapSession) :
    Prop where
  orderly : s.Orderly build
  grants : s.grants.Perm (held.map Held.grant)
  settled : ∃ live, events.foldlM Event.settle [] = some live ∧ live.Perm held

namespace Tracks

variable {build : Build} {events : List Event} {held rest : List Held} {s : HeapSession} {h : Held}

theorem perm (ht : Tracks build events held s) (hp : held.Perm rest) :
    Tracks build events rest s := by
  obtain ⟨live, hlive, hperm⟩ := ht.settled
  exact ⟨ht.orderly, ht.grants.trans (hp.map _), live, hlive, hperm.trans hp⟩

theorem settle (ht : Tracks build events held s) {event : Event}
    (he : ∀ live : List Held, live.Perm held → ∃ live', event.settle live = some live' ∧
      live'.Perm rest) :
    ∃ live, (events ++ [event]).foldlM Event.settle [] = some live ∧ live.Perm rest := by
  obtain ⟨live, hlive, hperm⟩ := ht.settled
  obtain ⟨live', hevent, hperm'⟩ := he live hperm
  refine ⟨live', ?_, hperm'⟩
  rw [List.foldlM_append, hlive]
  simp only [Option.bind_eq_bind, Option.bind_some, List.foldlM_cons, hevent]
  rfl

theorem allocate (ht : Tracks build events held s) (size : Nat) (affinity : Affinity) :
    (∃ t, s.allocator.allocate size affinity s.space = ((.ok none, t.allocator), t.space) ∧
        Tracks build (events ++ [.refused size]) held t) ∨
      ∃ address t,
        s.allocator.allocate size affinity s.space = ((.ok (some address), t.allocator), t.space) ∧
        Tracks build (events ++ [.obtained ⟨address, size⟩]) (⟨address, size⟩ :: held) t := by
  have hchain : Chain ([] ++ s.allocator.levels) s.space s.live := ht.orderly.kept
  obtain ⟨answer, a, space, hrun, hkept, -⟩ := HeapSession.exists_allocate hchain size affinity
  let t : HeapSession := ⟨a, space, Issued.add s.live size 0 answer⟩
  have hserve : s.serve 0 (.allocate size affinity) = .ok t := by rw [HeapSession.serve, hrun]
  have hkept : t.Kept := hkept
  have horderly := ht.orderly.serve hserve trivial hkept
  cases answer with
  | none =>
      refine .inl ⟨t, hrun, horderly, ht.grants, ?_⟩
      exact ht.settle fun live hperm => ⟨live, rfl, hperm⟩
  | some address =>
      refine .inr ⟨address, t, hrun, horderly, ht.grants.cons _, ?_⟩
      have hnew : ∀ k ∈ held, k.address ≠ address := by
        intro k hk heq
        have hdis := (List.pairwise_cons.1 hkept.apart).1 k.grant
          (ht.grants.mem_iff.2 (List.mem_map_of_mem hk))
        simp only [Region.Disjoint, Grant.region, Region.stop, Held.grant, heq] at hdis
        omega
      refine ht.settle fun live hperm => ⟨⟨address, size⟩ :: live, ?_, hperm.cons _⟩
      refine if_neg fun hmem => ?_
      obtain ⟨k, hk, heq⟩ := List.mem_map.1 hmem
      exact hnew k (hperm.mem_iff.1 hk) heq

theorem release (ht : Tracks build events held s) (hh : held.Perm (h :: rest)) :
    ∃ t, s.allocator.deallocate h.address h.size s.space = ((.ok true, t.allocator), t.space) ∧
      Tracks build (events ++ [.freed h true]) rest t := by
  have hgrants := ht.grants.trans (hh.map _)
  obtain ⟨i, hi, hig⟩ : ∃ i ∈ s.live, i.toGrant = h.grant :=
    Issued.mem_grants.1 (hgrants.mem_iff.2 (List.mem_cons_self ..))
  have hchain : Chain ([] ++ s.allocator.levels) s.space s.live := ht.orderly.kept
  obtain ⟨a, space, hsole, hkept, -⟩ := hchain.deallocate hi (Nat.zero_le _)
  have hrun := hsole.run
  rw [hig] at hrun hkept
  let t : HeapSession := ⟨a, space, Issued.withdraw s.live h.grant⟩
  have hserve : s.serve 0 (.release h.grant) = .ok t := by rw [HeapSession.serve, hrun]
  refine ⟨t, hrun, ht.orderly.serve hserve trivial hkept, ?_, ?_⟩
  · have herase := hgrants.erase h.grant
    rw [List.map_cons, List.erase_cons_head] at herase
    rwa [HeapSession.grants, Issued.grants_withdraw]
  · refine ht.settle fun live hperm => ?_
    have hmem : h ∈ live := (hperm.trans hh).mem_iff.2 (List.mem_cons_self ..)
    have herase := (hperm.trans hh).erase h
    rw [List.erase_cons_head] at herase
    exact ⟨live.erase h, if_pos ⟨rfl, hmem⟩, herase⟩

theorem reclaim (ht : Tracks build events held s) : ∃ n t,
    s.allocator.reclaim s.space = ((n, t.allocator), t.space) ∧ Tracks build events held t := by
  have hchain : Chain ([] ++ s.allocator.levels) s.space s.live := ht.orderly.kept
  obtain ⟨n, a, space, hrun, hkept, -⟩ := HeapSession.exists_reclaim hchain
  have hserve : s.serve 0 .reclaim = .ok ⟨a, space, s.live⟩ := by rw [HeapSession.serve, hrun]
  exact ⟨n, ⟨a, space, s.live⟩, hrun, ht.orderly.serve hserve trivial hkept, ht.grants, ht.settled⟩

theorem idle (ht : Tracks build events [] s) :
    (s.allocator.stats s.space.memory).reservedSize = 0 := by
  refine (ht.orderly.kept.accounted ht.orderly.booked).idle ?_
  exact List.map_eq_nil_iff.1 ht.grants.eq_nil

end Tracks

namespace Workload

variable [TomlReader] {σ : Type} {build : Build} {e : Environment} {source : Source σ}
  {events : List Event} {held rest : List Held} {h : Held} {i : Instance} {space : AddressSpace}

/-- The place of the allocator and the memory are those of a heap that the journal tracks. -/
def Carries (build : Build) (events : List Event) (held : List Held) (i : Instance)
    (space : AddressSpace) : Prop :=
  ∃ t : HeapSession, i = some t.allocator ∧ space = t.space ∧ Tracks build events held t

section Carries

omit [TomlReader]

theorem Carries.perm (hc : Carries build events held i space) (hp : held.Perm rest) :
    Carries build events rest i space := by
  obtain ⟨t, hi, hspace, ht⟩ := hc
  exact ⟨t, hi, hspace, ht.perm hp⟩

theorem releaseOne_ends (hc : Carries build events held i space) (hp : held.Perm (h :: rest)) :
    Ends (releaseOne i h) events space fun i events' space =>
      events' = events ++ [.freed h true] ∧ Carries build events' rest i space := by
  obtain ⟨s, rfl, rfl, hs⟩ := hc
  obtain ⟨t, hrun, ht⟩ := hs.release hp
  have hcall : Instance.deallocate (some s.allocator) h.address h.size s.space =
      ((.ok true, some t.allocator), t.space) := by
    simp only [Instance.deallocate, bind, StateT.bind, hrun]
    rfl
  exact .call hcall (.note (.pure ⟨rfl, t, rfl, rfl, ht⟩))

end Carries

theorem obtainOne_ends {chance : σ} {live : Array Held}
    (hc : Carries build events live.toList i space) :
    Ends (obtainOne build e source ⟨chance, live, i⟩) events space fun s events' space =>
      events'.length = events.length + 1 ∧ Carries build events' s.live.toList s.heap space := by
  obtain ⟨s, rfl, rfl, hs⟩ := hc
  let drawn := requestSize source chance
  let affinity : Affinity := ⟨UInt32.ofNat (source.narrow affinityCount drawn.2).1⟩
  rcases hs.allocate drawn.1 affinity with ⟨t, hrun, ht⟩ | ⟨address, t, hrun, ht⟩
  · have hcall : Instance.allocate e (some s.allocator) drawn.1 affinity s.space =
        ((.ok none, some t.allocator), t.space) := by
      simp only [Instance.allocate, Instance.allocator, bind, StateT.bind, hrun]
      rfl
    refine .call hcall (.verify ht.orderly.runs ?_)
    exact .note (.pure ⟨List.length_append, t, rfl, rfl, ht⟩)
  · have hcall : Instance.allocate e (some s.allocator) drawn.1 affinity s.space =
        ((.ok (some address), some t.allocator), t.space) := by
      simp only [Instance.allocate, Instance.allocator, bind, StateT.bind, hrun]
      rfl
    refine .call hcall (.verify ht.orderly.runs ?_)
    refine .note (.pure ⟨List.length_append, t, rfl, rfl, ht.perm ?_⟩)
    rw [Array.toList_push]
    exact (List.perm_append_singleton _ _).symm

theorem round_ends (hfair : source.Fair) {s : State σ}
    (hc : Carries build events s.live.toList s.heap space) :
    Ends (round build e source s) events space fun s events' space =>
      events'.length = events.length + 1 ∧ Carries build events' s.live.toList s.heap space := by
  obtain ⟨chance, live, i⟩ := s
  have hc : Carries build events live.toList i space := hc
  simp only [round]
  split
  · exact obtainOne_ends hc
  rename_i hsome
  split
  · have hpos : 0 < live.size := Array.size_pos_iff.2 fun h => hsome (h ▸ rfl)
    have hindex := (hfair live.size (source.event chance).2 hpos).2
    have hfound := Array.getElem?_eq_getElem hindex
    rw [hfound]
    refine .bind (releaseOne_ends hc (swapRemove_perm hfound)) ?_
    rintro i events' space ⟨rfl, hc⟩
    exact .pure ⟨List.length_append, hc⟩
  · exact obtainOne_ends hc

theorem rounds_ends (hfair : source.Fair) (n : Nat) {s : State σ}
    (hc : Carries build events s.live.toList s.heap space) :
    Ends (rounds build e source n s) events space fun s events' space =>
      events'.length = events.length + n ∧ Carries build events' s.live.toList s.heap space := by
  induction n generalizing s events space with
  | zero => exact .pure ⟨rfl, hc⟩
  | succ n ih =>
      refine .bind (round_ends hfair hc) ?_
      rintro s events' space ⟨hone, hc⟩
      refine (ih hc).imp fun _ _ _ ⟨hrest, hc⟩ => ⟨?_, hc⟩
      rw [hrest, hone]
      omega

/-- A journal goes on with releases that the heap knew of. -/
def Releasing (events events' : List Event) : Prop :=
  ∃ after, events' = events ++ after ∧ ∀ event ∈ after, ∃ h, event = .freed h true

section Releasing

omit [TomlReader]

theorem Releasing.refl (events : List Event) : Releasing events events :=
  ⟨[], (List.append_nil _).symm, fun _ h => absurd h List.not_mem_nil⟩

theorem Releasing.cons {events' : List Event} (hr : Releasing (events ++ [.freed h true]) events') :
    Releasing events events' := by
  obtain ⟨after, rfl, hafter⟩ := hr
  refine ⟨.freed h true :: after, List.append_assoc .., fun event hevent => ?_⟩
  rcases List.mem_cons.1 hevent with rfl | hevent
  · exact ⟨h, rfl⟩
  · exact hafter event hevent

theorem Releasing.trans {events' events'' : List Event} (h : Releasing events events')
    (h' : Releasing events' events'') : Releasing events events'' := by
  obtain ⟨after, rfl, hafter⟩ := h
  obtain ⟨after', rfl, hafter'⟩ := h'
  refine ⟨after ++ after', List.append_assoc .., fun event hevent => ?_⟩
  exact (List.mem_append.1 hevent).elim (hafter event) (hafter' event)

theorem thin_ends {n : Nat} {before : List Held}
    (hc : Carries build events (held ++ before) i space)
    (hcount : build = .checked → n + held.length < countLimit) :
    Ends (thin build (.ofNat n) i held) events space fun (kept, i) events' space =>
      Releasing events events' ∧ Carries build events' (kept ++ before) i space := by
  induction held generalizing n before events i space with
  | nil => exact .pure ⟨.refl events, hc⟩
  | cons h rest ih =>
      have hcount : build = .checked → n + 1 + rest.length < countLimit := fun hchecked => by
        have hlt := hcount hchecked
        rw [List.length_cons] at hlt
        omega
      have hnext : build = .checked → n + 1 < countLimit := fun hchecked =>
        Nat.lt_of_le_of_lt (Nat.le_add_right ..) (hcount hchecked)
      rw [thin, advance_eq hnext, pure_bind]
      split
      -- What is kept of the part ahead joins what was kept before.
      · refine .bind (ih (hc.perm List.perm_middle.symm) hcount) ?_
        rintro ⟨kept, i⟩ events' space ⟨hr, hc⟩
        exact .pure ⟨hr, hc.perm List.perm_middle⟩
      · refine .bind (releaseOne_ends hc (.refl _)) ?_
        rintro i events' space ⟨rfl, hc⟩
        exact (ih hc hcount).imp fun _ _ _ ⟨hr, hc⟩ => ⟨hr.cons, hc⟩

/-- A count that is checked panics where it comes to its end. -/
theorem thin_panics {n : Nat} {before : List Held}
    (hc : Carries .checked events (held ++ before) i space) (hn : n < countLimit)
    (hcount : countLimit ≤ n + held.length) :
    Panics (thin .checked (.ofNat n) i held) events space (.overflow "add")
      (Releasing events) := by
  induction held generalizing n before events i space with
  | nil => exact absurd hn (Nat.not_lt.2 hcount)
  | cons h rest ih =>
      rcases Nat.eq_or_lt_of_le (Nat.succ_le_of_lt hn) with hlast | hnext
      · exact .bind (advance_panics hlast (.refl events))
      have hcount : countLimit ≤ n + 1 + rest.length := by
        rw [List.length_cons] at hcount
        omega
      rw [thin, advance_eq fun _ => hnext, pure_bind]
      split
      · exact .bind (ih (hc.perm List.perm_middle.symm) hnext hcount)
      · refine (releaseOne_ends hc (.refl _)).panics ?_
        rintro i events' space ⟨rfl, hc⟩
        exact (ih hc hnext hcount).imp fun _ => .cons

theorem releaseAll_ends (hc : Carries build events held i space) :
    Ends (releaseAll i held) events space fun i events' space =>
      Releasing events events' ∧ Carries build events' [] i space := by
  induction held generalizing events i space with
  | nil => exact .pure ⟨.refl events, hc⟩
  | cons h rest ih =>
      refine .bind (releaseOne_ends hc (.refl _)) ?_
      rintro i events' space ⟨rfl, hc⟩
      exact (ih hc).imp fun _ _ _ ⟨hr, hc⟩ => ⟨hr.cons, hc⟩

end Releasing

theorem run_eq {n : Nat} {chance : σ} {s : State σ} {after : AddressSpace}
    (hrounds : rounds build e source n ⟨chance, #[], i⟩ [] space =
      ((.ok s, events.reverse), after)) :
    run build e source n chance i [] space =
      thin build 0 s.heap s.live.toList events.reverse after := by
  rw [run, bind_apply, hrounds]

end Workload

namespace Program

open Workload (Ends Panics Carries Releasing State countLimit)

/-- How a program ends that found nothing wrong: all that it obtained was given back, once and with
its own size, nothing is reserved at the end, and the check passed. -/
structure Clean (outcome : Outcome) (events : List Event) : Prop where
  settled : events.foldlM Event.settle [] = some []
  outcome : ∃ (report : String) (stats : HeapStats), stats.reservedSize = 0 ∧
    outcome = ⟨0, report ++ closingText stats ++ "Validation passed\n", ""⟩

/-- Behind its rounds a program does nothing but release, and it ends clean, unless it counts more
allocations left by them than it can. -/
def Concludes (build : Build) (o : Options) (outcome : Outcome) (events : List Event) : Prop :=
  ∃ during live, during.length = o.rounds ∧ during.foldlM Event.settle [] = some live ∧
    Releasing during events ∧
    if build = .checked ∧ countLimit ≤ live.length then outcome = aborted (.overflow "add")
    else Clean outcome events

variable [TomlReader] {σ : Type} {build : Build} {e : Environment} {source : Source σ}
  {chance : σ} {o : Options} {i : Instance} {space : AddressSpace} {events : List Event}
  {live : List Held}

theorem finish_ends (hc : Carries build events live i space) :
    Ends (finish o e live i) events space fun outcome events' _ =>
      Releasing events events' ∧ Clean outcome events' := by
  obtain ⟨s, rfl, rfl, hs⟩ := hc
  obtain ⟨text, t, hreclaim, ht⟩ : ∃ text t, reclaimIf o.reclaim s.allocator s.space =
      ((text, t.allocator), t.space) ∧ Tracks build events live t := by
    unfold reclaimIf
    split
    · obtain ⟨n, t, hrun, ht⟩ := hs.reclaim
      refine ⟨reclaimText n, t, ?_, ht⟩
      simp only [bind, StateT.bind, hrun]
      rfl
    · exact ⟨"", s, rfl, hs⟩
  refine .call hreclaim (.call (a := t.space) rfl ?_)
  have hvalid : (t.allocator.validate t.space.memory).isOk = true := by
    rw [Chain.validate ht.orderly.kept]
    rfl
  refine .bind (Workload.releaseAll_ends ⟨t, rfl, rfl, ht⟩) ?_
  rintro i events' space ⟨hafter, u, rfl, rfl, hu⟩
  obtain ⟨left, hsettled, hnone⟩ := hu.settled
  obtain rfl := hnone.eq_nil
  let report := (t.allocator.report t.space.memory).render
  let stats := u.allocator.stats u.space.memory
  refine .call (a := (some stats, none)) rfl (.pure ?_)
  refine ⟨hafter, hsettled, text ++ report, stats, hu.idle, ?_⟩
  simp only [verdict, hvalid, if_true]
  rfl

theorem work_concludes (hfair : source.Fair) (o : Options) (chance : σ)
    (hc : Carries build [] [] i space) :
    ∃ result events space', work build o e source chance i [] space =
        ((result, events.reverse), space') ∧
      Concludes build o (match result with | .ok outcome => outcome | .error p => aborted p)
        events := by
  obtain ⟨s, during, after, hrounds, hlength, hc⟩ :=
    Workload.rounds_ends (e := e) hfair o.rounds (s := ⟨chance, #[], i⟩) hc
  have hlength : during.length = o.rounds := hlength.trans (Nat.zero_add _)
  have hrun := Workload.run_eq hrounds
  obtain ⟨live, hlive, hcount⟩ : ∃ live, during.foldlM Event.settle [] = some live ∧
      live.length = s.live.toList.length := by
    obtain ⟨t, -, -, ht⟩ := hc
    obtain ⟨live, hlive, hperm⟩ := ht.settled
    exact ⟨live, hlive, hperm.length_eq⟩
  have hc : Carries build during (s.live.toList ++ []) s.heap after := by rwa [List.append_nil]
  by_cases hover : build = .checked ∧ countLimit ≤ live.length
  · obtain ⟨rfl, hle⟩ := hover
    obtain ⟨events, space', hthin, hafter⟩ :=
      Workload.thin_panics (n := 0) hc (by decide) (by omega)
    have hpanics : Panics (work .checked o e source chance i) [] space (.overflow "add")
        (Releasing during) := .bind ⟨events, space', hrun.trans hthin, hafter⟩
    obtain ⟨events, space', hrun, hafter⟩ := hpanics
    refine ⟨_, events, space', hrun, during, live, hlength, hlive, hafter, ?_⟩
    rw [if_pos ⟨rfl, hle⟩]
  · have hfew : build = .checked → 0 + s.live.toList.length < countLimit := fun hchecked => by
      have hlt := Nat.not_le.1 fun hle => hover ⟨hchecked, hle⟩
      omega
    obtain ⟨⟨kept, heap⟩, events, space', hthin, hr, hc⟩ := Workload.thin_ends (n := 0) hc hfew
    rw [List.append_nil] at hc
    have hthinned : Ends (Workload.run build e source o.rounds chance i) [] space
        fun (live, i) events space => Releasing during events ∧ Carries build events live i space :=
      ⟨(kept, heap), events, space', hrun.trans hthin, hr, hc⟩
    have hends : Ends (work build o e source chance i) [] space fun outcome events _ =>
        Releasing during events ∧ Clean outcome events := by
      refine .bind hthinned ?_
      rintro ⟨live, i⟩ events space ⟨hr, hc⟩
      exact (finish_ends hc).imp fun _ _ _ ⟨hafter, hclean⟩ => ⟨hr.trans hafter, hclean⟩
    obtain ⟨outcome, events, space', hrun, hafter, hclean⟩ := hends
    refine ⟨_, events, space', hrun, during, live, hlength, hlive, hafter, ?_⟩
    rwa [if_neg hover]

end Program

end AffinityHeap
