import AffinityHeap.Proofs.Demand

namespace AffinityHeap

namespace Config

variable {c : Config} {p : PoolConfig}

theorem find?_recordIn_self (p : PoolConfig) (l : List PoolConfig) :
    (recordIn p l).find? (fun q => q.affinity == p.affinity) = some p := by
  induction l with
  | nil => exact List.find?_cons_of_pos BEq.rfl
  | cons q rest ih =>
      rw [recordIn]
      split
      · exact List.find?_cons_of_pos BEq.rfl
      · rename_i hq
        rw [List.find?_cons_of_neg (by simpa using hq), ih]

theorem pool_record_self (c : Config) (p : PoolConfig) : (c.record p).pool p.affinity = p := by
  simp only [pool, record, find?_recordIn_self]

theorem find?_of_nodup {l : List PoolConfig} (hnd : (l.map (·.affinity)).Nodup) (hp : p ∈ l) :
    l.find? (fun q => q.affinity == p.affinity) = some p := by
  induction l with
  | nil => cases hp
  | cons q rest ih =>
      obtain ⟨hnot, hnd⟩ := List.nodup_cons.1 hnd
      rcases List.mem_cons.1 hp with rfl | hp
      · exact List.find?_cons_of_pos BEq.rfl
      · rw [List.find?_cons_of_neg, ih hnd hp]
        intro heq
        exact hnot (List.mem_map.2 ⟨p, hp, (beq_iff_eq.1 heq).symm⟩)

theorem pool_of_mem (hvalid : c.validate = .ok ()) (hp : p ∈ c.pools) : c.pool p.affinity = p := by
  obtain ⟨-, -, -, hnodup⟩ := validate_iff.1 hvalid
  simp only [pool, find?_of_nodup hnodup hp]

end Config

namespace Level

variable {l l' : Level} {p : Pool} {a : Affinity} {c : Config} {s s' : AddressSpace}
  {x y : Level × AddressSpace}

theorem poolOf_ofConfig (hvalid : c.validate = .ok ()) (a : Affinity) :
    (ofConfig c).poolOf a = Pool.ofConfig (c.pool a) c.backend := by
  cases hfind : (ofConfig c).pools.find? a.index with
  | none =>
      rw [poolOf, hfind]
      rfl
  | some p =>
      obtain ⟨q, hq, hindex, rfl⟩ := find?_ofConfig hfind
      obtain rfl := Affinity.index_injective hindex
      rw [poolOf_of_find? hfind, Config.pool_of_mem hvalid hq]

/-- The pools have the settings that the configuration records for them. -/
structure Mirrors (l : Level) : Prop where
  valid : l.config.validate = .ok ()
  pools : ∀ a, (l.poolOf a).emptied = Pool.ofConfig (l.config.pool a) l.config.backend

namespace Mirrors

theorem ofConfig (hvalid : c.validate = .ok ()) : (ofConfig c).Mirrors := by
  refine ⟨hvalid, fun a => ?_⟩
  rw [poolOf_ofConfig hvalid]
  rfl

theorem affinity (hl : l.Mirrors) (a : Affinity) : (l.poolOf a).affinity = a :=
  (congrArg Pool.affinity (hl.pools a) :).trans (l.config.pool_affinity a)

theorem withPool (hl : l.Mirrors) (hp : p.emptied = (l.poolOf a).emptied) :
    (l.withPool p).Mirrors := by
  have hpa : p.affinity = a := (congrArg Pool.affinity hp :).trans (hl.affinity a)
  refine ⟨hl.valid, fun b => ?_⟩
  rw [poolOf_withPool]
  split
  · rename_i hb
    rw [hp, hl.pools, ← hb, hpa]
    rfl
  · exact hl.pools b

theorem changed {answer : Except HeapError Unit} (hl : l.Mirrors) (h : l.Changed a answer l') :
    l'.Mirrors := by
  cases h with
  | refused e => exact hl
  | made e => exact hl.withPool rfl
  | recorded p q haffinity hblocks hsettings hvalid hsame =>
      refine ⟨Config.record_validate hl.valid (hvalid hl.valid), fun b => ?_⟩
      -- The pool asked for changes with its record; every other one keeps its own.
      by_cases hab : a = b
      · subst hab
        have hfind : (l.withPool p).pools.find? a.index = some p := by
          rw [find?_withPool, if_pos (congrArg Affinity.index haffinity)]
        have hpool : (l.config.record q).pool a = q := by
          rw [← hsettings, Config.pool_record_self]
        simp only [poolOf, hfind, Option.getD_some, hpool]
        exact hsame (hl.pools a)
      · have hpool : (l.config.record q).pool b = l.config.pool b :=
          Config.pool_record (fun heq => hab (hsettings.symm.trans heq)) _
        have hfind : (l.withPool p).pools.find? b.index = l.pools.find? b.index := by
          rw [find?_withPool, if_neg]
          exact fun heq => hab (haffinity.symm.trans (Affinity.index_injective heq))
        simp only [poolOf, hfind, hpool]
        exact hl.pools b

theorem move (hl : x.1.Mirrors) (h : Move x y) : y.1.Mirrors := by
  cases h with
  | pool affinity hmoves => exact hl.withPool (Pool.emptied_eq_of_moves hmoves)
  | refuse hrefused => exact hl
  | enlarge hrun => exact ⟨hl.valid, hl.pools⟩
  | release l s address => exact ⟨hl.valid, hl.pools⟩
  | change affinity hchanged => exact hl.changed hchanged

end Mirrors

section Config

theorem allocate_config (l : Level) (size : Nat) (a : Affinity) (s : AddressSpace) :
    (l.allocate size a s).1.2.config = l.config := by
  have hlarge : ∀ (p : Pool) (s : AddressSpace),
      ((l.withPool p).allocateLarge size p.alignment s).1.2.config = l.config := fun p s => by
    rcases hrun : (l.withPool p).large.allocate size p.alignment s with ⟨_ | _, _⟩ <;>
      simp only [allocateLarge, ExceptT.run, bind, StateT.bind, hrun] <;> rfl
  rcases hrun : (l.poolOf a).allocate size s with ⟨⟨(_ | _) | _ | _, p⟩, s'⟩ <;>
    simp only [allocate, bind, StateT.bind, hrun]
  all_goals first | exact hlarge p s' | rfl

theorem deallocateAmong_config (address size : Nat) (pools : List Pool) (l : Level)
    (s : AddressSpace) : (deallocateAmong address size pools l s).1.2.config = l.config := by
  induction pools generalizing s with
  | nil => rfl
  | cons p rest ih =>
      rcases hrun : p.deallocate address size s with ⟨⟨_ | _ | _, p'⟩, s'⟩ <;>
        simp only [deallocateAmong, bind, StateT.bind, hrun]
      · rfl
      · exact ih s'
      · rfl

theorem deallocate_config (l : Level) (address size : Nat) (s : AddressSpace) :
    (l.deallocate address size s).1.2.config = l.config := by
  have hamong := deallocateAmong_config address size l.pools.values l s
  rcases hrun : deallocateAmong address size l.pools.values l s with ⟨⟨_ | _ | _, l'⟩, s'⟩ <;>
    rw [hrun] at hamong <;> simp only [deallocate, bind, StateT.bind, hrun] <;> exact hamong

theorem reclaimAmong_config (pools : List Pool) (l : Level) (s : AddressSpace) :
    (reclaimAmong pools l s).1.2.config = l.config := by
  induction pools generalizing l s with
  | nil => rfl
  | cons p rest ih => exact ih _ _

end Config

theorem withPool_eq_self (hfind : l.pools.find? p.affinity.index = some p) : l.withPool p = l := by
  rw [withPool, SortedMap.insert_of_find? hfind]

/-- At most an empty pool is added, with the settings that are recorded for it. -/
def Unchanged (l : Level) (a : Affinity) (l' : Level) : Prop :=
  l' = l ∨ l.pools.find? a.index = none ∧
    l' = l.withPool (Pool.ofConfig (l.config.pool a) l.config.backend)

theorem Indexed.unchanged (hl : l.Indexed) (a : Affinity) :
    l.Unchanged a (l.withPool (l.poolOf a)) := by
  cases hfind : l.pools.find? a.index with
  | none =>
      refine .inr ⟨hfind, ?_⟩
      rw [poolOf, hfind]
      rfl
  | some p =>
      have hindex : p.affinity.index = a.index := hl _ p hfind
      rw [poolOf_of_find? hfind]
      exact .inl (withPool_eq_self (hindex ▸ hfind))

theorem Changed.unchanged {e : HeapError} (h : l.Changed a (.error e) l') (hl : l.Indexed) :
    l.Unchanged a l' := by
  cases h with
  | refused e => exact .inl rfl
  | made e => exact hl.unchanged a

/-- What the configuration of an allocator tells of its pools. -/
structure Mirrored (l : Level) : Prop where
  valid : l.config.validate = .ok ()
  settings : ∀ a p, l.pools.find? a.index = some p →
    p.affinity = a ∧ p.name = (l.config.pool a).displayName ∧
      p.blockSize = (l.config.pool a).blockSize ∧ p.alignment = (l.config.pool a).alignment ∧
      p.backend = (l.config.pool a).backend.getD l.config.backend
  rebuilt : ∃ b, Allocator.new l.config = .ok b ∧
    ∀ a, b.outer.poolOf a = (l.poolOf a).emptied
  blockSize : ∀ a blockSize e l', l.setBlockSize a blockSize = (.error e, l') → l.Unchanged a l'
  alignment : ∀ a alignment e l', l.setAlignment a alignment = (.error e, l') → l.Unchanged a l'
  pool : ∀ settings e l', l.configurePool settings = (.error e, l') →
    l.Unchanged settings.affinity l'

theorem Mirrors.mirrored (hl : l.Mirrors) (hindexed : l.Indexed) : l.Mirrored where
  valid := hl.valid
  settings a p hfind := by
    have hsettings := hl.pools a
    rw [poolOf_of_find? hfind] at hsettings
    exact ⟨Affinity.index_injective (hindexed _ p hfind), (congrArg Pool.name hsettings :),
      (congrArg Pool.blockSize hsettings :), (congrArg Pool.alignment hsettings :),
      (congrArg Pool.backend hsettings :)⟩
  rebuilt := by
    refine ⟨⟨.ofConfig l.config, []⟩, Allocator.new_valid hl.valid, fun a => ?_⟩
    rw [hl.pools]
    exact poolOf_ofConfig hl.valid a
  blockSize a blockSize e l' hrun := by
    have hchanged := setBlockSize_changed hindexed a blockSize
    rw [hrun] at hchanged
    exact hchanged.unchanged hindexed
  alignment a alignment e l' hrun := by
    have hchanged := setAlignment_changed hindexed a alignment
    rw [hrun] at hchanged
    exact hchanged.unchanged hindexed
  pool settings e l' hrun := by
    have hchanged := configurePool_changed hindexed settings
    rw [hrun] at hchanged
    exact hchanged.unchanged hindexed

end Level

theorem Allocator.deallocate_config (a : Allocator) (address size : Nat) (s : AddressSpace) :
    (a.deallocate address size s).1.2.config = a.config := by
  have houter := a.outer.deallocate_config address size s
  rcases hrun : a.outer.deallocate address size s with ⟨⟨_ | _ | _, outer⟩, s'⟩ <;>
    rw [hrun] at houter <;> simp only [deallocate, bind, StateT.bind, hrun] <;> exact houter

namespace Demand

/-- At every point of the life of an allocator, whatever its clients ask for, it and every other
one of its chain can be made anew from their configurations. -/
theorem serveAll_mirrored [TomlReader] {c : Config} (hvalid : c.validate = .ok ()) (e : Environment)
    (demands : List Demand) (s : AddressSpace) : ∃ a, Allocator.new c = .ok a ∧
      ∀ l ∈ (serveAll e demands (some a) s).1.levels, l.Mirrored := by
  refine ⟨⟨.ofConfig c, []⟩, Allocator.new_valid hvalid, fun l hl => ?_⟩
  have hmirrors : ∀ l ∈ Instance.levels (some ⟨.ofConfig c, []⟩), l.Mirrors := fun l hl => by
    rw [List.mem_singleton.1 hl]
    exact .ofConfig hvalid
  have hindexed : ∀ l ∈ Instance.levels (some ⟨.ofConfig c, []⟩), l.Indexed := fun l hl => by
    rw [List.mem_singleton.1 hl]
    exact Level.indexed_ofConfig c
  have hmoves := serveAll_moves e demands s hindexed
  refine Level.Mirrors.mirrored ?_ (Allocator.indexed_of_moves hindexed hmoves l hl)
  exact Allocator.forall_of_moves (fun _ _ h hl => hl.move h) (fun _ => .ofConfig) hmirrors hmoves
    l hl

theorem serveAll_mirrored_small : Config.default.validate = .ok () ∧
    ∃ a, Allocator.new .default = .ok a ∧
      ((a.outer.setBlockSize .data 0).2.setAlignment .nodes 64).2.Mirrored := by
  obtain ⟨a, hnew, hmirrored⟩ := serveAll_mirrored (c := .default) (by decide)
    ⟨none, none, fun _ => .error .missing⟩
    [.call (.setBlockSize .data 0), .call (.setAlignment .nodes 64)]
    (.new (.sideBySide false 16 0))
  exact ⟨by decide, a, hnew, hmirrored _ (List.mem_cons_self ..)⟩

end Demand

end AffinityHeap
