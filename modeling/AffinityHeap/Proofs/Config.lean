import AffinityHeap.Config.Basic

namespace AffinityHeap

theorem PoolConfig.validate_iff {p : PoolConfig} :
    p.validate = .ok () ↔ IsPowerOfTwo p.alignment ∧ p.blockSize ≠ 0 := by
  rw [validate, checkAlignment]
  by_cases hpower : IsPowerOfTwo p.alignment
  · rw [if_pos hpower]
    by_cases hzero : p.blockSize = 0
    · rw [if_pos hzero]
      exact ⟨fun h => (nomatch h), fun h => absurd hzero h.2⟩
    · rw [if_neg hzero]
      exact ⟨fun _ => ⟨hpower, hzero⟩, fun _ => rfl⟩
  · rw [if_neg hpower]
    exact ⟨fun h => (nomatch h), fun h => absurd h.1 hpower⟩

/-- No slot block is asked for an alignment that its headers cannot hold. -/
def PoolConfig.Narrow (p : PoolConfig) (backend : BackendKind) : Prop :=
  p.backend.getD backend = .slot → p.alignment < 131072

instance (p : PoolConfig) (backend : BackendKind) : Decidable (p.Narrow backend) :=
  inferInstanceAs (Decidable (_ → _))

namespace Config

variable {c : Config}

structure Narrow (c : Config) : Prop where
  defaults : c.backend = .slot → c.defaultAlignment < 131072
  pools : ∀ p ∈ c.pools, p.Narrow c.backend

theorem validatePools_iff {pools : List PoolConfig} {seen : List Affinity} :
    validatePools seen pools = .ok () ↔
      (∀ p ∈ pools, p.validate = .ok () ∧ p.affinity ∉ seen) ∧
        (pools.map (·.affinity)).Nodup := by
  induction pools generalizing seen with
  | nil => simp [validatePools]
  | cons p rest ih =>
      rw [validatePools]
      cases hp : p.validate with
      | error e =>
          refine ⟨fun h => (nomatch h), fun h => ?_⟩
          cases hp.symm.trans (h.1 p (List.mem_cons_self ..)).1
      | ok u =>
          by_cases hseen : p.affinity ∈ seen
          · rw [if_pos hseen]
            exact ⟨fun h => (nomatch h),
              fun h => absurd hseen (h.1 p (List.mem_cons_self ..)).2⟩
          · rw [if_neg hseen]
            refine ih.trans ?_
            simp only [List.mem_cons, not_or, forall_eq_or_imp, List.map_cons, List.nodup_cons,
              List.mem_map, not_exists, not_and]
            grind

theorem validate_iff : c.validate = .ok () ↔ IsPowerOfTwo c.defaultAlignment ∧
    c.defaultBlockSize ≠ 0 ∧ (∀ p ∈ c.pools, p.validate = .ok ()) ∧
      (c.pools.map (·.affinity)).Nodup := by
  rw [validate, checkAlignment]
  by_cases hpower : IsPowerOfTwo c.defaultAlignment
  · rw [if_pos hpower]
    by_cases hzero : c.defaultBlockSize = 0
    · rw [if_pos hzero]
      exact ⟨fun h => (nomatch h), fun h => absurd hzero h.2.1⟩
    · rw [if_neg hzero]
      refine validatePools_iff.trans ?_
      simp only [List.not_mem_nil, not_false_eq_true, and_true, hpower, ne_eq, hzero, true_and]
  · rw [if_neg hpower]
    exact ⟨fun h => (nomatch h), fun h => absurd h.1 hpower⟩

theorem power_of_validate (h : c.validate = .ok ()) :
    IsPowerOfTwo c.defaultAlignment ∧ ∀ p ∈ c.pools, IsPowerOfTwo p.alignment := by
  obtain ⟨hdefault, -, hpools, -⟩ := validate_iff.1 h
  exact ⟨hdefault, fun p hp => (PoolConfig.validate_iff.1 (hpools p hp)).1⟩

theorem pool_cases (c : Config) (a : Affinity) :
    c.pool a ∈ c.pools ∨ (c.pool a).backend = none ∧ (c.pool a).alignment = c.defaultAlignment := by
  rw [pool]
  split
  · rename_i p hp
    exact .inl (List.mem_of_find?_eq_some hp)
  · exact .inr ⟨rfl, rfl⟩

theorem find?_recordIn {p : PoolConfig} {a : Affinity} (h : p.affinity ≠ a)
    (l : List PoolConfig) :
    (recordIn p l).find? (fun q => q.affinity == a) = l.find? (fun q => q.affinity == a) := by
  have hp : (p.affinity == a) = false := beq_eq_false_iff_ne.2 h
  induction l with
  | nil => simp only [recordIn, List.find?_cons, hp]
  | cons q rest ih =>
      rw [recordIn]
      split
      · rename_i hq
        simp only [List.find?_cons, hp, hq]
      · simp only [List.find?_cons, ih]

theorem pool_record {p : PoolConfig} {a : Affinity} (h : p.affinity ≠ a) (c : Config) :
    (c.record p).pool a = c.pool a := by
  simp only [pool, record, find?_recordIn h]

theorem pool_affinity (c : Config) (a : Affinity) : (c.pool a).affinity = a := by
  rw [pool]
  split
  · rename_i p hp
    have haffinity := List.find?_some hp
    exact beq_iff_eq.1 haffinity
  · rfl

theorem pool_validate (h : c.validate = .ok ()) (a : Affinity) : (c.pool a).validate = .ok () := by
  obtain ⟨hpower, hzero, hpools, -⟩ := validate_iff.1 h
  rw [pool]
  split
  · rename_i p hp
    exact hpools p (List.mem_of_find?_eq_some hp)
  · exact PoolConfig.validate_iff.2 ⟨hpower, hzero⟩

theorem mem_recordIn {p q : PoolConfig} {l : List PoolConfig} (h : q ∈ recordIn p l) :
    q = p ∨ q ∈ l := by
  induction l with
  | nil => exact .inl (List.mem_singleton.1 h)
  | cons r rest ih =>
      rw [recordIn] at h
      split at h
      · exact (List.mem_cons.1 h).imp_right (List.mem_cons_of_mem r)
      · rcases List.mem_cons.1 h with rfl | h
        · exact .inr (List.mem_cons_self ..)
        · exact (ih h).imp_right (List.mem_cons_of_mem r)

theorem nodup_recordIn {p : PoolConfig} {l : List PoolConfig}
    (h : (l.map (·.affinity)).Nodup) : ((recordIn p l).map (·.affinity)).Nodup := by
  induction l with
  | nil => exact List.pairwise_singleton ..
  | cons r rest ih =>
      obtain ⟨hnot, hnd⟩ := List.nodup_cons.1 h
      rw [recordIn]
      split
      · rename_i hr
        refine List.nodup_cons.2 ⟨?_, hnd⟩
        show p.affinity ∉ _
        rw [← hr]
        exact hnot
      · rename_i hr
        refine List.nodup_cons.2 ⟨fun hmem => ?_, ih hnd⟩
        obtain ⟨q, hq, hqr⟩ := List.mem_map.1 hmem
        rcases mem_recordIn hq with rfl | hq
        · exact hr hqr.symm
        · exact hnot (List.mem_map.2 ⟨q, hq, hqr⟩)

/-- Valid settings stay valid when those of a pool are replaced by valid ones. -/
theorem record_validate {p : PoolConfig} (h : c.validate = .ok ()) (hp : p.validate = .ok ()) :
    (c.record p).validate = .ok () := by
  obtain ⟨hpower, hzero, hpools, hnd⟩ := validate_iff.1 h
  refine validate_iff.2 ⟨hpower, hzero, fun q hq => ?_, nodup_recordIn hnd⟩
  rcases mem_recordIn hq with rfl | hq
  · exact hp
  · exact hpools q hq

end Config

end AffinityHeap
