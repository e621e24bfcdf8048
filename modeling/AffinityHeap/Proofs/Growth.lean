import AffinityHeap.Proofs.Owner
import AffinityHeap.Proofs.Room

namespace AffinityHeap.Pool

variable {p p' : Pool} {s s' : AddressSpace} {live : List Grant} {C : List Holder}
  {b : Block} {base size : Nat} {candidates : List Nat}

theorem mem_candidates : base ∈ p.candidates ↔ p.usable base = true := by
  rw [candidates, List.mem_filter]
  refine ⟨fun h => h.2, fun h => ⟨?_, h⟩⟩
  obtain ⟨b, hb, -⟩ := usable_iff.1 h
  rw [List.mem_append, Option.mem_toList, List.mem_filter, List.mem_reverse, SortedMap.mem_keys]
  by_cases hcached : p.cached = some base
  · exact .inl hcached
  · exact .inr ⟨⟨b, hb⟩, by simpa using Ne.symm hcached⟩

/-- No block that the pool may use has room. -/
def Full (p : Pool) (size : Nat) (s : AddressSpace) : Prop :=
  ∀ base b, p.blocks.find? base = some b → p.alignment ≤ b.alignment → ¬ b.Serves size s

/-- The bytes of a new block for a request do not fit in a word. -/
def Outsized (p : Pool) (size : Nat) : Prop :=
  UInt64.size ≤ Block.bytesFor p.backend (p.newBlockSize size) p.alignment

instance (p : Pool) (size : Nat) : Decidable (p.Outsized size) :=
  inferInstanceAs (Decidable (_ ≤ _))

theorem newBlockSize_lt (hp : p.blockSize < UInt64.size) (size : Nat) :
    p.newBlockSize size < UInt64.size := by
  have hsize : p.backend.blockSizeFor size p.alignment < UInt64.size := by
    cases p.backend with
    | slot => exact wrap_lt _
    | segment => exact wrap_lt _
  rw [newBlockSize]
  omega

/-- Of a number of bytes that does not fit in a word nothing is left. -/
theorem Outsized.memorySize_eq (h : p.Outsized size) (hpower : IsPowerOfTwo p.alignment)
    (hp : p.blockSize < UInt64.size)
    (hcreate : Block.create p.backend (p.newBlockSize size) p.alignment s = (.ok b, s')) :
    b.memorySize = 0 := by
  have hlt := newBlockSize_lt hp size
  have hone : IsPowerOfTwo 1 := isPowerOfTwo_iff.2 ⟨0, rfl⟩
  rw [Outsized] at h
  rw [(Block.made_of_create hcreate).size_eq]
  cases hkind : p.backend with
  | slot =>
      rw [hkind] at h
      exact wrap_roundUp_of_le (powerOfTwo_max hpower (isPowerOfTwo_iff.2 ⟨2, rfl⟩)) hlt h
  | segment =>
      rw [hkind] at h
      have hmax : max (p.newBlockSize size) 1 < UInt64.size := Nat.max_lt.2 ⟨hlt, by decide⟩
      exact wrap_roundUp_of_le (powerOfTwo_max (powerOfTwo_max hpower hone) hone) hmax h

/-- The ways in which a request of a pool can end. A new block serves the request unless its size
came to nothing in a word. -/
inductive Ends (p : Pool) (size : Nat) (s : AddressSpace) :
    (Except HeapError (Option Nat) × Pool) × AddressSpace → Prop where
  | declined (hlarge : p.maximumAllocationSize < size) : Ends p size s ((.ok none, p), s)
  | reused {base address : Nat} {b b' : Block} {m : Memory}
      (hsize : size ≤ p.maximumAllocationSize) (hb : p.blocks.find? base = some b)
      (hle : p.alignment ≤ b.alignment) (hlike : b.Like b')
      (hrun : b.allocate size s = ((.ok (some address), b'), { s with memory := m })) :
      Ends p size s ((.ok (some address),
        { p with blocks := p.blocks.insert base b', cached := some base }), { s with memory := m })
  | refused {e : HeapError} {s' : AddressSpace} (hsize : size ≤ p.maximumAllocationSize)
      (hfull : p.Full size s)
      (hcreate : Block.create p.backend (p.newBlockSize size) p.alignment s = (.error e, s')) :
      Ends p size s ((.error e, p), s')
  | grown {answer : Option Nat} {b b' : Block} {s' : AddressSpace} {m : Memory}
      (hsize : size ≤ p.maximumAllocationSize) (hfull : p.Full size s)
      (hcreate : Block.create p.backend (p.newBlockSize size) p.alignment s = (.ok b, s'))
      (hfresh : p.blocks.find? b.base = none)
      (hserves : answer = none → p.Outsized size ∧ b' = b ∧ m = s'.memory) (hlike : b.Like b')
      (hrun : b.allocate size s' = ((.ok answer, b'), { s' with memory := m })) :
      Ends p size s ((.ok answer,
        { p with blocks := p.blocks.insert b.base b', cached := some b.base }),
        { s' with memory := m })

/-- Every block either serves a request or leaves no trace of it. -/
theorem allocateAmong_cases
    (hkeeps : ∀ k b, p.blocks.find? k = some b → ∃ live, b.Keeps s.memory live)
    (hsize : size ≤ Block.sizeLimit) (candidates : List Nat) :
    (allocateAmong size candidates p s = ((.ok none, p), s) ∧
      ∀ base ∈ candidates, ∀ b, p.blocks.find? base = some b → ¬ b.Serves size s) ∨
      ∃ base ∈ candidates, ∃ b address b' m, p.blocks.find? base = some b ∧ b.Like b' ∧
        b.allocate size s = ((.ok (some address), b'), { s with memory := m }) ∧
        allocateAmong size candidates p s = ((.ok (some address),
          { p with blocks := p.blocks.insert base b', cached := some base }),
          { s with memory := m }) := by
  induction candidates with
  | nil => exact .inl ⟨rfl, fun _ hk => absurd hk List.not_mem_nil⟩
  | cons base rest ih =>
      have hskip : (∀ b, p.blocks.find? base = some b → ¬ b.Serves size s) →
          allocateAmong size (base :: rest) p s = allocateAmong size rest p s := by
        intro hno
        have hrun : p.allocateIn base size s = ((.ok none, p), s) := by
          rw [allocateIn]
          cases hb : p.blocks.find? base with
          | none => rfl
          | some b =>
              obtain ⟨live, hk⟩ := hkeeps base b hb
              simp only [bind, StateT.bind, hk.refuses (hk.fits_of_le hsize) (hno b hb),
                SortedMap.insert_of_find? hb]
              rfl
        simp only [allocateAmong, bind, StateT.bind, hrun]
      by_cases hserves : ∃ b, p.blocks.find? base = some b ∧ b.Serves size s
      · obtain ⟨b, hb, hserves⟩ := hserves
        obtain ⟨live, hk⟩ := hkeeps base b hb
        obtain ⟨address, b', m, hrun, hlike⟩ := hk.serve (hk.fits_of_le hsize) hserves
        refine .inr ⟨base, List.mem_cons_self .., b, address, b', m, hb, hlike, hrun, ?_⟩
        simp only [allocateAmong, allocateIn, hb, bind, StateT.bind, hrun]
        rfl
      · have hno : ∀ b, p.blocks.find? base = some b → ¬ b.Serves size s :=
          fun b hb hs => hserves ⟨b, hb, hs⟩
        rw [hskip hno]
        rcases ih with ⟨hrun, hall⟩ | ⟨k, hk, hserved⟩
        · refine .inl ⟨hrun, fun k hk => ?_⟩
          rcases List.mem_cons.1 hk with rfl | hk
          · exact hno
          · exact hall k hk
        · exact .inr ⟨k, List.mem_cons_of_mem base hk, hserved⟩

theorem allocate_ends (hp : p.Proper) (ho : Owned (p.holders ++ C) s live) (size : Nat) :
    p.Ends size s (p.allocate size s) := by
  have hkeeps : ∀ k b, p.blocks.find? k = some b → ∃ live, b.Keeps s.memory live := fun k b hb =>
    ⟨_, ho.keeps (.block b) (List.mem_append_left C (mem_holders hb))⟩
  rw [allocate]
  by_cases hlarge : p.maximumAllocationSize < size
  · rw [if_pos hlarge]
    exact .declined hlarge
  have hsize := Nat.not_lt.1 hlarge
  rw [if_neg hlarge]
  rcases allocateAmong_cases hkeeps (hp.size_le hsize) p.candidates with
    ⟨hrun, hno⟩ | ⟨base, hbase, b, address, b', m, hb, hlike, hserve, hrun⟩
  · -- The scan passes over no block that the pool may use, so its failure says that all are full.
    have hfull : p.Full size s := fun base b hb hle =>
      hno base (mem_candidates.2 (usable_iff.2 ⟨b, hb, hle⟩)) b hb
    have hgrow : p.Ends size s (p.grow size s) := by
      rcases ho.create (p.newBlockSize size) hp.narrow with
        ⟨e, t, hcreate, -⟩ | ⟨b, t, hcreate, -, ho', -⟩
      · simp only [grow, ExceptT.run, bind, StateT.bind, hcreate]
        exact .refused hsize hfull hcreate
      · have hkeeps := Block.create_keeps ho.sound.fair.aligned hp.narrow hcreate
        have hfits := hkeeps.fits_of_le (hp.size_le hsize)
        by_cases hserves : b.Serves size t
        · obtain ⟨address, b', m, hrun, hlike⟩ := hkeeps.serve hfits hserves
          simp only [grow, ExceptT.run, bind, StateT.bind, hcreate, hrun, hlike.base]
          exact .grown hsize hfull hcreate (hp.fresh ho')
            (fun h => absurd h (Option.some_ne_none address)) hlike hrun
        · have hrun := hkeeps.refuses hfits hserves
          have houtsized : p.Outsized size := Nat.not_lt.1 fun hround => hserves <|
            Block.create_serves ho.sound.fair.aligned hp.narrow hcreate hsize
              (Nat.le_max_left ..) hround
          simp only [grow, ExceptT.run, bind, StateT.bind, hcreate, hrun]
          exact .grown hsize hfull hcreate (hp.fresh ho') (fun _ => ⟨houtsized, rfl, rfl⟩)
            ⟨rfl, rfl⟩ hrun
    simpa only [bind, StateT.bind, hrun] using hgrow
  · obtain ⟨c, hc, hle⟩ := usable_of_mem hbase
    obtain rfl := Option.some.inj (hb.symm.trans hc)
    simp only [bind, StateT.bind, hrun]
    exact .reused hsize hb hle hlike hserve

/-- A block that the pool may use has room for a request. -/
def Roomy (p : Pool) (m : Memory) (size : Nat) (b : Block) : Prop :=
  b ∈ p.blocks.values ∧ p.alignment ≤ b.alignment ∧ b.HasRoom m size

/-- A request gets the answer of one block, which the cache names from then on. -/
def AnswersFrom (p : Pool) (b : Block) (size : Nat) (answer : Option Nat) (s s' : AddressSpace) :
    Prop :=
  ∃ b' m, b.allocate size s' = ((.ok answer, b'), { s' with memory := m }) ∧ b.Like b' ∧
    p.allocate size s = ((.ok answer,
      { p with blocks := p.blocks.insert b.base b', cached := some b.base }),
      { s' with memory := m })

/-- When a request is declined, answered from a block at hand or from a new one, or turned down. -/
structure Grows (p : Pool) (s : AddressSpace) (size : Nat) : Prop where
  room : ∀ b ∈ p.blocks.values, b.Fits size → (b.Serves size s ↔ b.HasRoom s.memory size)
  declines : p.maximumAllocationSize < size → p.allocate size s = ((.ok none, p), s)
  declined : ∀ p' s', p.allocate size s = ((.ok none, p'), s') →
    p.maximumAllocationSize < size ∨ p.Outsized size
  reuses : size ≤ p.maximumAllocationSize → (∃ b, p.Roomy s.memory size b) →
    (∃ b address, p.Roomy s.memory size b ∧ p.AnswersFrom b size (some address) s s) ∧
      (p.allocate size s).1.2.blocks.keys = p.blocks.keys
  makes : size ≤ p.maximumAllocationSize → (¬ ∃ b, p.Roomy s.memory size b) → ∀ b s',
    Block.create p.backend (p.newBlockSize size) p.alignment s = (.ok b, s') →
      p.blocks.find? b.base = none ∧ ∃ answer, p.AnswersFrom b size answer s s' ∧
        (¬ p.Outsized size → (∃ address, answer = some address) ∧
          b.memorySize = Block.bytesFor p.backend (p.newBlockSize size) p.alignment) ∧
        (p.Outsized size → p.blockSize < UInt64.size → answer = none ∧ b.memorySize = 0)
  fails : size ≤ p.maximumAllocationSize → (¬ ∃ b, p.Roomy s.memory size b) → ∀ e s',
    Block.create p.backend (p.newBlockSize size) p.alignment s = (.error e, s') →
      p.allocate size s = ((.error e, p), s')

theorem serves_iff (hw : p.Whole) (ho : Owned (p.holders ++ C) s live)
    (hb : b ∈ p.blocks.values) (hfits : b.Fits size) :
    b.Serves size s ↔ b.HasRoom s.memory size := by
  obtain ⟨k, hk⟩ := SortedMap.mem_values.1 hb
  have hkeeps : b.Keeps s.memory _ :=
    ho.keeps (.block b) (List.mem_append_left C (mem_holders hk))
  exact hkeeps.serves_iff (hw b hb) hfits

theorem fits (hp : p.Proper) (ho : Owned (p.holders ++ C) s live) (hb : b ∈ p.blocks.values)
    (hsize : size ≤ p.maximumAllocationSize) : b.Fits size := by
  obtain ⟨k, hk⟩ := SortedMap.mem_values.1 hb
  have hkeeps : b.Keeps s.memory _ :=
    ho.keeps (.block b) (List.mem_append_left C (mem_holders hk))
  exact hkeeps.fits_of_le (hp.size_le hsize)

theorem full_iff (hp : p.Proper) (hw : p.Whole) (ho : Owned (p.holders ++ C) s live)
    (hsize : size ≤ p.maximumAllocationSize) :
    p.Full size s ↔ ¬ ∃ b, p.Roomy s.memory size b := by
  constructor
  · rintro hfull ⟨b, hb, hle, hroom⟩
    obtain ⟨k, hk⟩ := SortedMap.mem_values.1 hb
    exact hfull k b hk hle ((serves_iff hw ho hb (fits hp ho hb hsize)).2 hroom)
  · intro hnone base b hb hle hserves
    have hmem := SortedMap.mem_values.2 ⟨base, hb⟩
    exact hnone ⟨b, hmem, hle, (serves_iff hw ho hmem (fits hp ho hmem hsize)).1 hserves⟩

theorem grows (hp : p.Proper) (hw : p.Whole) (ho : Owned (p.holders ++ C) s live) (size : Nat) :
    p.Grows s size := by
  have hends := allocate_ends hp ho size
  refine ⟨fun b => serves_iff hw ho, fun hlarge => allocate_large hlarge s, fun p' s' h => ?_,
    fun hsize hroomy => ?_, fun hsize hnone b s' hcreate => ?_, fun hsize hnone e s' hcreate => ?_⟩
  · rw [h] at hends
    cases hends with
    | declined hlarge => exact .inl hlarge
    | grown _ _ _ _ hserves => exact .inr (hserves rfl).1
  all_goals
    have hfull := full_iff hp hw ho hsize
    generalize hrun : p.allocate size s = run at hends
  · cases hends with
    | declined hlarge => exact absurd hsize (Nat.not_le.2 hlarge)
    | @reused base address b b' m _ hb hle hlike hserve =>
        have hmem := SortedMap.mem_values.2 ⟨base, hb⟩
        refine ⟨⟨b, address, ⟨hmem, hle, ?_⟩, b', m, hserve, hlike, ?_⟩, ?_⟩
        · exact (serves_iff hw ho hmem (fits hp ho hmem hsize)).1 ⟨address, b', _, hserve⟩
        · rw [hrun, hp.keyed base b hb]
        · exact SortedMap.keys_insert hb b'
    | refused _ hno hcreate => exact absurd hroomy (hfull.1 hno)
    | grown _ hno hcreate hfresh hserves hlike hserve => exact absurd hroomy (hfull.1 hno)
  · cases hends with
    | declined hlarge => exact absurd hsize (Nat.not_le.2 hlarge)
    | reused _ hb hle hlike hserve => exact absurd ⟨_, _, _, hserve⟩ (hfull.2 hnone _ _ hb hle)
    | refused _ hno herr => cases hcreate.symm.trans herr
    | @grown answer _ b' _ m _ hno hok hfresh hserves hlike hserve =>
        cases hcreate.symm.trans hok
        refine ⟨hfresh, answer, ⟨b', m, hserve, hlike, hrun⟩, fun hfits => ⟨?_, ?_⟩,
          fun hout hp' => ⟨?_, hout.memorySize_eq hp.power hp' hcreate⟩⟩
        · exact Option.ne_none_iff_exists'.1 fun hnone => hfits (hserves hnone).1
        · rw [(Block.made_of_create hcreate).size_eq, wrap_of_lt (Nat.not_le.1 hfits)]
        · have hkeeps := Block.create_keeps ho.sound.fair.aligned hp.narrow hcreate
          refine Option.eq_none_iff_forall_ne_some.2 fun address haddress => ?_
          rw [haddress] at hserve
          exact hkeeps.not_serves_of_empty (hout.memorySize_eq hp.power hp' hcreate)
            ⟨_, _, _, hserve⟩
  · cases hends with
    | declined hlarge => exact absurd hsize (Nat.not_le.2 hlarge)
    | reused _ hb hle hlike hserve => exact absurd ⟨_, _, _, hserve⟩ (hfull.2 hnone _ _ hb hle)
    | refused _ hno herr =>
        cases hcreate.symm.trans herr
        rfl
    | grown _ hno hok hfresh hserves hlike hserve => cases hcreate.symm.trans hok

/-- Whether a request is served, and the bases of the blocks from then on. -/
def outcome (p : Pool) (s : AddressSpace) (size : Nat) : Except HeapError Bool × List Nat :=
  ((p.allocate size s).1.1.map Option.isSome, (p.allocate size s).1.2.blocks.keys)

/-- The cache decides which block serves a request and nothing else. -/
theorem outcome_cached (hp : p.Proper) (hw : p.Whole) (ho : Owned (p.holders ++ C) s live)
    (cached : Option Nat) (size : Nat) :
    outcome { p with cached } s size = p.outcome s size := by
  have h := grows hp hw ho size
  have h' : Grows { p with cached } s size :=
    grows (p := { p with cached }) ⟨hp.power, hp.narrow, hp.keyed⟩ hw ho size
  by_cases hsize : size ≤ p.maximumAllocationSize
  · by_cases hroomy : ∃ b, p.Roomy s.memory size b
    · obtain ⟨⟨b, a, -, b₁, m, -, -, hrun⟩, hkeys⟩ := h.reuses hsize hroomy
      obtain ⟨⟨c, a', -, c₁, m', -, -, hrun'⟩, hkeys'⟩ := h'.reuses hsize hroomy
      rw [outcome, outcome, hkeys, hkeys', hrun, hrun']
      rfl
    · rcases hcreate : Block.create p.backend (p.newBlockSize size) p.alignment s with ⟨e | b, t⟩
      · rw [outcome, outcome, h.fails hsize hroomy e t hcreate, h'.fails hsize hroomy e t hcreate]
      · obtain ⟨-, a, ⟨b₁, m, hserve, -, hrun⟩, -⟩ := h.makes hsize hroomy b t hcreate
        obtain ⟨-, a', ⟨c₁, m', hserve', -, hrun'⟩, -⟩ := h'.makes hsize hroomy b t hcreate
        cases hserve.symm.trans hserve'
        rw [outcome, outcome, hrun, hrun']
  · have hlarge := Nat.lt_of_not_le hsize
    have hlarge' : maximumAllocationSize { p with cached } < size := hlarge
    rw [outcome, outcome, allocate_large hlarge, allocate_large hlarge']

end AffinityHeap.Pool
