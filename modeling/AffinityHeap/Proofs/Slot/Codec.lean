import AffinityHeap.Proofs.Slot.Completes

namespace AffinityHeap

namespace SlotStatus

variable {s : SlotStatus} {n : Nat}

theorem code_le (s : SlotStatus) : s.code ≤ 1 := by
  cases s <;> decide

theorem ofCode?_code (s : SlotStatus) : ofCode? s.code = some s := by
  cases s <;> rfl

theorem ofCode?_eq_none_iff : ofCode? n = none ↔ 1 < n := by
  constructor
  · intro hnone
    match n, hnone with
    | _ + 2, _ => exact Nat.le_add_left ..
  · intro hn
    obtain ⟨k, rfl⟩ := Nat.exists_eq_add_of_le' hn
    rfl

theorem ofCode?_eq_some_iff : ofCode? n = some s ↔ s.code = n := by
  constructor
  · intro hsome
    match n, hsome with
    | 0, rfl => rfl
    | 1, rfl => rfl
  · rintro rfl
    exact ofCode?_code s

end SlotStatus

namespace SlotHeader

/-- The fields of a header's word, the lowest first. -/
inductive Field where
  | back
  | span
  | status
  deriving DecidableEq

namespace Field

def offset : Field → UInt32
  | .back => 0
  | .span => 15
  | .status => 30

def mask : Field → UInt32
  | .back => 0x7fff
  | .span => 0x7fff
  | .status => 3

def value : Field → SlotHeader → Nat
  | .back, h => h.back
  | .span, h => h.span
  | .status, h => h.status.code

/-- What a word holds in the field's place. -/
def bits (f : Field) (w : UInt32) : UInt32 := w >>> f.offset &&& f.mask

/-- The field's number, cut to the width of the field and moved to its place. -/
def placed (f : Field) (h : SlotHeader) : UInt32 :=
  (UInt32.ofNat (f.value h) &&& f.mask) <<< f.offset

/-- The headers agree but for this one field. -/
def Alone (f : Field) (old new : SlotHeader) : Prop := ∀ g ≠ f, g.value new = g.value old

variable {v w : UInt32}

theorem toNat_and_mask (f : Field) (w : UInt32) :
    (w &&& f.mask).toNat = w.toNat % (f.mask.toNat + 1) := by
  rw [UInt32.toNat_and]
  cases f with
  | back => exact Nat.and_two_pow_sub_one_eq_mod _ 15
  | span => exact Nat.and_two_pow_sub_one_eq_mod _ 15
  | status => exact Nat.and_two_pow_sub_one_eq_mod _ 2

theorem toNat_ofNat_and_mask (f : Field) (n : Nat) :
    (UInt32.ofNat n &&& f.mask).toNat = n % (f.mask.toNat + 1) := by
  rw [toNat_and_mask, UInt32.toNat_ofNat']
  refine Nat.mod_mod_of_dvd n ?_
  cases f <;> decide

theorem toNat_bits (f : Field) (w : UInt32) :
    (f.bits w).toNat = w.toNat >>> f.offset.toNat % (f.mask.toNat + 1) := by
  rw [bits, toNat_and_mask, UInt32.toNat_shiftRight]
  cases f <;> rfl

theorem toNat_bits_lt (f : Field) (w : UInt32) : (f.bits w).toNat < f.mask.toNat + 1 := by
  rw [toNat_bits]
  exact Nat.mod_lt _ (Nat.succ_pos _)

theorem toNat_bits_back (w : UInt32) : (back.bits w).toNat = w.toNat % 0x8000 :=
  toNat_bits back w

theorem toNat_bits_span (w : UInt32) : (span.bits w).toNat = w.toNat / 0x8000 % 0x8000 := by
  rw [toNat_bits, Nat.shiftRight_eq_div_pow]
  rfl

theorem toNat_bits_status (w : UInt32) : (status.bits w).toNat = w.toNat / 0x40000000 := by
  have hw : w.toNat < 0x100000000 := w.toNat_lt
  have hlt : w.toNat / 0x40000000 < 4 := by omega
  rw [toNat_bits, Nat.shiftRight_eq_div_pow]
  exact Nat.mod_eq_of_lt hlt

theorem toNat_placed (f : Field) (h : SlotHeader) :
    (f.placed h).toNat = (f.value h % (f.mask.toNat + 1)) <<< f.offset.toNat := by
  have hoffset : f.offset.toNat % 32 = f.offset.toNat := by cases f <;> rfl
  have hroom : (f.mask.toNat + 1) <<< f.offset.toNat ≤ 0x100000000 := by cases f <;> decide
  have hlt : f.value h % (f.mask.toNat + 1) < f.mask.toNat + 1 := Nat.mod_lt _ (Nat.succ_pos _)
  rw [placed, UInt32.toNat_shiftLeft, toNat_ofNat_and_mask, hoffset]
  refine Nat.mod_eq_of_lt (Nat.lt_of_lt_of_le ?_ hroom)
  rw [Nat.shiftLeft_eq, Nat.shiftLeft_eq]
  exact Nat.mul_lt_mul_of_pos_right hlt (Nat.two_pow_pos _)

theorem ext_bits (hbits : ∀ f : Field, f.bits v = f.bits w) : v = w := by
  have hback := congrArg UInt32.toNat (hbits .back)
  have hspan := congrArg UInt32.toNat (hbits .span)
  have hstatus := congrArg UInt32.toNat (hbits .status)
  rw [toNat_bits_back, toNat_bits_back] at hback
  rw [toNat_bits_span, toNat_bits_span] at hspan
  rw [toNat_bits_status, toNat_bits_status] at hstatus
  rw [← UInt32.toNat_inj]
  omega

/-- A field keeps as much of its number as there is room for, whatever the others hold. -/
theorem toNat_bits_encode (f : Field) (h : SlotHeader) :
    (f.bits h.encode).toNat = f.value h % (f.mask.toNat + 1) := by
  have hcode : h.status.code ≤ 1 := h.status.code_le
  cases f with
  | back =>
      rw [toNat_bits_back, toNat_encode]
      show _ = h.back % 0x8000
      omega
  | span =>
      rw [toNat_bits_span, toNat_encode]
      show _ = h.span % 0x8000
      omega
  | status =>
      rw [toNat_bits_status, toNat_encode]
      show _ = h.status.code % 4
      omega

theorem alone_back (h : SlotHeader) (n : Nat) : back.Alone h { h with back := n } := by
  intro g hg
  cases g with
  | back => exact absurd rfl hg
  | span => rfl
  | status => rfl

theorem alone_span (h : SlotHeader) (n : Nat) : span.Alone h { h with span := n } := by
  intro g hg
  cases g with
  | back => rfl
  | span => exact absurd rfl hg
  | status => rfl

theorem alone_status (h : SlotHeader) (s : SlotStatus) :
    status.Alone h { h with status := s } := by
  intro g hg
  cases g with
  | back => rfl
  | span => rfl
  | status => exact absurd rfl hg

end Field

variable {w : UInt32} {h new : SlotHeader} {p : Nat} {f g : Field}

theorem encode_eq_or (h : SlotHeader) :
    h.encode = Field.status.placed h ||| (Field.span.placed h ||| Field.back.placed h) := by
  have hback : (Field.back.placed h).toNat = h.back % 0x8000 := Field.toNat_placed .back h
  have hspan : (Field.span.placed h).toNat = (h.span % 0x8000) <<< 15 :=
    Field.toNat_placed .span h
  have hstatus : (Field.status.placed h).toNat = (h.status.code % 4) <<< 30 :=
    Field.toNat_placed .status h
  have hlow : h.back % 0x8000 < 2 ^ 15 := Nat.mod_lt _ (by decide)
  have hspans : (h.span % 0x8000) <<< 15 + h.back % 0x8000 < 2 ^ 30 := by
    rw [Nat.shiftLeft_eq]
    omega
  have hcode : h.status.code ≤ 1 := h.status.code_le
  -- the parts share no bit, so that or-ing them adds them up
  rw [← UInt32.toNat_inj, UInt32.toNat_or, UInt32.toNat_or, hback, hspan, hstatus,
    ← Nat.shiftLeft_add_eq_or_of_lt hlow, ← Nat.shiftLeft_add_eq_or_of_lt hspans, toNat_encode,
    Nat.shiftLeft_eq, Nat.shiftLeft_eq]
  omega

theorem fits_iff : h.Fits ↔ ∀ f : Field, f.value h ≤ f.mask.toNat := by
  constructor
  · intro hfits f
    cases f with
    | back => exact hfits.back
    | span => exact hfits.span
    | status => exact Nat.le_trans h.status.code_le (by decide)
  · intro hvalue
    exact ⟨hvalue .back, hvalue .span⟩

theorem decode_eq_ok_iff : decode w p = .ok h ↔ ∀ f : Field, f.value h = (f.bits w).toNat := by
  constructor
  · intro hdecode f
    cases hcode : SlotStatus.ofCode? (w.toNat / 0x40000000) with
    | none =>
        rw [decode, hcode] at hdecode
        cases hdecode
    | some status =>
        rw [decode, hcode] at hdecode
        obtain rfl := Except.ok.inj hdecode
        cases f with
        | back => exact (Field.toNat_bits_back w).symm
        | span => exact (Field.toNat_bits_span w).symm
        | status =>
            rw [Field.toNat_bits_status]
            exact SlotStatus.ofCode?_eq_some_iff.1 hcode
  · intro hvalue
    have hcode : SlotStatus.ofCode? (w.toNat / 0x40000000) = some h.status := by
      rw [SlotStatus.ofCode?_eq_some_iff, ← Field.toNat_bits_status]
      exact hvalue .status
    have hback : h.back = w.toNat % 0x8000 := (hvalue .back).trans (Field.toNat_bits_back w)
    have hspan : h.span = w.toNat / 0x8000 % 0x8000 :=
      (hvalue .span).trans (Field.toNat_bits_span w)
    rw [decode, hcode]
    simp only [← hback, ← hspan]

theorem fits_of_decode (hdecode : decode w p = .ok h) : h.Fits := by
  refine fits_iff.2 fun f => ?_
  rw [decode_eq_ok_iff.1 hdecode f]
  exact Nat.le_of_lt_succ (f.toNat_bits_lt w)

theorem encode_of_decode (hdecode : decode w p = .ok h) : h.encode = w := by
  refine Field.ext_bits fun f => ?_
  rw [← UInt32.toNat_inj, Field.toNat_bits_encode, decode_eq_ok_iff.1 hdecode f]
  exact Nat.mod_eq_of_lt (f.toNat_bits_lt w)

theorem toNat_top (w : UInt32) : (w >>> 30).toNat = w.toNat / 0x40000000 := by
  rw [UInt32.toNat_shiftRight]
  exact Nat.shiftRight_eq_div_pow w.toNat 30

theorem exists_decode (hw : (w >>> 30).toNat ≤ 1) (p : Nat) : ∃ h, decode w p = .ok h := by
  cases hcode : SlotStatus.ofCode? (w.toNat / 0x40000000) with
  | none =>
      have hlt : 1 < w.toNat / 0x40000000 := SlotStatus.ofCode?_eq_none_iff.1 hcode
      rw [toNat_top] at hw
      omega
  | some status => exact ⟨_, by rw [decode, hcode]⟩

theorem decode_refuses (hw : 1 < (w >>> 30).toNat) (p : Nat) :
    decode w p = .error (.invalidStatus p (w >>> 30).toNat) := by
  rw [toNat_top] at hw ⊢
  rw [decode, SlotStatus.ofCode?_eq_none_iff.2 hw]

theorem exists_decode_encode (h : SlotHeader) (p : Nat) : ∃ h', decode h.encode p = .ok h' := by
  refine exists_decode ?_ p
  have hcode : h.status.code ≤ 1 := h.status.code_le
  rw [toNat_top, toNat_encode]
  omega

theorem bits_encode_of_alone (hdecode : decode w p = .ok h) (hnew : f.Alone h new)
    (hg : g ≠ f) : g.bits new.encode = g.bits w := by
  rw [← encode_of_decode hdecode, ← UInt32.toNat_inj, Field.toNat_bits_encode,
    Field.toNat_bits_encode, hnew g hg]

theorem fits_of_alone (hfits : h.Fits) (hnew : f.Alone h new)
    (hf : f.value new ≤ f.mask.toNat) : new.Fits := by
  refine fits_iff.2 fun g => ?_
  by_cases hg : g = f
  · exact hg ▸ hf
  · rw [hnew g hg]
    exact fits_iff.1 hfits g

end SlotHeader

namespace SlotStep

open SlotHeader

variable {h : SlotHeap} {p : Nat} {old new : SlotHeader} {f : Field}

/-- The header at `p` is written anew: no other word changes, in that word only the bits of the
field do, and what is read back differs from the old header in that field alone. -/
structure Resets (f : Field) (h : SlotHeap) (p : Nat) (old new : SlotHeader) : Prop where
  writes : setHeader p new h = (.ok (), h.setWord p new.encode)
  keeps : ∀ g ≠ f, g.bits new.encode = g.bits (h.word p)
  reads : ∃ slot, (h.setWord p new.encode).header p = .ok slot ∧ f.Alone old slot ∧
    (f.value new ≤ f.mask.toNat → slot = new)

theorem resets_of_alone (hold : h.header p = .ok old) (hnew : f.Alone old new) :
    Resets f h p old new := by
  obtain ⟨hin, hdecode⟩ := header_ok hold
  have hkeeps : ∀ g ≠ f, g.bits new.encode = g.bits (h.word p) :=
    fun g hg => bits_encode_of_alone hdecode hnew hg
  obtain ⟨slot, hslot⟩ := exists_decode_encode new p
  refine ⟨setElement_apply hin _, hkeeps, slot, ?_, ?_, ?_⟩
  · rw [SlotHeap.header_setWord_self hin, hslot]
  · intro g hg
    rw [decode_eq_ok_iff.1 hslot g, hkeeps g hg, decode_eq_ok_iff.1 hdecode g]
  · intro hf
    have hfits : new.Fits := fits_of_alone (fits_of_decode hdecode) hnew hf
    exact Except.ok.inj (hslot.symm.trans (decode_encode hfits p))

theorem codec_exact (p : Nat) :
    (∀ h : SlotHeader,
      h.encode = Field.status.placed h ||| (Field.span.placed h ||| Field.back.placed h)) ∧
    (∀ h : SlotHeader, h.Fits → decode h.encode p = .ok h) ∧
    (∀ w : UInt32, (w >>> 30).toNat ≤ 1 → ∃ h, decode w p = .ok h ∧ h.Fits ∧ h.encode = w) ∧
    (∀ w : UInt32, 1 < (w >>> 30).toNat →
      decode w p = .error (.invalidStatus p (w >>> 30).toNat)) ∧
    ∀ (h : SlotHeap) (old : SlotHeader), h.header p = .ok old →
      (∀ status, Resets .status h p old { old with status }) ∧
      (∀ span, Resets .span h p old { old with span }) ∧
      ∀ back, Resets .back h p old { old with back } ∧
        setBackSpan p back h = setHeader p { old with back } h := by
  refine ⟨encode_eq_or, fun h hfits => decode_encode hfits p, ?_, ?_, ?_⟩
  · intro w hw
    obtain ⟨h, hdecode⟩ := exists_decode hw p
    exact ⟨h, hdecode, fits_of_decode hdecode, encode_of_decode hdecode⟩
  · intro w hw
    exact decode_refuses hw p
  · intro h old hold
    refine ⟨fun status => ?_, fun span => ?_, fun back => ⟨?_, ?_⟩⟩
    · exact resets_of_alone hold (Field.alone_status old status)
    · exact resets_of_alone hold (Field.alone_span old span)
    · exact resets_of_alone hold (Field.alone_back old back)
    · exact setBackSpan_apply hold back

/-- Both spans are the greatest there are, so that every bit of a field stands beside a one. -/
theorem codec_exact_greatest :
    let old : SlotHeader := ⟨maxSpan, maxSpan, .free⟩
    let h : SlotHeap :=
      (⟨SlotBlock.blank ⟨0x1000, 16, 4, 16⟩ 4, Memory.empty⟩ : SlotHeap).setWord 1 old.encode
    (old.Fits ∧ decode old.encode 1 = .ok old) ∧
      (∃ t, decode 0x7fff8000 1 = .ok t ∧ t.Fits ∧ t.encode = 0x7fff8000) ∧
      decode 0xffffffff 1 = .error (.invalidStatus 1 3) ∧
      h.header 1 = .ok old ∧ Resets .status h 1 old { old with status := .allocated } ∧
      Resets .span h 1 old { old with span := 4 } ∧
      Resets .back h 1 old { old with back := 0 } ∧
      setBackSpan 1 0 h = setHeader 1 { old with back := 0 } h := by
  intro old h
  have hfits : old.Fits := ⟨Nat.le_refl _, Nat.le_refl _⟩
  obtain ⟨-, hdecodes, hencodes, hrefuses, hresets⟩ := codec_exact 1
  have hold : h.header 1 = .ok old := by
    refine (SlotHeap.header_setWord_self ?_).trans (hdecodes old hfits)
    decide
  obtain ⟨hstatus, hspan, hback⟩ := hresets h old hold
  refine ⟨⟨hfits, hdecodes old hfits⟩, hencodes _ (by decide), hrefuses _ (by decide), hold, ?_⟩
  exact ⟨hstatus .allocated, hspan 4, hback 0⟩

end SlotStep

end AffinityHeap
