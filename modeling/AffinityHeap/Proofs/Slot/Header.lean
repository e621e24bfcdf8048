import AffinityHeap.Slot.Header

namespace AffinityHeap.SlotHeader

structure Fits (h : SlotHeader) : Prop where
  back : h.back ≤ maxSpan
  span : h.span ≤ maxSpan

@[simp] theorem isFree_iff {h : SlotHeader} : h.isFree = true ↔ h.status = .free := by
  simp [isFree]

@[simp] theorem isFree_eq_false_iff {h : SlotHeader} :
    h.isFree = false ↔ h.status = .allocated := by
  rcases h with ⟨_, _, _ | _⟩ <;> simp [isFree]

theorem decode_of_fields {w : UInt32} {h : SlotHeader} (he : h.Fits)
    (hw : w.toNat = h.back + h.span * 0x8000 + h.status.code * 0x40000000) (position : Nat) :
    decode w position = .ok h := by
  obtain ⟨back, span, status⟩ := h
  obtain ⟨hb, hs⟩ := he
  simp only [maxSpan] at hb hs hw
  have hback : w.toNat % 0x8000 = back := by omega
  have hspan : w.toNat / 0x8000 % 0x8000 = span := by omega
  have hcode : w.toNat / 0x40000000 = status.code := by omega
  cases status <;> simp only [decode, hback, hspan, hcode, SlotStatus.code, SlotStatus.ofCode?]

theorem decode_encode {h : SlotHeader} (he : h.Fits) (position : Nat) :
    decode h.encode position = .ok h := by
  have hb : h.back % 0x8000 = h.back := Nat.mod_eq_of_lt (Nat.lt_succ_of_le he.back)
  have hs : h.span % 0x8000 = h.span := Nat.mod_eq_of_lt (Nat.lt_succ_of_le he.span)
  exact decode_of_fields he (by rw [toNat_encode, hb, hs]) position

theorem decode_of_lt {w : UInt32} (hw : w.toNat < 0x8000) (position : Nat) :
    decode w position = .ok ⟨w.toNat, 0, .allocated⟩ :=
  decode_of_fields ⟨Nat.le_of_lt_succ hw, Nat.zero_le _⟩ (by simp [SlotStatus.code]) position

end AffinityHeap.SlotHeader
