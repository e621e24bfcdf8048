import AffinityHeap.Error

namespace AffinityHeap

inductive SlotStatus where
  | allocated
  | free
  deriving DecidableEq, Repr

/-- The word in front of a slot: how many words the slot before it spans, how many it spans
itself, header included, and who holds it. -/
structure SlotHeader where
  back : Nat
  span : Nat
  status : SlotStatus
  deriving DecidableEq, Repr

def maxSpan : Nat := 0x7fff

def minPayloadWords : Nat := 3

def minSlotSpan : Nat := minPayloadWords + 1

namespace SlotStatus

def code : SlotStatus → Nat
  | .allocated => 0
  | .free => 1

def ofCode? : Nat → Option SlotStatus
  | 0 => some .allocated
  | 1 => some .free
  | _ => none

end SlotStatus

namespace SlotHeader

def isFree (h : SlotHeader) : Bool := h.status == .free

def payloadBytes (h : SlotHeader) : Nat := (h.span - 1) * 4

/-- Fifteen bits for each span and two for the status, the lowest first. -/
def encode (h : SlotHeader) : UInt32 :=
  UInt32.ofNat (h.back % 0x8000 + h.span % 0x8000 * 0x8000 + h.status.code * 0x40000000)

def decode (w : UInt32) (position : Nat) : Except Corruption SlotHeader :=
  match SlotStatus.ofCode? (w.toNat / 0x40000000) with
  | some status => .ok ⟨w.toNat % 0x8000, w.toNat / 0x8000 % 0x8000, status⟩
  | none => .error (.invalidStatus position (w.toNat / 0x40000000))

theorem toNat_encode (h : SlotHeader) :
    h.encode.toNat = h.back % 0x8000 + h.span % 0x8000 * 0x8000 + h.status.code * 0x40000000 := by
  have : h.status.code ≤ 1 := by cases h.status <;> simp [SlotStatus.code]
  simp only [encode, UInt32.toNat_ofNat']
  omega

end SlotHeader

end AffinityHeap
