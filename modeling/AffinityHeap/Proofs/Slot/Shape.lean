import AffinityHeap.Proofs.Slot.Merged

namespace AffinityHeap

open SlotGeometry (neededWords)

abbrev Site := Nat × Nat × SlotStatus

/-- A block without its words: the position, span and status of its slots by address, and the
positions of the free ones in the order of the free list. -/
structure Shape where
  slots : List Site
  free : List Nat
  deriving DecidableEq, Repr

namespace Shape

def sites (l : List Slot) : List Site := l.map (·.site)

def of (slots : List Slot) (free : List Nat) : Shape := ⟨sites slots, free⟩

section Sites

variable (A B : List Slot) (s : Slot)

@[simp] theorem sites_nil : sites [] = [] := rfl

@[simp] theorem sites_append : sites (A ++ B) = sites A ++ sites B := by simp [sites]

@[simp] theorem sites_cons : sites (s :: B) = (s.position, s.span, s.status) :: sites B := rfl

@[simp] theorem sites_rebase (back : Nat) : sites (Slot.rebase back B) = sites B := by
  cases B <;> rfl

end Sites

def freeLast? (A : List Site) : Option (List Site × Nat × Nat) :=
  match A.getLast? with
  | some (p, m, .free) => some (A.dropLast, p, m)
  | _ => none

def freeHead? : List Site → Option (Nat × Nat × List Site)
  | (q, k, .free) :: B => some (q, k, B)
  | _ => none

section Release

variable (A : List Site) (c n : Nat) (B : List Site) (free : List Nat)

/-- The slots in front and behind grow together over the `n` words between them. -/
def joinBoth : Option Shape :=
  match freeLast? A, freeHead? B with
  | some (A, p, m), some (q, k, B) =>
      if m + n + k ≤ maxSpan then some ⟨A ++ (p, m + n + k, .free) :: B, free.erase q⟩ else none
  | _, _ => none

def joinPrevious : Option Shape :=
  match freeLast? A with
  | some (A, p, m) =>
      if m + n ≤ maxSpan then some ⟨A ++ (p, m + n, .free) :: B, free⟩ else none
  | none => none

def joinNext : Option Shape :=
  match freeHead? B with
  | some (q, k, B) =>
      if n + k ≤ maxSpan then some ⟨A ++ (c, n + k, .free) :: B, free.replace q c⟩ else none
  | none => none

def pushFront : Shape := ⟨A ++ (c, n, .free) :: B, c :: free⟩

/-- What the release of the slot of `n` words at `c`, between `A` and `B`, makes of a block. -/
def release : Shape :=
  ((joinBoth A n B free).or ((joinPrevious A n B free).or (joinNext A c n B free))).getD
    (pushFront A c n B free)

end Release

section Joins

variable {A B : List Slot} {P N : Slot} {c n : Nat} {free X Y : List Nat}

theorem freeLast?_concat (hP : P.status = .free) :
    freeLast? (sites (A ++ [P])) = some (sites A, P.position, P.span) := by
  simp [freeLast?, hP]

theorem freeHead?_cons (hN : N.status = .free) :
    freeHead? (sites (N :: B)) = some (N.position, N.span, sites B) := by
  simp [freeHead?, hN]

theorem freeLast?_cases (A : List Slot) : freeLast? (sites A) = none ∨
    ∃ P ∈ A.getLast?, P.status = .free ∧
      freeLast? (sites A) = some ((sites A).dropLast, P.position, P.span) := by
  rcases List.eq_nil_or_concat A with rfl | ⟨A, P, rfl⟩
  · exact .inl rfl
  · rw [List.concat_eq_append]
    cases hP : P.status with
    | allocated => exact .inl (by simp [freeLast?, hP])
    | free => exact .inr ⟨P, by simp, hP, by simp [freeLast?, hP]⟩

theorem freeHead?_cases (B : List Slot) : freeHead? (sites B) = none ∨
    ∃ N ∈ B.head?, N.status = .free ∧
      freeHead? (sites B) = some (N.position, N.span, (sites B).tail) := by
  cases B with
  | nil => exact .inl rfl
  | cons N B =>
      cases hN : N.status with
      | allocated => exact .inl (by simp [freeHead?, hN])
      | free => exact .inr ⟨N, rfl, hN, freeHead?_cons hN⟩

theorem joinBoth_eq_none (h : ∀ P ∈ A.getLast?, ∀ N ∈ B.head?, P.status = .free →
    N.status = .free → maxSpan < P.span + n + N.span) :
    joinBoth (sites A) n (sites B) free = none := by
  rcases freeLast?_cases A with hA | ⟨P, hP, hPf, hA⟩
  · simp only [joinBoth, hA]
  rcases freeHead?_cases B with hB | ⟨N, hN, hNf, hB⟩
  · simp only [joinBoth, hA, hB]
  · have hlong := h P hP N hN hPf hNf
    simp only [joinBoth, hA, hB, if_neg (Nat.not_le.2 hlong)]

theorem joinPrevious_eq_none (h : ∀ P ∈ A.getLast?, P.status = .free → maxSpan < P.span + n) :
    joinPrevious (sites A) n (sites B) free = none := by
  rcases freeLast?_cases A with hA | ⟨P, hP, hPf, hA⟩
  · simp only [joinPrevious, hA]
  · simp only [joinPrevious, hA, if_neg (Nat.not_le.2 (h P hP hPf))]

theorem joinNext_eq_none (h : ∀ N ∈ B.head?, N.status = .free → maxSpan < n + N.span) :
    joinNext (sites A) c n (sites B) free = none := by
  rcases freeHead?_cases B with hB | ⟨N, hN, hNf, hB⟩
  · simp only [joinNext, hB]
  · simp only [joinNext, hB, if_neg (Nat.not_le.2 (h N hN hNf))]

end Joins

end Shape

variable {b : SlotBlock} {L L' : Layout} {A B : List Slot} {C : Slot}

theorem Freed.shape (h : Freed C L L') (hS : L.Sound b) (hL : L.slots = A ++ C :: B) :
    Shape.of L'.slots L'.free =
      Shape.release (Shape.sites A) C.position C.span (Shape.sites B) L.free := by
  have hnd := hS.nodup_free
  cases h with
  | @all A' B' P N X Y hP hN hspan =>
      have hsplit : A' ++ P :: C :: N :: B' = A' ++ [P] ++ C :: N :: B' := by simp
      obtain ⟨rfl, -, rfl⟩ := hS.split_unique hL hsplit rfl
      have hX : N.position ∉ X := fun hmem => (List.nodup_append.1 hnd).2.2 _ hmem _ (by simp) rfl
      have herase : (X ++ N.position :: Y).erase N.position = X ++ Y := by
        rw [List.erase_append_right _ hX, List.erase_cons_head]
      simp only [Shape.release, Shape.joinBoth, Shape.freeLast?_concat hP, Shape.freeHead?_cons hN,
        if_pos hspan, Option.some_or, Option.getD_some, herase]
      simp [Shape.of, hP, Nat.add_assoc]
  | @previous A' B' P free hP hspan hN =>
      have hsplit : A' ++ P :: C :: B' = A' ++ [P] ++ C :: B' := by simp
      obtain ⟨rfl, -, rfl⟩ := hS.split_unique hL hsplit rfl
      have hboth :
          Shape.joinBoth (Shape.sites (A' ++ [P])) C.span (Shape.sites B') free = none := by
        refine Shape.joinBoth_eq_none fun Q hQ N hhead _ hf => ?_
        obtain rfl : P = Q := by simpa using hQ
        exact hN N hhead hf
      simp only [Shape.release, hboth, Shape.joinPrevious, Shape.freeLast?_concat hP, if_pos hspan,
        Option.none_or, Option.some_or, Option.getD_some]
      simp [Shape.of, hP]
  | @next A' B' N X Y hN hspan hP =>
      have hsplit : A' ++ C :: N :: B' = A' ++ C :: N :: B' := rfl
      obtain ⟨rfl, -, rfl⟩ := hS.split_unique hL hsplit rfl
      have hboth : Shape.joinBoth (Shape.sites A') C.span (Shape.sites (N :: B'))
          (X ++ N.position :: Y) = none :=
        Shape.joinBoth_eq_none fun P hlast M _ hf _ =>
          Nat.lt_of_lt_of_le (hP P hlast hf) (Nat.le_add_right ..)
      have hX : N.position ∉ X := fun hmem => (List.nodup_append.1 hnd).2.2 _ hmem _ (by simp) rfl
      have hreplace : (X ++ N.position :: Y).replace N.position C.position =
          X ++ C.position :: Y := by
        rw [List.replace_append_right hX, List.replace_cons_self]
      simp only [Shape.release, hboth, Shape.joinPrevious_eq_none hP, Shape.joinNext,
        Shape.freeHead?_cons hN, if_pos hspan, Option.none_or, Option.getD_some, hreplace]
      simp [Shape.of]
  | @alone A' B' free hP hN =>
      have hsplit : A' ++ C :: B' = A' ++ C :: B' := rfl
      obtain ⟨rfl, -, rfl⟩ := hS.split_unique hL hsplit rfl
      have hboth : Shape.joinBoth (Shape.sites A') C.span (Shape.sites B') free = none :=
        Shape.joinBoth_eq_none fun P hlast M _ hf _ =>
          Nat.lt_of_lt_of_le (hP P hlast hf) (Nat.le_add_right ..)
      simp only [Shape.release, hboth, Shape.joinPrevious_eq_none hP, Shape.joinNext_eq_none hN,
        Option.none_or, Option.getD_none]
      simp [Shape.of, Shape.pushFront]

namespace Shape

/-- First fit: the free slot at `p` is the first on the free list with room for `size` bytes. It is
handed out whole, or cut in front of a free slot that takes its place on the list. -/
inductive Served (unit size : Nat) : Shape → Nat → Shape → Prop
  | whole {A B : List Site} {X Y : List Nat} {p n : Nat} (hsize : size ≤ (n - 1) * 4)
      (hfirst : ∀ q k, (q, k, SlotStatus.free) ∈ A ++ (p, n, .free) :: B → q ∈ X →
        (k - 1) * 4 < size)
      (hlow : neededWords size + 1 ≤ n) (hhigh : n ≤ neededWords size + unit + 4) :
      Served unit size ⟨A ++ (p, n, .free) :: B, X ++ p :: Y⟩ p
        ⟨A ++ (p, n, .allocated) :: B, X ++ Y⟩
  | cut {A B : List Site} {X Y : List Nat} {p n k : Nat} (hsize : size ≤ (n + k - 1) * 4)
      (hfirst : ∀ q m, (q, m, SlotStatus.free) ∈ A ++ (p, n + k, .free) :: B → q ∈ X →
        (m - 1) * 4 < size)
      (hlow : neededWords size + 1 ≤ n) (hhigh : n ≤ neededWords size + unit + 4)
      (hrest : minSlotSpan + 1 ≤ k) (haligned : unit ∣ p + n + 1) :
      Served unit size ⟨A ++ (p, n + k, .free) :: B, X ++ p :: Y⟩ p
        ⟨A ++ (p, n, .allocated) :: (p + n, k, .free) :: B, X ++ (p + n) :: Y⟩

theorem mem_sites {l : List Slot} {p n : Nat} {status : SlotStatus} : (p, n, status) ∈ sites l ↔
    ∃ s ∈ l, s.status = status ∧ s.position = p ∧ s.span = n := mem_site

end Shape

theorem Served.shape {K : Slot} {size : Nat} (h : Served b.unit size L K L') (hS : L.Sound b) :
    Shape.Served b.unit size (Shape.of L.slots L.free) K.position (Shape.of L'.slots L'.free) := by
  have hneed := le_neededWords size
  have hwords : ∀ {n}, minSlotSpan ≤ n → size ≤ (n - 1) * 4 → neededWords size + 1 ≤ n := by
    intro n hmin hn
    simp only [neededWords, ceilDiv, minSlotSpan, minPayloadWords] at hmin ⊢
    omega
  have hfirst : ∀ {l : List Slot} {X : List Nat},
      (∀ s ∈ l, s.position ∈ X → s.payloadBytes < size) →
      ∀ q k, (q, k, SlotStatus.free) ∈ Shape.sites l → q ∈ X → (k - 1) * 4 < size := by
    intro l X h q k hmem hq
    obtain ⟨s, hs, -, rfl, rfl⟩ := Shape.mem_sites.1 hmem
    exact h s hs hq
  cases h with
  | @whole A B F X Y hF hsize hroom hX =>
      have hFs := hS.each F (by simp)
      have hr := (remainderAfter_spec (p := F.position) (n := neededWords size) (unit_pos b)).2.1
      have hX := hfirst hX
      simp only [Slot.stop, minPayloadWords] at hroom
      simp only [Shape.of, Shape.sites_append, Shape.sites_cons, hF] at hX ⊢
      exact .whole hsize hX (hwords hFs.span_ge hsize) (by omega)
  | @cut A B F X Y r hF hsize hr hroom hX =>
      obtain ⟨hle, hlt, hdvd⟩ := remainderAfter_spec (p := F.position) (n := neededWords size)
        (unit_pos b)
      rw [← hr] at hle hlt hdvd
      have hX := hfirst hX
      simp only [Slot.stop, minPayloadWords] at hroom
      have hspan : (r - F.position) + (F.position + F.span - r) = F.span := by omega
      have hpos : F.position + (r - F.position) = r := by omega
      have hfits : size ≤ (r - F.position + (F.position + F.span - r) - 1) * 4 := by rwa [hspan]
      have hpassed : ∀ q k, (q, k, SlotStatus.free) ∈ Shape.sites A ++
          (F.position, r - F.position + (F.position + F.span - r), .free) :: Shape.sites B →
          q ∈ X → (k - 1) * 4 < size := by simpa [hspan, hF] using hX
      have haligned : b.unit ∣ F.position + (r - F.position) + 1 := by rwa [hpos]
      have hcut := Shape.Served.cut (Y := Y) hfits hpassed (by omega) (by omega)
        (show 3 + 1 + 1 ≤ _ by omega) haligned
      rw [hspan, hpos] at hcut
      simpa [Shape.of, hF, Slot.front, Slot.rest, Slot.stop] using hcut

end AffinityHeap
