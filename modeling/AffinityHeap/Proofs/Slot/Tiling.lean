import AffinityHeap.Proofs.Slot.Header
import AffinityHeap.Slot.Geometry
import AffinityHeap.Sum
import Mathlib.Data.List.Basic

namespace AffinityHeap

structure Slot extends SlotHeader where
  position : Nat
  deriving DecidableEq, Repr

namespace Slot

def stop (s : Slot) : Nat := s.position + s.span

def Apart (s t : Slot) : Prop := s.stop ≤ t.position ∨ t.stop ≤ s.position

instance : Std.Symm Apart := ⟨fun _ _ => Or.symm⟩

def Payload (s : Slot) (q : Nat) : Prop := s.position < q ∧ q < s.stop

structure Sound (unit : Nat) (s : Slot) : Prop where
  span_ge : minSlotSpan ≤ s.span
  span_le : s.span ≤ maxSpan
  aligned : unit ∣ s.position + 1

/-- Side by side from `start` to `stop`, each with the span of the one in front of it. -/
def Tiled : Nat → Nat → List Slot → Nat → Prop
  | start, _, [], stop => start = stop
  | start, back, s :: rest, stop =>
      s.position = start ∧ s.back = back ∧ Tiled s.stop s.span rest stop

def lastSpan : Nat → List Slot → Nat
  | back, [] => back
  | _, s :: rest => lastSpan s.span rest

def rebase (back : Nat) : List Slot → List Slot
  | [] => []
  | s :: rest => { s with back } :: rest

theorem lastSpan_concat (A : List Slot) (s : Slot) (back : Nat) :
    lastSpan back (A ++ [s]) = s.span := by
  induction A generalizing back with
  | nil => rfl
  | cons t A ih => exact ih t.span

theorem tiled_append {A B : List Slot} {start back stop : Nat} :
    Tiled start back (A ++ B) stop ↔
      ∃ m, Tiled start back A m ∧ Tiled m (lastSpan back A) B stop := by
  induction A generalizing start back with
  | nil => simp [Tiled, lastSpan]
  | cons s A ih =>
      simp only [List.cons_append, Tiled, lastSpan, ih]
      constructor
      · rintro ⟨hp, hb, m, hA, hB⟩
        exact ⟨m, ⟨hp, hb, hA⟩, hB⟩
      · rintro ⟨m, ⟨hp, hb, hA⟩, hB⟩
        exact ⟨hp, hb, m, hA, hB⟩

theorem tiled_rebase {B : List Slot} {start back stop : Nat} (h : Tiled start back B stop)
    (back' : Nat) : Tiled start back' (rebase back' B) stop := by
  cases B with
  | nil => exact h
  | cons s B => exact ⟨h.1, rfl, h.2.2⟩

theorem rebase_of_tiled {B : List Slot} {start back stop : Nat} (h : Tiled start back B stop) :
    rebase back B = B := by
  cases B with
  | nil => rfl
  | cons s B => rw [rebase, ← h.2.1]

theorem tiled_le {l : List Slot} {start back stop : Nat} (h : Tiled start back l stop) :
    start ≤ stop := by
  induction l generalizing start back with
  | nil => exact Nat.le_of_eq h
  | cons s l ih =>
      obtain ⟨rfl, -, h⟩ := h
      exact Nat.le_trans (Nat.le_add_right ..) (ih h)

theorem tiled_span {l : List Slot} {start back stop : Nat} (h : Tiled start back l stop) :
    start + sumOf (l.map (·.span)) = stop := by
  induction l generalizing start back with
  | nil => exact h
  | cons s l ih =>
      obtain ⟨rfl, -, h⟩ := h
      rw [List.map_cons, sumOf_cons, ← Nat.add_assoc]
      exact ih h

theorem tiled_length_le {l : List Slot} {start back stop : Nat} (h : Tiled start back l stop)
    (hspan : ∀ s ∈ l, 0 < s.span) : start + l.length ≤ stop := by
  induction l generalizing start back with
  | nil => exact Nat.le_of_eq h
  | cons s l ih =>
      obtain ⟨rfl, -, h⟩ := h
      have hrest := ih h fun t ht => hspan t (List.mem_cons_of_mem s ht)
      have hs := hspan s (List.mem_cons_self ..)
      rw [Slot.stop] at hrest
      rw [List.length_cons]
      omega

theorem tiled_bounds {l : List Slot} {start back stop : Nat} (h : Tiled start back l stop) :
    ∀ s ∈ l, start ≤ s.position ∧ s.stop ≤ stop := by
  induction l generalizing start back with
  | nil => simp
  | cons t l ih =>
      obtain ⟨rfl, -, h⟩ := h
      intro s hs
      rcases List.mem_cons.1 hs with rfl | hs
      · exact ⟨Nat.le_refl _, tiled_le h⟩
      · exact ⟨Nat.le_trans (Nat.le_add_right ..) (ih h s hs).1, (ih h s hs).2⟩

theorem tiled_pairwise {l : List Slot} {start back stop : Nat} (h : Tiled start back l stop) :
    l.Pairwise (fun s t => s.stop ≤ t.position) := by
  induction l generalizing start back with
  | nil => exact .nil
  | cons s l ih =>
      obtain ⟨rfl, -, h⟩ := h
      exact .cons (fun t ht => (tiled_bounds h t ht).1) (ih h)

/-- The same stretch cut up in another way leaves a tiling, if the slot behind it is told. -/
theorem tiled_replace {A M M' B : List Slot} {start back stop : Nat}
    (h : Tiled start back (A ++ M ++ B) stop)
    (hM : ∀ m m' b, Tiled m b M m' → Tiled m b M' m') :
    Tiled start back (A ++ M' ++ rebase (lastSpan (lastSpan back A) M') B) stop := by
  obtain ⟨m', hAM, hB⟩ := tiled_append.1 h
  obtain ⟨m, hA, hM₁⟩ := tiled_append.1 hAM
  have hM' := hM _ _ _ hM₁
  have hlast : lastSpan back (A ++ M') = lastSpan (lastSpan back A) M' := by
    clear h hAM hA hB hM₁ hM'
    induction A generalizing back with
    | nil => rfl
    | cons s A ih => exact ih
  exact tiled_append.2 ⟨m', tiled_append.2 ⟨m, hA, hM'⟩, hlast ▸ tiled_rebase hB _⟩

theorem back_le {unit : Nat} {l : List Slot} {start back stop : Nat}
    (h : Tiled start back l stop) (hs : ∀ s ∈ l, s.Sound unit) (hb : back ≤ maxSpan) :
    ∀ s ∈ l, s.back ≤ maxSpan := by
  induction l generalizing start back with
  | nil => simp
  | cons t l ih =>
      obtain ⟨-, rfl, h⟩ := h
      have ht := hs t (List.mem_cons_self ..)
      intro s hmem
      rcases List.mem_cons.1 hmem with rfl | hmem
      · exact hb
      · exact ih h (fun u hu => hs u (List.mem_cons_of_mem _ hu)) ht.span_le s hmem

end Slot

end AffinityHeap
