namespace AffinityHeap

def sumOf (l : List Nat) : Nat := l.foldr (· + ·) 0

@[simp] theorem sumOf_nil : sumOf [] = 0 := rfl

@[simp] theorem sumOf_cons (n : Nat) (l : List Nat) : sumOf (n :: l) = n + sumOf l := rfl

@[simp] theorem sumOf_append (l l' : List Nat) : sumOf (l ++ l') = sumOf l + sumOf l' := by
  induction l with
  | nil => simp
  | cons n l ih => simp [ih, Nat.add_assoc]

theorem sumOf_flatMap {α : Type} (f : α → List Nat) (l : List α) :
    sumOf (l.flatMap f) = sumOf (l.map fun a => sumOf (f a)) := by
  induction l with
  | nil => rfl
  | cons a l ih => simp [List.flatMap_cons, ih]

theorem sumOf_map_one {α : Type} (l : List α) : sumOf (l.map fun _ => 1) = l.length := by
  induction l with
  | nil => rfl
  | cons a l ih => rw [List.map_cons, sumOf_cons, ih, List.length_cons, Nat.add_comm]

theorem sumOf_eq_zero {l : List Nat} (h : ∀ n ∈ l, n = 0) : sumOf l = 0 := by
  induction l with
  | nil => rfl
  | cons n l ih =>
      rw [sumOf_cons, h n (List.mem_cons_self ..), ih fun k hk => h k (List.mem_cons_of_mem n hk)]

theorem sumOf_map_ite {α : Type} (p : α → Prop) [DecidablePred p] (l : List α) :
    sumOf (l.map fun a => if p a then 1 else 0) = l.countP p := by
  induction l with
  | nil => rfl
  | cons a l ih =>
      rw [List.map_cons, sumOf_cons, ih, List.countP_cons, Nat.add_comm]
      simp only [decide_eq_true_eq]

theorem sumOf_map_add {α : Type} (f g : α → Nat) (l : List α) :
    sumOf (l.map fun a => f a + g a) = sumOf (l.map f) + sumOf (l.map g) := by
  induction l with
  | nil => rfl
  | cons a l ih => simp only [List.map_cons, sumOf_cons, ih, Nat.add_add_add_comm]

theorem sumOf_perm {l l' : List Nat} (h : l.Perm l') : sumOf l = sumOf l' := by
  induction h with
  | nil => rfl
  | cons n _ ih => rw [sumOf_cons, sumOf_cons, ih]
  | swap m n l => simp [Nat.add_left_comm]
  | trans _ _ ih ih' => exact ih.trans ih'

theorem sumOf_filter_add {α : Type} (p : α → Bool) (f : α → Nat) (l : List α) :
    sumOf ((l.filter p).map f) + sumOf ((l.filter fun a => !p a).map f) = sumOf (l.map f) := by
  rw [← sumOf_append, ← List.map_append]
  exact sumOf_perm ((List.filter_append_perm p l).map f)

end AffinityHeap
