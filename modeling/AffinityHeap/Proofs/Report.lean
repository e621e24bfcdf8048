import AffinityHeap.Allocator

namespace AffinityHeap

namespace Printer

theorem extract_of_size_le {bytes : ByteArray} {n : Nat} (h : bytes.size ≤ n) :
    bytes.extract 0 n = bytes := by
  refine ByteArray.ext ?_
  rw [ByteArray.data_extract]
  exact Array.extract_eq_self_of_le h

theorem extract_min_size (bytes : ByteArray) (n : Nat) :
    bytes.extract 0 (min n bytes.size) = bytes.extract 0 n := by
  rcases Nat.le_total n bytes.size with h | h
  · rw [Nat.min_eq_left h]
  · rw [Nat.min_eq_right h, extract_of_size_le h, extract_of_size_le (Nat.le_refl _)]

theorem bind_apply {α : Type} (p : Printer α) (f : α → Printer Unit) (s : Sink) :
    (p >>= f) s = match p s with
      | (.ok a, s) => f a s
      | (.error e, s) => (.error e, s) := by
  simp only [bind, ExceptT.bind, ExceptT.mk, StateT.bind, ExceptT.bindCont]
  rcases p s with ⟨_ | _, _⟩ <;> rfl

theorem put_unlimited (text : String) (written : ByteArray) :
    put text ⟨none, written⟩ = (.ok (), ⟨none, written ++ text.toUTF8⟩) := rfl

theorem put_limited (text : String) (room : Nat) (written : ByteArray) :
    put text ⟨some room, written⟩ =
      (if text.toUTF8.size ≤ room then .ok () else .error ⟨⟩,
        ⟨some (room - text.toUTF8.size), written ++ text.toUTF8.extract 0 room⟩) := by
  by_cases h : text.toUTF8.size ≤ room
  · simp only [put, if_pos h, extract_of_size_le h]
  · simp only [put, if_neg h, Nat.sub_eq_zero_of_le (Nat.le_of_not_le h)]

theorem put_empty : put "" = pure () := by
  have hempty : "".toUTF8 = .empty := String.toByteArray_empty
  funext s
  obtain ⟨_ | room, written⟩ := s
  · rw [put_unlimited, hempty, ByteArray.append_empty]
    rfl
  · rw [put_limited, hempty, ByteArray.size_empty, if_pos (Nat.zero_le room), Nat.sub_zero,
      extract_of_size_le (Nat.zero_le room), ByteArray.append_empty]
    rfl

/-- A text put in two parts is cut where it would have been as a whole. -/
theorem put_append (front behind : String) :
    put (front ++ behind) = (do put front; put behind) := by
  have happend : (front ++ behind).toUTF8 = front.toUTF8 ++ behind.toUTF8 :=
    String.toByteArray_append
  funext s
  obtain ⟨_ | room, written⟩ := s
  · rw [bind_apply, put_unlimited, put_unlimited, happend, ← ByteArray.append_assoc]
    rfl
  · rw [bind_apply, put_limited, put_limited, happend, ByteArray.size_append,
      ByteArray.extract_append, Nat.zero_sub]
    by_cases h : front.toUTF8.size ≤ room
    · have hfits : front.toUTF8.size + behind.toUTF8.size ≤ room ↔
          behind.toUTF8.size ≤ room - front.toUTF8.size := by omega
      simp only [if_pos h, put_limited, hfits, extract_of_size_le h, ByteArray.append_assoc,
        Nat.sub_sub]
    · have hlong : ¬ front.toUTF8.size + behind.toUTF8.size ≤ room := by omega
      have hrest : room - front.toUTF8.size = 0 := by omega
      have hnone : behind.toUTF8.extract 0 0 = .empty :=
        ByteArray.extract_eq_empty_iff.2 (Nat.min_le_left ..)
      simp only [if_neg h, if_neg hlong, hrest, hnone, ByteArray.append_empty,
        Nat.sub_eq_zero_of_le (Nat.le_of_not_le hlong)]

/-- What the printer does, however it goes about it, is to put one text. -/
structure Puts (p : Printer Unit) : Prop where
  text : ∃ text, p = put text

variable {p q : Printer Unit}

theorem puts_line (text : String) : Puts (line text) := ⟨text ++ "\n", rfl⟩

theorem puts_put (text : String) : Puts (put text) := ⟨text, rfl⟩

theorem puts_pure : Puts (pure ()) := ⟨"", put_empty.symm⟩

theorem puts_bind (hp : Puts p) (hq : Puts q) : Puts (do p; q) := by
  obtain ⟨front, rfl⟩ := hp.text
  obtain ⟨behind, rfl⟩ := hq.text
  exact ⟨front ++ behind, (put_append front behind).symm⟩

theorem puts_ite {c : Prop} [Decidable c] (hp : Puts p) (hq : Puts q) :
    Puts (if c then p else q) := by
  split
  · exact hp
  · exact hq

theorem puts_forM {α : Type} {f : α → Printer Unit} (hf : ∀ a, Puts (f a)) (l : List α) :
    Puts (l.forM f) := by
  induction l with
  | nil => exact puts_pure
  | cons a l ih => exact puts_bind (hf a) ih

theorem render_put (text : String) : (put text).render = text := by
  have hrun : ((put text).run.run .unlimited).2.written = text.toUTF8 := ByteArray.empty_append
  have hvalid : text.toUTF8.IsValidUTF8 := text.isValidUTF8
  simp only [render, hrun, String.fromUTF8?, dif_pos hvalid]
  rfl

end Printer

open Printer

namespace SlotHeap

theorem puts_report (h : SlotHeap) : Puts h.report :=
  puts_bind (puts_line _) (puts_bind (puts_forM (fun _ => puts_line _) _) (puts_line _))

end SlotHeap

theorem SegmentBlock.puts_report (b : SegmentBlock) : Puts b.report :=
  puts_bind (puts_line _)
    (puts_bind (puts_forM (fun _ => puts_line _) _) (puts_forM (fun _ => puts_line _) _))

theorem Block.puts_report (m : Memory) (b : Block) : Puts (b.report m) := by
  cases b with
  | slot b => exact SlotHeap.puts_report ⟨b, m⟩
  | segment b => exact b.puts_report

theorem Pool.puts_report (m : Memory) (p : Pool) : Puts (p.report m) :=
  puts_bind (puts_line _) (puts_forM (Block.puts_report m) _)

namespace HeapStats

theorem puts_printOuter (h : HeapStats) : Puts h.printOuter :=
  puts_bind (puts_line _) (puts_bind (puts_forM (fun _ => puts_line _) _)
    (puts_ite (puts_line _) puts_pure))

theorem puts_printFrom (outer : LevelStats) (nested : List LevelStats) :
    Puts (printFrom outer nested) := by
  induction nested generalizing outer with
  | nil => exact puts_printOuter _
  | cons level rest ih => exact puts_bind (puts_printOuter _) (puts_bind (puts_put _) (ih level))

theorem puts_print (h : HeapStats) : Puts h.print := puts_printFrom ..

end HeapStats

theorem Level.puts_report (m : Memory) (l : Level) : Puts (l.report m) :=
  puts_bind (HeapStats.puts_print _) (puts_bind (puts_forM (Pool.puts_report m) _)
    (puts_forM (fun _ => puts_line _) _))

namespace Allocator

theorem puts_report (m : Memory) (a : Allocator) : Puts (a.report m) :=
  puts_bind (a.outer.puts_report m)
    (puts_forM (fun l => puts_bind (puts_line _) (l.puts_report m)) _)

/-- Reports on a heap whose memory is that of the address space. -/
def reportTo (sink : Sink) (a : Allocator) :
    StateM AddressSpace ((Except SinkFull Unit × Sink) × Allocator) := do
  let memory := (← get).memory
  return ((a.report memory).run.run sink, a)

end Allocator

end AffinityHeap
