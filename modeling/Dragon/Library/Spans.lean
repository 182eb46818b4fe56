import Mathlib.Algebra.Order.Ring.Int
import Mathlib.Data.List.Pairwise

/-! Half-open ranges of integers, and lists of ranges that follow one another. -/

set_option autoImplicit false

namespace Spans

structure Span where
  start : Int
  size : Int

namespace Span

def Has (s : Span) (k : Int) : Prop := s.start ≤ k ∧ k < s.start + s.size

def Apart (s t : Span) : Prop := ∀ k, ¬ (s.Has k ∧ t.Has k)

theorem apart_of_le {s t : Span} (le : s.start + s.size ≤ t.start) : s.Apart t := by
  intro k both
  have first := both.1.2
  have second := both.2.1
  omega

theorem Apart.symm {s t : Span} (apart : s.Apart t) : t.Apart s :=
  fun k both => apart k both.symm

end Span

/-- The ranges follow one another from a to b. -/
def Chained : Int → List Span → Int → Prop
  | a, [], b => b = a
  | a, s :: spans, b => s.start = a ∧ 0 ≤ s.size ∧ Chained (a + s.size) spans b

namespace Chained

variable {a b : Int} {spans : List Span}

theorem le (chained : Chained a spans b) : a ≤ b := by
  induction spans generalizing a with
  | nil => exact Int.le_of_eq (Eq.symm chained)
  | cons s spans ih =>
    have rest := ih chained.2.2
    have size := chained.2.1
    omega

theorem bounds (chained : Chained a spans b) {s : Span} (member : s ∈ spans) :
    a ≤ s.start ∧ s.start + s.size ≤ b := by
  induction spans generalizing a with
  | nil => cases member
  | cons t spans ih =>
    obtain ⟨start, size, rest⟩ := chained
    have above := le rest
    rcases List.mem_cons.mp member with rfl | member
    · constructor <;> omega
    · have inside := ih rest member
      constructor <;> omega

theorem apart (chained : Chained a spans b) : spans.Pairwise Span.Apart := by
  induction spans generalizing a with
  | nil => exact List.Pairwise.nil
  | cons s spans ih =>
    obtain ⟨start, size, rest⟩ := chained
    apply List.Pairwise.cons
    · intro t member
      apply Span.apart_of_le
      rw [start]
      exact (bounds rest member).1
    · exact ih rest

theorem covers (chained : Chained a spans b) {k : Int} (low : a ≤ k) (high : k < b) :
    ∃ s ∈ spans, s.Has k := by
  induction spans generalizing a with
  | nil =>
    have same : b = a := chained
    omega
  | cons s spans ih =>
    obtain ⟨start, size, rest⟩ := chained
    by_cases inside : k < a + s.size
    · have here : s.Has k := by
        constructor <;> omega
      exact ⟨s, List.mem_cons_self, here⟩
    · obtain ⟨t, member, has⟩ := ih rest (by omega)
      exact ⟨t, List.mem_cons_of_mem s member, has⟩

theorem sum (chained : Chained a spans b) : b = a + (spans.map Span.size).sum := by
  induction spans generalizing a with
  | nil =>
    have same : b = a := chained
    simp [same]
  | cons s spans ih =>
    have rest := ih chained.2.2
    rw [List.map_cons, List.sum_cons]
    omega

end Chained

end Spans
