import Mathlib.Computability.Language

/-! Regular patterns over character sets.

A pattern denotes a language and is matched by derivatives. Which characters a
pattern mentions, and which it can start with, is read off the pattern.
-/

set_option autoImplicit false

namespace Lexical

open Computability

inductive Pattern (α : Type) where
  | none
  | empty
  | set (p : α → Bool)
  | alt (first second : Pattern α)
  | seq (first second : Pattern α)
  | star (inner : Pattern α)

namespace Pattern

variable {α : Type}

def language : Pattern α → Language α
  | none => 0
  | empty => 1
  | set p => {w | ∃ c, p c = true ∧ w = [c]}
  | alt first second => first.language + second.language
  | seq first second => first.language * second.language
  | star inner => inner.language∗

def word [DecidableEq α] : List α → Pattern α
  | [] => empty
  | c :: w => seq (set (· == c)) (word w)

def opt (p : Pattern α) : Pattern α := alt p empty

def many (p : Pattern α) : Pattern α := seq p (star p)

/-! ## Matching -/

def nullable : Pattern α → Bool
  | none | set _ => false
  | empty | star _ => true
  | alt first second => first.nullable || second.nullable
  | seq first second => first.nullable && second.nullable

/-- Union, without the alternatives that match nothing. -/
def either : Pattern α → Pattern α → Pattern α
  | none, second => second
  | first, none => first
  | first, second => alt first second

/-- Concatenation, simplified. -/
def andThen : Pattern α → Pattern α → Pattern α
  | none, _ => none
  | empty, second => second
  | first, second => seq first second

/-- The words that follow c in the words of a pattern. -/
def deriv (c : α) : Pattern α → Pattern α
  | none | empty => none
  | set p => if p c then empty else none
  | alt first second => (first.deriv c).either (second.deriv c)
  | seq first second =>
      if first.nullable then ((first.deriv c).andThen second).either (second.deriv c)
      else (first.deriv c).andThen second
  | star inner => (inner.deriv c).andThen (star inner)

def accepts (p : Pattern α) : List α → Bool
  | [] => p.nullable
  | c :: w => (p.deriv c).accepts w

@[simp] theorem not_mem_none {w : List α} : w ∉ (none : Pattern α).language := Language.notMem_zero w

@[simp] theorem mem_empty {w : List α} : w ∈ (empty : Pattern α).language ↔ w = [] := Iff.rfl

@[simp] theorem mem_set {p : α → Bool} {w : List α} :
    w ∈ (set p).language ↔ ∃ c, p c = true ∧ w = [c] := Iff.rfl

@[simp] theorem mem_alt {p q : Pattern α} {w : List α} :
    w ∈ (alt p q).language ↔ w ∈ p.language ∨ w ∈ q.language := Iff.rfl

@[simp] theorem mem_seq {p q : Pattern α} {w : List α} :
    w ∈ (seq p q).language ↔ ∃ u ∈ p.language, ∃ v ∈ q.language, u ++ v = w := Language.mem_mul

theorem mem_star {p : Pattern α} {w : List α} : w ∈ (star p).language ↔ w ∈ p.language∗ := Iff.rfl

theorem nullable_iff (p : Pattern α) : p.nullable = true ↔ [] ∈ p.language := by
  induction p with
  | none => simp [nullable]
  | empty => simp [nullable]
  | set p => simp [nullable]
  | alt p q ihp ihq => simp [nullable, ihp, ihq]
  | seq p q ihp ihq => simp [nullable, ihp, ihq]
  | star p _ => simp [nullable, mem_star, Language.nil_mem_kstar]

theorem mem_either {p q : Pattern α} {w : List α} :
    w ∈ (p.either q).language ↔ w ∈ p.language ∨ w ∈ q.language := by
  cases p <;> cases q <;> simp only [either, not_mem_none, mem_alt, false_or, or_false]

theorem mem_andThen {p q : Pattern α} {w : List α} :
    w ∈ (p.andThen q).language ↔ w ∈ (seq p q).language := by
  cases p <;> simp [andThen]

-- A word of a concatenation takes its first letter from the first pattern, unless that matches
-- the empty word.
theorem cons_mem_seq {p q : Pattern α} {c : α} {w : List α} :
    c :: w ∈ (seq p q).language ↔
      (∃ u, c :: u ∈ p.language ∧ ∃ v ∈ q.language, u ++ v = w) ∨
        ([] ∈ p.language ∧ c :: w ∈ q.language) := by
  rw [mem_seq]
  constructor
  · rintro ⟨u, inFirst, v, inSecond, both⟩
    cases u with
    | nil =>
      rw [List.nil_append] at both
      exact .inr ⟨inFirst, both ▸ inSecond⟩
    | cons d u =>
      obtain ⟨rfl, rest⟩ := List.cons.inj both
      exact .inl ⟨u, inFirst, v, inSecond, rest⟩
  · rintro (⟨u, inFirst, v, inSecond, both⟩ | ⟨nothing, inSecond⟩)
    · exact ⟨c :: u, inFirst, v, inSecond, congrArg (c :: ·) both⟩
    · exact ⟨[], nothing, c :: w, inSecond, rfl⟩

theorem cons_mem_star {p : Pattern α} {c : α} {w : List α} :
    c :: w ∈ (star p).language ↔
      ∃ u, c :: u ∈ p.language ∧ ∃ v ∈ (star p).language, u ++ v = w := by
  constructor
  · intro repeated
    obtain ⟨parts, joined, each⟩ := Language.mem_kstar_iff_exists_nonempty.mp repeated
    cases parts with
    | nil => cases joined
    | cons part parts =>
      obtain ⟨inside, some_⟩ := each part List.mem_cons_self
      cases part with
      | nil => exact absurd rfl some_
      | cons d u =>
        obtain ⟨rfl, same⟩ := List.cons.inj joined
        have rest : parts.flatten ∈ (star p).language :=
          Language.join_mem_kstar fun v member => (each v (List.mem_cons_of_mem _ member)).1
        exact ⟨u, inside, parts.flatten, rest, same.symm⟩
  · rintro ⟨u, first, v, rest, rfl⟩
    obtain ⟨parts, rfl, each⟩ := Language.mem_kstar.mp rest
    apply Language.mem_kstar.mpr
    refine ⟨(c :: u) :: parts, rfl, ?_⟩
    exact List.forall_mem_cons.mpr ⟨first, each⟩

theorem mem_deriv {p : Pattern α} {c : α} {w : List α} :
    w ∈ (p.deriv c).language ↔ c :: w ∈ p.language := by
  induction p generalizing w with
  | none => simp [deriv]
  | empty => simp [deriv]
  | set p =>
    by_cases inside : p c = true
    · simp [deriv, inside]
    · simp only [deriv, inside, mem_set]
      simp [inside]
  | alt p q ihp ihq => simp only [deriv, mem_either, mem_alt, ihp, ihq]
  | seq p q ihp ihq =>
    simp only [cons_mem_seq, deriv]
    by_cases skipped : p.nullable = true
    · have nothing := (nullable_iff p).mp skipped
      simp only [skipped, if_true, mem_either, mem_andThen, mem_seq, ihp, ihq, nothing, true_and]
    · have something : [] ∉ p.language := mt (nullable_iff p).mpr skipped
      simp only [skipped, mem_andThen, mem_seq, ihp, something, false_and, or_false,
        Bool.false_eq_true, if_false]
  | star p ih =>
    simp only [cons_mem_star, deriv, mem_andThen, mem_seq, ih]

theorem accepts_iff {p : Pattern α} {w : List α} : p.accepts w = true ↔ w ∈ p.language := by
  induction w generalizing p with
  | nil => exact nullable_iff p
  | cons c w ih => rw [accepts, ih, mem_deriv]

/-! ## What a pattern tells about its words -/

@[simp] theorem mem_word [DecidableEq α] {s w : List α} : w ∈ (word s).language ↔ w = s := by
  induction s generalizing w with
  | nil => simp [word]
  | cons c s ih =>
    rw [word, mem_seq]
    constructor
    · rintro ⟨u, ⟨d, same, rfl⟩, v, rest, rfl⟩
      rw [ih.mp rest, beq_iff_eq.mp same]
      rfl
    · rintro rfl
      exact ⟨[c], ⟨c, beq_self_eq_true c, rfl⟩, s, ih.mpr rfl, rfl⟩

theorem mem_star_of_each {p : Pattern α} {w : List α} (each : ∀ c ∈ w, [c] ∈ p.language) :
    w ∈ (star p).language := by
  induction w with
  | nil => exact Language.nil_mem_kstar _
  | cons c w ih =>
    rw [List.forall_mem_cons] at each
    exact cons_mem_star.mpr ⟨[], each.1, w, ih each.2, rfl⟩

theorem mem_star_set {p : α → Bool} {w : List α} :
    w ∈ (star (set p)).language ↔ ∀ c ∈ w, p c = true := by
  induction w with
  | nil => simp [mem_star, Language.nil_mem_kstar]
  | cons c w ih =>
    rw [cons_mem_star, List.forall_mem_cons, ← ih]
    simp

def mentions (c : α) : Pattern α → Bool
  | none | empty => false
  | set p => p c
  | alt first second | seq first second => first.mentions c || second.mentions c
  | star inner => inner.mentions c

theorem mentions_of_mem {p : Pattern α} {c : α} {w : List α} (inside : w ∈ p.language)
    (member : c ∈ w) : p.mentions c = true := by
  induction p generalizing w with
  | none => cases inside
  | empty =>
    cases inside
    cases member
  | set p =>
    obtain ⟨d, holds, rfl⟩ := inside
    rw [List.mem_singleton.mp member]
    exact holds
  | alt p q ihp ihq =>
    rw [mentions, Bool.or_eq_true]
    exact inside.imp (ihp · member) (ihq · member)
  | seq p q ihp ihq =>
    obtain ⟨u, first, v, second, rfl⟩ := mem_seq.mp inside
    rw [mentions, Bool.or_eq_true]
    exact (List.mem_append.mp member).imp (ihp first) (ihq second)
  | star p ih =>
    obtain ⟨parts, rfl, each⟩ := Language.mem_kstar.mp inside
    obtain ⟨part, here, member⟩ := List.mem_flatten.mp member
    exact ih (each part here) member

def starts (c : α) : Pattern α → Bool
  | none | empty => false
  | set p => p c
  | alt first second => first.starts c || second.starts c
  | seq first second => first.starts c || (first.nullable && second.starts c)
  | star inner => inner.starts c

theorem starts_of_mem {p : Pattern α} {c : α} {w : List α} (inside : c :: w ∈ p.language) :
    p.starts c = true := by
  induction p generalizing w with
  | none => cases inside
  | empty => cases inside
  | set p =>
    obtain ⟨d, holds, same⟩ := inside
    cases same
    exact holds
  | alt p q ihp ihq =>
    rw [starts, Bool.or_eq_true]
    exact inside.imp ihp ihq
  | seq p q ihp ihq =>
    rw [starts, Bool.or_eq_true, Bool.and_eq_true, nullable_iff]
    rcases cons_mem_seq.mp inside with ⟨u, first, -⟩ | ⟨nothing, second⟩
    · exact .inl (ihp first)
    · exact .inr ⟨nothing, ihq second⟩
  | star p ih =>
    obtain ⟨u, first, -⟩ := cons_mem_star.mp inside
    exact ih first

/-- The pattern is one set, so its words have one letter. -/
def single : Pattern α → Bool
  | set _ => true
  | _ => false

theorem length_of_single {p : Pattern α} {w : List α} (one : p.single = true)
    (inside : w ∈ p.language) : w.length = 1 := by
  cases p with
  | set p =>
    obtain ⟨c, -, rfl⟩ := inside
    rfl
  | none | empty | alt | seq | star => cases one

end Pattern

end Lexical
