import Mathlib.Data.List.Basic

/-! Printed texts that tell what they show.

A value is told by its text when the text, before whatever may follow it, is not
the text of a value that shows something else. In an indented layout the members
of a list stand at one column, and what follows them starts before it.
-/

set_option autoImplicit false

namespace PrintedText

variable {χ α β γ : Type}

/-- Whatever value the text is the text of, it shows the same and the same follows it. The texts
of interest are those of the values that are printable, before the rests that may follow. -/
def Tells (printable : α → Prop) (print : α → List χ) (view : α → β) (follow : List χ → Prop)
    (a : α) : Prop :=
  ∀ a' r r', printable a' → follow r → follow r' → print a ++ r = print a' ++ r' →
    view a = view a' ∧ r = r'

/-! ## Words -/

theorem word_unique {p : χ → Bool} {w w' r r' : List χ} {c c' : χ} (word : w.all p = true)
    (word' : w'.all p = true) (mark : p c = false) (mark' : p c' = false)
    (same : w ++ c :: r = w' ++ c' :: r') : w = w' ∧ c = c' ∧ r = r' := by
  induction w generalizing w' with
  | nil =>
    cases w' with
    | nil =>
      cases same
      exact ⟨rfl, rfl, rfl⟩
    | cons d w' =>
      cases same
      rw [List.all_cons, mark, Bool.false_and] at word'
      cases word'
  | cons d w ih =>
    rw [List.all_cons, Bool.and_eq_true] at word
    cases w' with
    | nil =>
      cases same
      rw [word.1] at mark'
      cases mark'
    | cons d' w' =>
      rw [List.all_cons, Bool.and_eq_true] at word'
      obtain ⟨first, rest⟩ := List.cons.inj same
      obtain ⟨others, marks, rests⟩ := ih word.2 word'.2 rest
      exact ⟨by rw [first, others], marks, rests⟩

/-! ## Columns -/

section

variable {blank : χ}

/-- The text starts with something in a column, with blanks before it. -/
def AtColumn (blank : χ) (n : Nat) (s : List χ) : Prop :=
  ∃ c r, c ≠ blank ∧ s = List.replicate n blank ++ c :: r

/-- The text does not start with that many blanks. -/
def StartsBefore (blank : χ) (n : Nat) (s : List χ) : Prop := ¬ List.replicate n blank <+: s

theorem AtColumn.startsBefore {n k : Nat} {s : List χ} (column : AtColumn blank n s) (less : n < k) :
    StartsBefore blank k s := by
  obtain ⟨c, r, other, rfl⟩ := column
  rintro ⟨t, same⟩
  obtain ⟨j, rfl⟩ := Nat.exists_eq_add_of_lt less
  rw [Nat.add_assoc, List.replicate_add, List.append_assoc, List.append_cancel_left_eq,
    List.replicate_succ, List.cons_append] at same
  exact other (List.cons.inj same).1.symm

theorem AtColumn.not_startsBefore {n k : Nat} {s : List χ} (column : AtColumn blank n s) (le : k ≤ n) :
    ¬ StartsBefore blank k s := by
  obtain ⟨c, r, -, rfl⟩ := column
  obtain ⟨j, rfl⟩ := Nat.exists_eq_add_of_le le
  rw [StartsBefore, Classical.not_not, List.replicate_add, List.append_assoc]
  exact List.prefix_append ..

theorem StartsBefore.mono {n k : Nat} {s : List χ} (less : StartsBefore blank n s) (le : n ≤ k) :
    StartsBefore blank k s := by
  obtain ⟨j, rfl⟩ := Nat.exists_eq_add_of_le le
  intro start
  rw [List.replicate_add] at start
  exact less ((List.prefix_append ..).trans start)

theorem columns_unique {n : Nat} {s s' : List χ}
    (same : List.replicate n blank ++ s = List.replicate n blank ++ s') : s = s' :=
  List.append_cancel_left same

end

/-! ## Lists -/

section

variable {printable : α → Prop} {print : α → List χ} {view : α → β} {blank : χ} {n k : Nat}

theorem tells_list {l : List α} (each : ∀ a ∈ l, Tells printable print view (StartsBefore blank k) a)
    (column : ∀ a, printable a → ∀ r, AtColumn blank n (print a ++ r)) (right : n < k)
    (all : ∀ a ∈ l, printable a) :
    Tells (fun l => ∀ a ∈ l, printable a) (·.flatMap print) (·.map view) (StartsBefore blank n) l := by
  -- the rest, and also a list before it, starts no further right than the column
  have next : ∀ (l : List α) r, (∀ a ∈ l, printable a) → StartsBefore blank n r →
      StartsBefore blank k (l.flatMap print ++ r) := by
    intro l r ok may
    cases l with
    | nil => exact may.mono (Nat.le_of_lt right)
    | cons a l =>
      rw [List.flatMap_cons, List.append_assoc]
      exact (column a (ok a List.mem_cons_self) _).startsBefore right
  intro l' r r' all' may may' same
  dsimp only at same ⊢
  induction l generalizing l' with
  | nil =>
    cases l' with
    | nil => exact ⟨rfl, same⟩
    | cons a l' =>
      rw [List.flatMap_cons, List.append_assoc] at same
      have starts := (column a (all' a List.mem_cons_self) (l'.flatMap print ++ r')).not_startsBefore
        (Nat.le_refl n)
      rw [← same] at starts
      exact absurd may starts
  | cons a l ih =>
    cases l' with
    | nil =>
      rw [List.flatMap_cons, List.append_assoc] at same
      have starts := (column a (all a List.mem_cons_self) (l.flatMap print ++ r)).not_startsBefore
        (Nat.le_refl n)
      rw [same] at starts
      exact absurd may' starts
    | cons a' l' =>
      have all₁ : ∀ b ∈ l, printable b := fun b member => all b (List.mem_cons_of_mem a member)
      have all₂ : ∀ b ∈ l', printable b := fun b member => all' b (List.mem_cons_of_mem a' member)
      simp only [List.flatMap_cons, List.append_assoc] at same
      obtain ⟨first, rest⟩ := each a List.mem_cons_self a' _ _ (all' a' List.mem_cons_self)
        (next l r all₁ may) (next l' r' all₂ may') same
      obtain ⟨others, ends⟩ := ih (fun b member => each b (List.mem_cons_of_mem a member)) all₁ l'
        all₂ rest
      exact ⟨by rw [List.map_cons, List.map_cons, first, others], ends⟩

end

end PrintedText
