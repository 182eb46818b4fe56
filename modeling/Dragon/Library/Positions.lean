import Mathlib.Data.List.Infix

/-! Lines and columns of a text.

A position is moved on by each character: a newline starts the next line, any
other character takes a column. What a text does to the line is a sum; what it
does to the column depends on the text alone as soon as it has a newline.
-/

set_option autoImplicit false

namespace TextPosition

@[ext] structure Position where
  line : Nat
  column : Nat
  deriving DecidableEq, Repr

namespace Position

def origin : Position := ⟨1, 1⟩

def advance (p : Position) (c : Char) : Position :=
  if c = '\n' then ⟨p.line + 1, 1⟩ else ⟨p.line, p.column + 1⟩

def through (p : Position) (t : List Char) : Position := t.foldl advance p

variable {p q : Position} {t u : List Char}

@[simp] theorem through_nil (p : Position) : p.through [] = p := rfl

theorem through_cons (p : Position) (c : Char) (t : List Char) :
    p.through (c :: t) = (p.advance c).through t := rfl

theorem through_append (p : Position) (t u : List Char) :
    p.through (t ++ u) = (p.through t).through u := List.foldl_append

theorem advance_newline (p : Position) : p.advance '\n' = ⟨p.line + 1, 1⟩ := if_pos rfl

theorem advance_of_ne (p : Position) {c : Char} (other : c ≠ '\n') :
    p.advance c = ⟨p.line, p.column + 1⟩ := if_neg other

theorem line_through (p : Position) (t : List Char) :
    (p.through t).line = p.line + t.count '\n' := by
  induction t generalizing p with
  | nil => rfl
  | cons c t ih =>
    rw [through_cons, ih]
    by_cases newline : c = '\n'
    · rw [newline, advance_newline, List.count_cons_self]
      dsimp only
      omega
    · rw [advance_of_ne p newline, List.count_cons_of_ne newline]

theorem through_of_flat (p : Position) (flat : '\n' ∉ t) :
    p.through t = ⟨p.line, p.column + t.length⟩ := by
  induction t generalizing p with
  | nil => rfl
  | cons c t ih =>
    rw [List.mem_cons, not_or] at flat
    rw [through_cons, ih _ flat.2, advance_of_ne p (Ne.symm flat.1), List.length_cons]
    ext
    · rfl
    · dsimp only
      omega

theorem column_through (p q : Position) (newline : '\n' ∈ t) :
    (p.through t).column = (q.through t).column := by
  induction t generalizing p q with
  | nil => cases newline
  | cons c t ih =>
    rw [through_cons, through_cons]
    by_cases later : '\n' ∈ t
    · exact ih _ _ later
    · obtain rfl : '\n' = c := (List.mem_cons.mp newline).resolve_right later
      rw [advance_newline, advance_newline, through_of_flat _ later, through_of_flat _ later]

theorem column_pos (positive : 0 < p.column) (t : List Char) : 0 < (p.through t).column := by
  induction t generalizing p with
  | nil => exact positive
  | cons c t ih =>
    rw [through_cons]
    apply ih
    unfold advance
    split <;> exact Nat.succ_pos _

-- A text that is read again from where it ended is never where it was.
theorem again_ne (some_ : u ≠ []) (flat : '\n' ∉ u → '\n' ∉ t) :
    (p.through u).through t ≠ p.through t := by
  intro same
  by_cases newline : '\n' ∈ u
  · have lines := congrArg line same
    rw [line_through, line_through, line_through] at lines
    have counted := List.count_pos_iff.mpr newline
    omega
  · have columns := congrArg column same
    rw [through_of_flat _ (flat newline), through_of_flat p (flat newline), through_of_flat p newline]
      at columns
    have counted := List.length_pos_iff.mpr some_
    dsimp only at columns
    omega

end Position

end TextPosition
