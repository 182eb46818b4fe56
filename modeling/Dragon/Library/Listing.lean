import Mathlib.Data.List.Basic

/-! Lines printed by nested parts.

A part prints lines of its own and has the parts inside it print theirs in
between. Every line of the text belongs to one part, named by its path.
-/

set_option autoImplicit false

namespace Listings

inductive Listing (α : Type) where
  | last (lines : List α)
  | step (lines : List α) (inside rest : Listing α)

namespace Listing

variable {α : Type}

def text : Listing α → List α
  | last lines => lines
  | step lines inside rest => lines ++ (inside.text ++ rest.text)

def own : Listing α → List α
  | last lines => lines
  | step lines _ rest => lines ++ rest.own

/-- The text with the path of each line's part; k numbers the next part inside. -/
def tagged : List Nat → Nat → Listing α → List (List Nat × α)
  | path, _, last lines => lines.map (path, ·)
  | path, k, step lines inside rest =>
      lines.map (path, ·) ++ (inside.tagged (path ++ [k]) 0 ++ rest.tagged path (k + 1))

def AllInside (Q : Listing α → Prop) : Listing α → Prop
  | last _ => True
  | step _ inside rest => (Q inside ∧ inside.AllInside Q) ∧ rest.AllInside Q

structure All (Q : Listing α → Prop) (l : Listing α) : Prop where
  self : Q l
  inside : l.AllInside Q

theorem tagged_text (l : Listing α) (path : List Nat) (k : Nat) :
    (l.tagged path k).map Prod.snd = l.text := by
  have plain : ∀ (path : List Nat) (lines : List α), (lines.map (path, ·)).map Prod.snd = lines := by
    intro path lines
    rw [List.map_map]
    exact List.map_id lines
  induction l generalizing path k with
  | last lines => exact plain path lines
  | step lines inside rest ih₁ ih₂ =>
    rw [tagged, text, List.map_append, List.map_append, plain, ih₁, ih₂]

theorem tagged_length (l : Listing α) (path : List Nat) (k : Nat) :
    (l.tagged path k).length = l.text.length := by
  rw [← tagged_text l path k, List.length_map]

theorem own_tagged {l : Listing α} {path : List Nat} {k : Nat} {b : α} (member : b ∈ l.own) :
    ∃ q : Nat, (l.tagged path k)[q]? = some (path, b) := by
  apply List.mem_iff_getElem?.mp
  induction l generalizing k with
  | last lines => exact List.mem_map_of_mem member
  | step lines inside rest _ ih =>
    rw [tagged, List.mem_append, List.mem_append]
    rcases List.mem_append.mp member with first | later
    · exact .inl (List.mem_map_of_mem first)
    · exact .inr (.inr (ih later))

/-- The part that the line p of a tagged text belongs to, and where it stands. -/
structure Owner (Q : Listing α → Prop) (tags : List (List Nat × α)) (p : Nat) (tag : List Nat) (a : α)
    (before after : List α) (part : Listing α) : Prop where
  holds : Q part
  split : tags.map Prod.snd = before ++ (part.text ++ after)
  low : before.length ≤ p
  high : p < before.length + part.text.length
  line : a ∈ part.own
  others : ∀ b ∈ part.own, ∃ q : Nat, before.length ≤ q ∧ q < before.length + part.text.length ∧
    tags[q]? = some (tag, b)

theorem Owner.shift {Q : Listing α → Prop} {tags : List (List Nat × α)} {p : Nat} {tag : List Nat}
    {a : α} {before after : List α} {part : Listing α} (owner : Owner Q tags p tag a before after part)
    (first last : List (List Nat × α)) :
    Owner Q (first ++ (tags ++ last)) (first.length + p) tag a (first.map Prod.snd ++ before)
      (after ++ last.map Prod.snd) part := by
  have length : (first.map Prod.snd ++ before).length = first.length + before.length := by
    rw [List.length_append, List.length_map]
  refine ⟨owner.holds, ?_, ?_, ?_, owner.line, ?_⟩
  · rw [List.map_append, List.map_append, owner.split]
    simp only [List.append_assoc]
  · have := owner.low
    omega
  · have := owner.high
    omega
  · intro b member
    obtain ⟨q, low, high, found⟩ := owner.others b member
    refine ⟨first.length + q, by omega, by omega, ?_⟩
    rw [List.getElem?_append_right (by omega), Nat.add_sub_cancel_left,
      List.getElem?_append_left (List.getElem?_eq_some_iff.mp found).1]
    exact found

theorem All.owner_self {Q : Listing α → Prop} {l : Listing α} (all : l.All Q) {path : List Nat}
    {p : Nat} {a : α} (here : (l.tagged path 0)[p]? = some (path, a)) (line : a ∈ l.own) :
    Owner Q (l.tagged path 0) p path a [] [] l := by
  have small := (List.getElem?_eq_some_iff.mp here).1
  rw [tagged_length] at small
  refine ⟨all.self, ?_, Nat.zero_le p, ?_, line, ?_⟩
  · rw [tagged_text, List.nil_append, List.append_nil]
  · rw [List.length_nil, Nat.zero_add]
    exact small
  · intro b member
    obtain ⟨q, found⟩ := @own_tagged α l path 0 b member
    have inside := (List.getElem?_eq_some_iff.mp found).1
    rw [tagged_length] at inside
    exact ⟨q, Nat.zero_le q, by rw [List.length_nil, Nat.zero_add]; exact inside, found⟩

theorem AllInside.owner {Q : Listing α → Prop} {l : Listing α} (all : l.AllInside Q)
    {path tag : List Nat} {k p : Nat} {a : α} (here : (l.tagged path k)[p]? = some (tag, a)) :
    (tag = path ∧ a ∈ l.own) ∨ ∃ before after part, Owner Q (l.tagged path k) p tag a before after part := by
  induction l generalizing path k p with
  | last lines =>
    have member := List.mem_of_getElem? here
    obtain ⟨b, inside, same⟩ := List.mem_map.mp member
    cases same
    exact .inl ⟨rfl, inside⟩
  | step lines inside rest ih₁ ih₂ =>
    obtain ⟨⟨holds, inner⟩, later⟩ := all
    rw [tagged] at here ⊢
    by_cases first : p < (lines.map fun b => (path, b)).length
    · rw [List.getElem?_append_left first] at here
      obtain ⟨b, member, same⟩ := List.mem_map.mp (List.mem_of_getElem? here)
      cases same
      exact .inl ⟨rfl, List.mem_append_left _ member⟩
    · rw [List.getElem?_append_right (by omega)] at here
      obtain ⟨q, rfl⟩ := Nat.exists_eq_add_of_le (Nat.le_of_not_lt first)
      rw [Nat.add_sub_cancel_left] at here
      by_cases second : q < (inside.tagged (path ++ [k]) 0).length
      · rw [List.getElem?_append_left second] at here
        rcases ih₁ inner here with ⟨rfl, line⟩ | ⟨before, after, part, owner⟩
        · exact .inr ⟨_, _, _, ((All.mk holds inner).owner_self here line).shift _ _⟩
        · exact .inr ⟨_, _, _, owner.shift _ _⟩
      · rw [List.getElem?_append_right (by omega)] at here
        obtain ⟨r, rfl⟩ := Nat.exists_eq_add_of_le (Nat.le_of_not_lt second)
        rw [Nat.add_sub_cancel_left] at here
        rcases ih₂ later here with ⟨rfl, line⟩ | ⟨before, after, part, owner⟩
        · exact .inl ⟨rfl, List.mem_append_right _ line⟩
        · have shifted := owner.shift ((lines.map fun b => (path, b)) ++ inside.tagged (path ++ [k]) 0) []
          rw [List.append_nil, List.append_assoc, List.length_append, Nat.add_assoc] at shifted
          exact .inr ⟨_, _, _, shifted⟩

theorem All.owner {Q : Listing α → Prop} {l : Listing α} (all : l.All Q) {path tag : List Nat}
    {p : Nat} {a : α} (here : (l.tagged path 0)[p]? = some (tag, a)) :
    ∃ before after part, Owner Q (l.tagged path 0) p tag a before after part := by
  rcases all.inside.owner here with ⟨rfl, line⟩ | found
  · exact ⟨_, _, _, all.owner_self here line⟩
  · exact found

end Listing

end Listings
