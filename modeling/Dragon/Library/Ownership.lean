import Mathlib.Data.List.Basic
import Mathlib.Data.List.Nodup

/-! Which blocks a pointer owns, and the lists of a C program in memory.

A block owns the pointers in its fields. A place is the way to a block, from the
last field to the first, so blocks at different places are different blocks.
-/

set_option autoImplicit false

namespace Ownership

variable {σ : Type}

/-- NULL, or a pointer to a block that owns the pointers in its fields. -/
inductive Pointer (σ : Type) where
  | null
  | block (fields : List (σ × Pointer σ))

namespace Pointer

def plain : Pointer σ := .block []

mutual

/-- The places of the blocks behind a pointer that is kept at a place. -/
def blocks : Pointer σ → List σ → List (List σ)
  | .null, _ => []
  | .block fields, place => [place] ++ fieldBlocks fields place

def fieldBlocks : List (σ × Pointer σ) → List σ → List (List σ)
  | [], _ => []
  | (f, p) :: fields, place => p.blocks (f :: place) ++ fieldBlocks fields place

end

mutual

/-- The fields of every block have different names. -/
def Distinct : Pointer σ → Prop
  | .null => True
  | .block fields => (fields.map Prod.fst).Nodup ∧ FieldsDistinct fields

def FieldsDistinct : List (σ × Pointer σ) → Prop
  | [] => True
  | (_, p) :: fields => p.Distinct ∧ FieldsDistinct fields

end

mutual

theorem suffix_of_mem_blocks : ∀ {p : Pointer σ} {place b : List σ}, b ∈ p.blocks place →
    place <:+ b
  | .null, _, _, member => absurd member List.not_mem_nil
  | .block fields, place, b, member => by
      rw [blocks, List.mem_append, List.mem_singleton] at member
      rcases member with rfl | inner
      · exact List.suffix_refl b
      · obtain ⟨f, -, behind⟩ := suffix_of_mem_fieldBlocks inner
        exact (List.suffix_cons f place).trans behind

theorem suffix_of_mem_fieldBlocks : ∀ {fields : List (σ × Pointer σ)} {place b : List σ},
    b ∈ fieldBlocks fields place → ∃ f ∈ fields.map Prod.fst, f :: place <:+ b
  | [], _, _, member => absurd member List.not_mem_nil
  | (f, p) :: fields, place, b, member => by
      rw [fieldBlocks, List.mem_append] at member
      rcases member with here | later
      · exact ⟨f, List.mem_cons_self, suffix_of_mem_blocks here⟩
      · obtain ⟨g, among, behind⟩ := suffix_of_mem_fieldBlocks later
        exact ⟨g, List.mem_cons_of_mem f among, behind⟩

end

theorem field_unique {f g : σ} {place b : List σ} (left : f :: place <:+ b)
    (right : g :: place <:+ b) : f = g := by
  -- two fields of one block lead to different places
  rcases List.suffix_or_suffix_of_suffix left right with inner | inner
  · exact (List.cons.inj (inner.eq_of_length rfl)).1
  · exact (List.cons.inj (inner.eq_of_length rfl)).1.symm

mutual

theorem nodup_blocks : ∀ {p : Pointer σ} (_ : p.Distinct) (place : List σ),
    (p.blocks place).Nodup
  | .null, _, _ => List.nodup_nil
  | .block fields, distinct, place => by
      rw [blocks, List.singleton_append, List.nodup_cons]
      refine ⟨?_, nodup_fieldBlocks distinct.1 distinct.2 place⟩
      -- what is behind a field has a longer way than the block itself
      intro inner
      obtain ⟨f, -, behind⟩ := suffix_of_mem_fieldBlocks inner
      exact absurd behind.length_le (by simp)

theorem nodup_fieldBlocks : ∀ {fields : List (σ × Pointer σ)} (_ : (fields.map Prod.fst).Nodup)
    (_ : FieldsDistinct fields) (place : List σ), (fieldBlocks fields place).Nodup
  | [], _, _, _ => List.nodup_nil
  | (f, p) :: fields, names, distinct, place => by
      rw [List.map_cons, List.nodup_cons] at names
      rw [fieldBlocks]
      refine (nodup_blocks distinct.1 _).append (nodup_fieldBlocks names.2 distinct.2 place) ?_
      -- a block behind the first field and behind a later one would make their names the same
      intro b here later
      obtain ⟨g, among, behind⟩ := suffix_of_mem_fieldBlocks later
      have same := field_unique (suffix_of_mem_blocks here) behind
      exact names.1 (same ▸ among)

end

end Pointer

/-! ## Lists

A list keeps its first node in itself, and a node owns its element and the next
node. So the place of the first node is the place of the list.
-/

/-- The names of the fields of a node. -/
class ListFields (σ : Type) where
  elt : σ
  next : σ
  elt_ne_next : elt ≠ next

section

variable [ListFields σ]

open ListFields

/-- The node before some elements, and what it leads to. -/
def chain : List (Pointer σ) → Pointer σ
  | [] => .null
  | p :: rest => .block [(elt, p), (next, chain rest)]

def listOf : List (Pointer σ) → Pointer σ
  | [] => .plain
  | p :: rest => chain (p :: rest)

theorem mem_listOf {ps : List (Pointer σ)} {place b : List σ} (member : b ∈ (chain ps).blocks place) :
    b ∈ (listOf ps).blocks place := by
  cases ps with
  | nil => exact absurd member List.not_mem_nil
  | cons p rest => exact member

theorem chain_distinct {ps : List (Pointer σ)} (each : ∀ p ∈ ps, p.Distinct) :
    (chain ps).Distinct := by
  induction ps with
  | nil => trivial
  | cons p rest ih =>
    have inner := ih fun q member => each q (List.mem_cons_of_mem p member)
    refine ⟨?_, each p List.mem_cons_self, inner, trivial⟩
    simp [elt_ne_next]

theorem listOf_distinct {ps : List (Pointer σ)} (each : ∀ p ∈ ps, p.Distinct) :
    (listOf ps).Distinct := by
  cases ps with
  | nil => exact ⟨List.nodup_nil, trivial⟩
  | cons p rest => exact chain_distinct each

end

/-- Frees the elements and the nodes after the first; each element comes with its node and with
what its destructor frees. -/
def nodeFree {β : Type} : List (β × List β) → List β
  | [] => []
  | (node, element) :: rest => element ++ [node] ++ nodeFree rest

def listFree {β : Type} (self : β) : List (β × List β) → List β
  | [] => [self]
  -- the first node is part of the list, so only its element is freed
  | (_, first) :: rest => nodeFree rest ++ first ++ [self]

theorem listFree_nil {β : Type} (self : β) : listFree self [] = [self] := rfl

theorem nodeFree_append {β : Type} (xs ys : List (β × List β)) :
    nodeFree (xs ++ ys) = nodeFree xs ++ nodeFree ys := by
  induction xs with
  | nil => rfl
  | cons x xs ih => simp only [List.cons_append, nodeFree, ih, List.append_assoc]

/-- The destructor of a pointer, called with the place of what it points to, frees each of its
blocks once, and nothing else. -/
def Frees [DecidableEq σ] (free : List σ → List (List σ)) (p : Pointer σ) : Prop :=
  ∀ place b, (free place).count b = (p.blocks place).count b

section

variable [DecidableEq σ] [ListFields σ]

open ListFields

/-- The elements of a list with their nodes; the first node is at a place. -/
def withNodes (node : List σ) : List (List σ → List (List σ)) → List (List σ × List (List σ))
  | [] => []
  | free :: rest => (node, free (elt :: node)) :: withNodes (next :: node) rest

theorem count_nodeFree {frees : List (List σ → List (List σ))} {ps : List (Pointer σ)}
    (each : List.Forall₂ Frees frees ps) (node b : List σ) :
    (nodeFree (withNodes node frees)).count b = ((chain ps).blocks node).count b := by
  induction each generalizing node with
  | nil => rfl
  | cons first _ ih =>
    simp only [withNodes, nodeFree, chain, Pointer.blocks, Pointer.fieldBlocks, List.append_nil,
      List.count_append, first _ b, ih]
    omega

theorem frees_list {frees : List (List σ → List (List σ))} {ps : List (Pointer σ)}
    (each : List.Forall₂ Frees frees ps) :
    Frees (fun place => listFree place (withNodes place frees)) (listOf ps) := by
  intro place b
  cases each with
  | nil => rfl
  | cons first rest =>
    simp only [withNodes, listFree, listOf, chain, Pointer.blocks, Pointer.fieldBlocks,
      List.append_nil, List.count_append, first _ b, count_nodeFree rest]
    omega

end

end Ownership
