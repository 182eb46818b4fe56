import Mathlib.Data.List.Basic

/-! A growable vector: a block of cells, of which the first `length` are in use.

Cells that were never written hold `none`. A read or a write outside the block
is undefined.
-/

set_option autoImplicit false

namespace GrowableVector

structure PtrVec (α : Type) where
  length : Nat
  capacity : Nat
  data : List (Option α)

variable {α : Type}

def ptrvecWcap (cap : Nat) : PtrVec α := ⟨0, cap, List.replicate cap none⟩

/-- Double the block unless the length is below its capacity. -/
def ptrvecReserve (vec : PtrVec α) (len : Nat) : PtrVec α :=
  if len < vec.capacity then vec
  else { vec with
    capacity := vec.capacity * 2
    data := vec.data ++ List.replicate (vec.capacity * 2 - vec.data.length) none }

def PtrVec.write (vec : PtrVec α) (i : Nat) (elem : α) : Option (PtrVec α) :=
  if i < vec.data.length then some { vec with data := vec.data.set i (some elem) } else none

def PtrVec.read (vec : PtrVec α) (i : Nat) : Option α := (vec.data[i]?).join

def ptrvecPush (vec : PtrVec α) (elem : α) : Option (Nat × PtrVec α) := do
  let idx := vec.length
  let vec := { vec with length := vec.length + 1 }
  let vec ← (ptrvecReserve vec vec.length).write idx elem
  some (idx, vec)

def ptrvecNew (elems : List α) : Option (PtrVec α) :=
  elems.foldlM (fun vec elem => (ptrvecPush vec elem).map Prod.snd) (ptrvecWcap elems.length)

/-- The cell read is the one of the length before it is lowered. `blank` is what a cell holds that
was never written. -/
def ptrvecPop (blank : Nat → α) (vec : PtrVec α) : Option (α × PtrVec α) :=
  let idx := vec.length
  let vec := { vec with length := vec.length - 1 }
  if idx < vec.data.length then some ((vec.read idx).getD (blank idx), vec) else none

/-- The vector holds these elements, and has room for one more. -/
structure Holds (vec : PtrVec α) (xs : List α) : Prop where
  length : vec.length = xs.length
  block : vec.data.length = vec.capacity
  room : xs.length < vec.capacity
  cells : ∀ i, (less : i < xs.length) → vec.data[i]? = some (some xs[i])

theorem holds_ptrvecWcap {cap : Nat} (positive : 0 < cap) : Holds (ptrvecWcap cap : PtrVec α) [] :=
  ⟨rfl, by simp [ptrvecWcap], positive, by simp⟩

theorem Holds.read {vec : PtrVec α} {xs : List α} (holds : Holds vec xs) {i : Nat}
    (less : i < xs.length) : vec.read i = some xs[i] := by
  simp [PtrVec.read, holds.cells i less]

-- After a reservation there is room for the length and one more, and the block's cells are kept.
theorem ptrvecReserve_room {vec : PtrVec α} {len : Nat} (block : vec.data.length = vec.capacity)
    (positive : 0 < vec.capacity) (near : len ≤ vec.capacity) :
    (ptrvecReserve vec len).length = vec.length ∧
      (ptrvecReserve vec len).data.length = (ptrvecReserve vec len).capacity ∧
      len < (ptrvecReserve vec len).capacity ∧
      ∀ i < vec.capacity, (ptrvecReserve vec len).data[i]? = vec.data[i]? := by
  unfold ptrvecReserve
  split
  next fits => exact ⟨rfl, block, fits, fun _ _ => rfl⟩
  next full =>
    refine ⟨rfl, ?_, by dsimp only; omega, ?_⟩
    · simp only [List.length_append, List.length_replicate]
      omega
    · intro i old
      exact List.getElem?_append_left (by omega)

-- A push never writes outside the block, and the cells in use keep their contents.
theorem Holds.push {vec : PtrVec α} {xs : List α} (holds : Holds vec xs) (elem : α) :
    ∃ vec', ptrvecPush vec elem = some (xs.length, vec') ∧ Holds vec' (xs ++ [elem]) := by
  have length := holds.length
  have room := holds.room
  have near : vec.length + 1 ≤ vec.capacity := by omega
  have reserve := @ptrvecReserve_room α { vec with length := vec.length + 1 } _ holds.block
    (Nat.zero_lt_of_lt room) near
  generalize reserved : ptrvecReserve { vec with length := vec.length + 1 } (vec.length + 1) = vec₁
    at reserve
  obtain ⟨length₁, block₁, room₁, kept⟩ := reserve
  refine ⟨{ vec₁ with data := vec₁.data.set xs.length (some elem) }, ?_, ?_, ?_, ?_, ?_⟩
  · have inside : xs.length < vec₁.data.length := by omega
    simp only [ptrvecPush, reserved, PtrVec.write]
    rw [length, if_pos inside]
    rfl
  · simp [length₁, length]
  · simpa using block₁
  · simp only [List.length_append, List.length_singleton]
    omega
  · intro i less
    simp only [List.length_append, List.length_singleton] at less
    by_cases here : i = xs.length
    · subst here
      rw [List.getElem?_set_self (by omega)]
      simp
    · have old : i < xs.length := by omega
      rw [List.getElem?_set_ne (Ne.symm here), kept i (by dsimp only; omega), holds.cells i old]
      simp [List.getElem_append_left, old]

theorem Holds.pop {vec : PtrVec α} {xs : List α} {x : α} (holds : Holds vec (xs ++ [x])) :
    Holds { vec with length := vec.length - 1 } xs where
  length := by simp [holds.length]
  block := holds.block
  room := by
    have room := holds.room
    rw [List.length_append] at room
    exact Nat.lt_of_le_of_lt (Nat.le_add_right ..) room
  cells := by
    intro i less
    have cell := holds.cells i (by rw [List.length_append]; omega)
    rwa [List.getElem_append_left less] at cell

theorem read_ptrvecReserve (vec : PtrVec α) (len i : Nat) :
    (ptrvecReserve vec len).read i = vec.read i := by
  unfold ptrvecReserve
  split
  · rfl
  · by_cases old : i < vec.data.length
    · simp only [PtrVec.read, List.getElem?_append_left old]
    · have above : vec.data.length ≤ i := by omega
      rw [PtrVec.read, PtrVec.read, List.getElem?_append_right above,
        List.getElem?_eq_none (l := vec.data) above, List.getElem?_replicate]
      split <;> rfl

theorem read_ptrvecPush {vec vec' : PtrVec α} {elem : α} {idx : Nat}
    (pushed : ptrvecPush vec elem = some (idx, vec')) (i : Nat) :
    vec'.read i = if i = vec.length then some elem else vec.read i := by
  simp only [ptrvecPush, PtrVec.write, Option.bind_eq_bind] at pushed
  split at pushed
  next inside =>
    cases pushed
    split
    next here => rw [here, PtrVec.read, List.getElem?_set_self inside]; rfl
    next other =>
      rw [PtrVec.read, List.getElem?_set_ne (Ne.symm other)]
      exact read_ptrvecReserve { vec with length := vec.length + 1 } _ i
  next => cases pushed

theorem Holds.pushes {vec : PtrVec α} {xs : List α} (holds : Holds vec xs) (elems : List α) :
    ∃ vec', elems.foldlM (fun vec elem => (ptrvecPush vec elem).map Prod.snd) vec = some vec' ∧
      Holds vec' (xs ++ elems) ∧ ∀ i, (xs ++ elems).length ≤ i → vec'.read i = vec.read i := by
  induction elems generalizing vec xs with
  | nil => exact ⟨vec, rfl, by simpa using holds, fun _ _ => rfl⟩
  | cons elem elems ih =>
    obtain ⟨vec₁, pushed, holds₁⟩ := holds.push elem
    obtain ⟨vec₂, rest, holds₂, kept⟩ := ih holds₁
    rw [List.append_assoc, List.singleton_append] at holds₂ kept
    refine ⟨vec₂, ?_, holds₂, ?_⟩
    · rw [List.foldlM_cons, pushed]
      exact rest
    · intro i above
      have other : i ≠ vec.length := by
        rw [List.length_append, List.length_cons] at above
        have length := holds.length
        omega
      rw [kept i above, read_ptrvecPush pushed, if_neg other]

theorem Holds.write {vec : PtrVec α} {xs : List α} (holds : Holds vec xs) {i : Nat}
    (less : i < xs.length) (elem : α) :
    ∃ vec', vec.write i elem = some vec' ∧ Holds vec' (xs.set i elem) := by
  have block := holds.block
  have room := holds.room
  refine ⟨_, if_pos (by omega), by simp [holds.length], by simp [block], by simpa using room, ?_⟩
  intro j inside
  by_cases here : j = i
  · subst here
    rw [List.getElem?_set_self (by omega)]
    simp
  · rw [List.getElem?_set_ne (Ne.symm here), holds.cells j (by simpa using inside)]
    simp [Ne.symm here]

end GrowableVector
