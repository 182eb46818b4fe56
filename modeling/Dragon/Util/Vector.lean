import Dragon.Library.PtrVec
import Dragon.Util.List
import Mathlib.Data.List.GetD
import Mathlib.Data.List.Induction

/-! The growable vector of util.c over whole runs of ptrvec_push and ptrvec_pop.

ptrvec_pop reads at the length it is about to lower, one cell above the last
element. What is there was stored by an earlier push, or never. Doubling does
not give a vector of capacity 0 any room.
-/

set_option autoImplicit false

namespace Dragon

open GrowableVector

variable {α : Type}

inductive VecStart (α : Type) where
  | wcap (cap : Nat)
  | new (elems : List α)

namespace VecStart

def make : VecStart α → Option (PtrVec α)
  | wcap cap => some (ptrvecWcap cap)
  | new elems => ptrvecNew elems

def capacity : VecStart α → Nat
  | wcap cap => cap
  | new elems => elems.length

def elems : VecStart α → List α
  | wcap _ => []
  | new elems => elems

end VecStart

/-- A vector is these elements, each at its index, in a block of `capacity` cells. -/
structure IsStack (vec : PtrVec α) (xs : List α) : Prop where
  length : vec.length = xs.length
  block : vec.data.length = vec.capacity
  within : vec.length ≤ vec.capacity
  stored : ∀ i, (less : i < xs.length) → vec.read i = some xs[i]

/-- The vector is these elements before and after every call, a push answers the old length and a
pop the last element, and no call leaves the block. -/
def RunsAsStack (blank : Nat → α) : PtrVec α → List α → List (EndCall α) → Prop
  | vec, xs, [] => IsStack vec xs
  | vec, xs, .add elem :: calls => IsStack vec xs ∧
      ∃ vec', ptrvecPush vec elem = some (xs.length, vec') ∧
        RunsAsStack blank vec' (xs ++ [elem]) calls
  | vec, xs, .pop :: calls => IsStack vec xs ∧
      ∃ ys y vec', xs = ys ++ [y] ∧ ptrvecPop blank vec = some (y, vec') ∧
        RunsAsStack blank vec' ys calls

def StackFrom (blank : Nat → α) (start : VecStart α) (calls : List (EndCall α)) : Prop :=
  ∃ vec, start.make = some vec ∧ RunsAsStack blank vec start.elems calls

/-- What was last stored at each index, `blank` where nothing was, after one more push. -/
def storeAt (left : Nat → α) (i : Nat) (elem : α) : Nat → α := fun j => if j = i then elem else left j

/-- Every pop finds what was last stored just above the last element to be that element. -/
def Repeats : (left : Nat → α) → List α → List (EndCall α) → Prop
  | _, _, [] => True
  | left, xs, .add elem :: calls => Repeats (storeAt left xs.length elem) (xs ++ [elem]) calls
  | left, xs, .pop :: calls => xs.getLast? = some (left xs.length) ∧ Repeats left xs.dropLast calls

def VecStart.stored (blank : Nat → α) (start : VecStart α) : Nat → α :=
  fun i => start.elems.getD i (blank i)

structure Tracks (blank : Nat → α) (vec : PtrVec α) (xs : List α) (left : Nat → α) : Prop where
  holds : Holds vec xs
  cells : ∀ i, (vec.read i).getD (blank i) = left i

section Steps

variable {blank left : Nat → α} {vec : PtrVec α} {xs : List α}

theorem Tracks.isStack (tracks : Tracks blank vec xs left) : IsStack vec xs where
  length := tracks.holds.length
  block := tracks.holds.block
  within := tracks.holds.length ▸ Nat.le_of_lt tracks.holds.room
  stored := fun _ less => tracks.holds.read less

theorem Tracks.push (tracks : Tracks blank vec xs left) (elem : α) :
    ∃ vec', ptrvecPush vec elem = some (xs.length, vec') ∧
      Tracks blank vec' (xs ++ [elem]) (storeAt left xs.length elem) := by
  obtain ⟨vec', pushed, holds⟩ := tracks.holds.push elem
  refine ⟨vec', pushed, holds, ?_⟩
  intro i
  rw [read_ptrvecPush pushed, tracks.holds.length, storeAt]
  split
  · rfl
  · exact tracks.cells i

theorem Tracks.pop {x : α} (tracks : Tracks blank vec (xs ++ [x]) left) :
    ∃ vec', ptrvecPop blank vec = some (left (xs ++ [x]).length, vec') ∧
      Tracks blank vec' xs left := by
  have inside : vec.length < vec.data.length := by
    rw [tracks.holds.length, tracks.holds.block]
    exact tracks.holds.room
  refine ⟨{ vec with length := vec.length - 1 }, ?_, tracks.holds.pop, tracks.cells⟩
  have cell := tracks.cells vec.length
  rw [← tracks.holds.length, ← cell, ptrvecPop]
  exact if_pos inside

theorem runsAsStack_iff {calls : List (EndCall α)} (tracks : Tracks blank vec xs left)
    (present : popsPresent xs.length calls) :
    RunsAsStack blank vec xs calls ↔ Repeats left xs calls := by
  induction calls generalizing vec xs left with
  | nil => simpa [RunsAsStack, Repeats] using tracks.isStack
  | cons call calls ih =>
    cases call with
    | add elem =>
      obtain ⟨vec', pushed, tracks'⟩ := tracks.push elem
      have later := ih tracks' (by simpa [popsPresent] using present)
      constructor
      · rintro ⟨-, vec'', pushed', runs⟩
        obtain ⟨-, rfl⟩ := Prod.mk.inj (Option.some.inj (pushed.symm.trans pushed'))
        exact later.mp runs
      · intro repeats
        exact ⟨tracks.isStack, vec', pushed, later.mpr repeats⟩
    | pop =>
      cases xs using List.reverseRecOn with
      | nil => simp [popsPresent] at present
      | append_singleton xs x =>
        obtain ⟨vec', popped, tracks'⟩ := tracks.pop
        have later := ih tracks' (by simpa [popsPresent] using present)
        simp only [Repeats, List.getLast?_concat, List.dropLast_concat]
        constructor
        · rintro ⟨-, ys, y, vec'', same, popped', runs⟩
          obtain ⟨rfl, last⟩ := List.append_inj' same rfl
          obtain rfl : x = y := by simpa using last
          obtain ⟨answer, rfl⟩ := Prod.mk.inj (Option.some.inj (popped.symm.trans popped'))
          exact ⟨congrArg some answer.symm, later.mp runs⟩
        · rintro ⟨answer, repeats⟩
          exact ⟨tracks.isStack, xs, x, vec', rfl, Option.some.inj answer ▸ popped,
            later.mpr repeats⟩

end Steps

theorem runsAsStack_empty_iff (blank : Nat → α) {calls : List (EndCall α)}
    (present : popsPresent 0 calls) :
    RunsAsStack blank (ptrvecWcap 0) [] calls ↔ calls = [] := by
  -- without room, nothing can be called
  constructor
  · intro runs
    cases calls with
    | nil => rfl
    | cons call calls =>
      cases call with
      | add elem =>
        obtain ⟨-, vec', pushed, -⟩ := runs
        -- the block is as empty after doubling as before
        cases pushed
      | pop => simp [popsPresent] at present
  · rintro rfl
    exact ⟨rfl, rfl, Nat.le_refl 0, by simp⟩

theorem VecStart.tracks (blank : Nat → α) (start : VecStart α) (positive : 0 < start.capacity) :
    ∃ vec, start.make = some vec ∧ Tracks blank vec start.elems (start.stored blank) := by
  have empty := holds_ptrvecWcap (α := α) positive
  have nothing : ∀ i, (ptrvecWcap start.capacity : PtrVec α).read i = none := by
    intro i
    rw [PtrVec.read, ptrvecWcap, List.getElem?_replicate]
    split <;> rfl
  obtain ⟨vec, made, holds, kept⟩ : ∃ vec, start.make = some vec ∧ Holds vec start.elems ∧
      ∀ i, start.elems.length ≤ i → vec.read i = (ptrvecWcap start.capacity).read i := by
    cases start with
    | wcap cap => exact ⟨_, rfl, empty, fun _ _ => rfl⟩
    | new elems => exact empty.pushes elems
  refine ⟨vec, made, holds, ?_⟩
  intro i
  by_cases used : i < start.elems.length
  · rw [holds.read used, VecStart.stored, List.getD_eq_getElem _ _ used, Option.getD_some]
  · have above : start.elems.length ≤ i := by omega
    rw [kept i above, nothing, VecStart.stored, List.getD_eq_default _ _ above, Option.getD_none]

/-- Over every run, a vector is a stack with stable indices just when it starts with room, or nothing
is called, and every pop finds the last element stored once more above itself. -/
theorem vector_stack_iff (blank : Nat → α) (start : VecStart α) (calls : List (EndCall α))
    (present : popsPresent start.elems.length calls) :
    StackFrom blank start calls ↔
      (0 < start.capacity ∨ calls = []) ∧ Repeats (start.stored blank) start.elems calls := by
  by_cases positive : 0 < start.capacity
  · obtain ⟨vec, made, tracks⟩ := start.tracks blank positive
    have runs := runsAsStack_iff tracks present
    constructor
    · rintro ⟨vec', made', right⟩
      obtain rfl : vec = vec' := Option.some.inj (made.symm.trans made')
      exact ⟨.inl positive, runs.mp right⟩
    · rintro ⟨-, repeats⟩
      exact ⟨vec, made, runs.mpr repeats⟩
  -- no capacity: both ways of making a vector give the same one
  · have zero : start.capacity = 0 := by omega
    have none_ : start.elems = [] ∧ start.make = some (ptrvecWcap 0) := by
      cases start with
      | wcap cap =>
        obtain rfl : cap = 0 := zero
        exact ⟨rfl, rfl⟩
      | new elems =>
        obtain rfl : elems = [] := List.length_eq_zero_iff.mp zero
        exact ⟨rfl, rfl⟩
    obtain ⟨elems, made⟩ := none_
    rw [elems] at present
    have runs := runsAsStack_empty_iff blank present
    rw [StackFrom, elems]
    constructor
    · rintro ⟨vec, made', right⟩
      obtain rfl : ptrvecWcap 0 = vec := Option.some.inj (made.symm.trans made')
      obtain rfl := runs.mp right
      exact ⟨.inr rfl, trivial⟩
    · rintro ⟨room, -⟩
      exact ⟨_, made, runs.mpr (room.resolve_left positive)⟩

theorem nullOnTop_stack : StackFrom (fun _ => 0) (.wcap 4) [.add 5, .add 0, .pop, .add 6] :=
  (vector_stack_iff (fun _ => 0) (.wcap 4) _ (by decide)).mpr ⟨.inl (by decide), rfl, trivial⟩

-- Any other pointer pushed first is lost.
theorem not_forall_vector_stack : ¬ ∀ (blank : Nat → Nat) (start : VecStart Nat)
    (calls : List (EndCall Nat)), popsPresent start.elems.length calls →
      StackFrom blank start calls := by
  intro every
  obtain ⟨vec, made, -, vec₁, pushed, -, ys, y, vec₂, same, popped, -⟩ :=
    every (fun _ => 0) (.wcap 4) [.add 5, .pop] (by decide)
  cases made
  cases pushed
  have answer : 0 = y := congrArg Prod.fst (Option.some.inj popped)
  have last : [5].getLast? = (ys ++ [y]).getLast? := congrArg List.getLast? same
  rw [List.getLast?_concat, ← answer] at last
  cases last

end Dragon
