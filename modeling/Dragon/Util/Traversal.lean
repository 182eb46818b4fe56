import Dragon.Util.HashTable
import Mathlib.Data.List.Induction
import Mathlib.Data.List.Nodup

/-! The buckets HFOREACH goes through.

The step reads the bucket of the counter before it is raised, so the first bucket
comes twice and the last one not at all.
-/

set_option autoImplicit false

namespace Dragon

/-- The buckets the loop of HFOREACH goes through, with `remaining` rounds to go and a current
bucket; `__hi` is `numBuckets - remaining`, and the step sets `__bucket` to `buckets[__hi++]`. -/
def hforeachBuckets (numBuckets : Nat) : Nat → Nat → List Nat
  | 0, _ => []
  | remaining + 1, bucket =>
      bucket :: hforeachBuckets numBuckets remaining (numBuckets - (remaining + 1))

/-- The indices the steps of the loop read. -/
def hforeachSteps (numBuckets : Nat) : Nat → List Nat
  | 0 => []
  | remaining + 1 => (numBuckets - (remaining + 1)) :: hforeachSteps numBuckets remaining

namespace HashTable

variable {κ : Type} (tab : HashTable κ)

def traversed : List Nat := hforeachBuckets tab.numBuckets tab.numBuckets 0

def accessed : List Nat := 0 :: hforeachSteps tab.numBuckets tab.numBuckets

def places (i : Nat) : List (Nat × Nat) := (List.range (tab.bucket i).length).map fun j => (i, j)

def bodyRuns : List (Nat × Nat) := tab.traversed.flatMap tab.places

/-- The body is run once for each entry, and for nothing else. -/
structure BodyOnce : Prop where
  nodup : tab.bodyRuns.Nodup
  all : ∀ i j, (i, j) ∈ tab.bodyRuns ↔ i < tab.numBuckets ∧ j < (tab.bucket i).length

def BucketsOnce : Prop := tab.traversed = List.range tab.numBuckets

variable {tab}

theorem filterMap_range {α : Type} (chain : List α) :
    (List.range chain.length).filterMap (fun j => chain[j]?) = chain := by
  induction chain using List.reverseRecOn with
  | nil => rfl
  | append_singleton chain ent ih =>
    have early : (List.range chain.length).filterMap (fun j => (chain ++ [ent])[j]?) = chain := by
      refine Eq.trans (List.filterMap_congr ?_) ih
      intro j member
      exact List.getElem?_append_left (List.mem_range.mp member)
    rw [List.length_append, List.length_singleton, List.range_succ, List.filterMap_append, early]
    simp

theorem places_filterMap (i : Nat) :
    (tab.places i).filterMap (fun p => (tab.bucket p.1)[p.2]?) = tab.bucket i := by
  rw [places, List.filterMap_map]
  exact filterMap_range (tab.bucket i)

theorem hforeachLoop_eq (remaining i : Nat) : hforeachLoop tab remaining (tab.bucket i) =
    (hforeachBuckets tab.numBuckets remaining i).flatMap tab.bucket := by
  induction remaining generalizing i with
  | zero => rfl
  | succ remaining ih => rw [hforeachLoop, hforeachBuckets, List.flatMap_cons, ih]

theorem hforeach_eq : hforeach tab = tab.bodyRuns.filterMap fun p => (tab.bucket p.1)[p.2]? := by
  rw [hforeach, hforeachLoop_eq, bodyRuns, List.filterMap_flatMap]
  simp only [places_filterMap, traversed]

/-! ## Rounds -/

theorem hforeachBuckets_succ {numBuckets remaining : Nat} (le : remaining + 1 ≤ numBuckets) (i : Nat) :
    hforeachBuckets numBuckets (remaining + 1) i =
      i :: List.range' (numBuckets - (remaining + 1)) remaining := by
  induction remaining generalizing i with
  | zero => rfl
  | succ remaining ih =>
    have next : numBuckets - (remaining + 1) = numBuckets - (remaining + 2) + 1 := by omega
    rw [hforeachBuckets, ih (by omega), List.range'_succ, next]

theorem hforeachSteps_eq {numBuckets remaining : Nat} (le : remaining ≤ numBuckets) :
    hforeachSteps numBuckets remaining = List.range' (numBuckets - remaining) remaining := by
  induction remaining with
  | zero => rfl
  | succ remaining ih =>
    have next : numBuckets - remaining = numBuckets - (remaining + 1) + 1 := by omega
    rw [hforeachSteps, ih (by omega), List.range'_succ, next]

-- The first bucket, and then all but the last one.
theorem traversed_eq (positive : 0 < tab.numBuckets) :
    tab.traversed = 0 :: List.range (tab.numBuckets - 1) := by
  have whole := @hforeachBuckets_succ tab.numBuckets (tab.numBuckets - 1) (by omega) 0
  rw [Nat.sub_add_cancel positive, Nat.sub_self] at whole
  rw [traversed, whole, List.range_eq_range']

theorem accessed_lt (positive : 0 < tab.numBuckets) : ∀ i ∈ tab.accessed, i < tab.numBuckets := by
  intro i member
  rw [accessed, hforeachSteps_eq (Nat.le_refl _), Nat.sub_self, List.mem_cons, List.mem_range'_1]
    at member
  rcases member with rfl | ⟨-, below⟩
  · exact positive
  · omega

/-! ## Entries -/

theorem mem_places {i k j : Nat} : (k, j) ∈ tab.places i ↔ k = i ∧ j < (tab.bucket i).length := by
  simp only [places, List.mem_map, List.mem_range, Prod.mk.injEq]
  constructor
  · rintro ⟨j, below, rfl, rfl⟩
    exact ⟨rfl, below⟩
  · rintro ⟨rfl, below⟩
    exact ⟨j, below, rfl, rfl⟩

theorem mem_bodyRuns {i j : Nat} :
    (i, j) ∈ tab.bodyRuns ↔ i ∈ tab.traversed ∧ j < (tab.bucket i).length := by
  simp only [bodyRuns, List.mem_flatMap, mem_places]
  constructor
  · rintro ⟨k, member, rfl, below⟩
    exact ⟨member, below⟩
  · rintro ⟨member, below⟩
    exact ⟨i, member, rfl, below⟩

theorem nodup_places {l : List Nat} (nodup : l.Nodup) : (l.flatMap tab.places).Nodup := by
  rw [List.nodup_flatMap]
  constructor
  · intro i _
    exact List.nodup_range.map fun j k same => (Prod.mk.inj same).2
  · refine nodup.imp ?_
    intro i k differ p here there
    exact differ ((mem_places.mp here).1.symm.trans (mem_places.mp there).1)

-- The body is run once for each entry just when there is one bucket, or nothing in the first and
-- in the last one.
theorem bodyOnce_iff (positive : 0 < tab.numBuckets) : tab.BodyOnce ↔
    tab.numBuckets = 1 ∨ (tab.bucket 0 = [] ∧ tab.bucket (tab.numBuckets - 1) = []) := by
  have rounds := traversed_eq positive
  constructor
  · rintro ⟨nodup, all⟩
    by_contra neither
    rw [not_or, not_and_or] at neither
    obtain ⟨several, first | last⟩ := neither
    · -- both of the first two rounds are the first bucket
      have twice : tab.bodyRuns = tab.places 0 ++ (tab.places 0 ++
          (List.range' 1 (tab.numBuckets - 2)).flatMap tab.places) := by
        have split : List.range (tab.numBuckets - 1) = 0 :: List.range' 1 (tab.numBuckets - 2) := by
          have count : tab.numBuckets - 1 = (tab.numBuckets - 2) + 1 := by omega
          rw [count, List.range_eq_range', List.range'_succ]
        rw [bodyRuns, rounds, split, List.flatMap_cons, List.flatMap_cons]
      rw [twice] at nodup
      have here : (0, 0) ∈ tab.places 0 := mem_places.mpr ⟨rfl, List.length_pos_iff.mpr first⟩
      exact (List.nodup_append.mp nodup).2.2 _ here _ (List.mem_append_left _ here) rfl
    · have run := (all (tab.numBuckets - 1) 0).mpr ⟨by omega, List.length_pos_iff.mpr last⟩
      have round := (mem_bodyRuns.mp run).1
      rw [rounds, List.mem_cons, List.mem_range] at round
      omega
  · intro fits
    refine ⟨?_, ?_⟩
    · rcases fits with one | ⟨first, -⟩
      · rw [bodyRuns, rounds, one]
        exact nodup_places (List.nodup_singleton 0)
      · have nothing : tab.places 0 = [] := by rw [places, first]; rfl
        rw [bodyRuns, rounds, List.flatMap_cons, nothing, List.nil_append]
        exact nodup_places List.nodup_range
    · intro i j
      rw [mem_bodyRuns, rounds, List.mem_cons, List.mem_range]
      constructor
      · rintro ⟨round, below⟩
        exact ⟨by omega, below⟩
      · rintro ⟨inside, below⟩
        refine ⟨?_, below⟩
        rcases fits with one | ⟨-, last⟩
        · omega
        · by_cases isLast : i = tab.numBuckets - 1
          · rw [isLast, last] at below
            cases below
          · omega

theorem bucketsOnce_iff (positive : 0 < tab.numBuckets) : tab.BucketsOnce ↔ tab.numBuckets = 1 := by
  rw [BucketsOnce, traversed_eq positive]
  constructor
  · intro once
    by_contra several
    have nodup := List.nodup_range (n := tab.numBuckets)
    rw [← once, List.nodup_cons, List.mem_range] at nodup
    omega
  · intro one
    rw [one]
    rfl

end HashTable

open HashTable

/-- For every table HFOREACH reads within the buckets. It runs its body once for each entry just when
there is one bucket or the first and the last bucket are empty, and it traverses every bucket once
just when there is one. -/
theorem hforeach_once_iff {κ : Type} (tab : HashTable κ) (positive : 0 < tab.numBuckets) :
    (tab.BodyOnce ↔
      tab.numBuckets = 1 ∨ (tab.bucket 0 = [] ∧ tab.bucket (tab.numBuckets - 1) = [])) ∧
    (tab.BucketsOnce ↔ tab.numBuckets = 1) ∧ ∀ i ∈ tab.accessed, i < tab.numBuckets :=
  ⟨bodyOnce_iff positive, bucketsOnce_iff positive, accessed_lt positive⟩

-- Two buckets with one entry in the second.
def secondOnly : HashTable Nat := ⟨2, BitVec.ofNat 64, (· == ·), [[], [⟨1, 1⟩]]⟩

theorem secondOnly_once_iff : (secondOnly.BodyOnce ↔
      secondOnly.numBuckets = 1 ∨ (secondOnly.bucket 0 = [] ∧ secondOnly.bucket (secondOnly.numBuckets - 1) = [])) ∧
    (secondOnly.BucketsOnce ↔ secondOnly.numBuckets = 1) ∧
      ∀ i ∈ secondOnly.accessed, i < secondOnly.numBuckets :=
  hforeach_once_iff secondOnly (by decide)

-- The body is not run for its entry.
theorem not_forall_bodyOnce : ¬ ∀ (κ : Type) (tab : HashTable κ), 0 < tab.numBuckets →
    tab.BodyOnce ∧ ∀ i ∈ tab.accessed, i < tab.numBuckets := by
  intro always
  have once := (always Nat secondOnly (by decide)).1
  have run := (once.all 1 0).mpr ⟨by decide, by decide⟩
  exact absurd run (by decide)

end Dragon
