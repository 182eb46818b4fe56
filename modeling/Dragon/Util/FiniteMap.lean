import Dragon.Util.HashTable

/-! What a hash table is for: a finite map.

A table that is filled from hash_new answers every lookup with the value inserted
last under an equivalent key. Each class of equivalent keys has one entry at most,
and it is in the bucket of the class.
-/

set_option autoImplicit false

namespace Dragon

variable {κ : Type}

def insertAll (tab : HashTable κ) (inserts : List (κ × Int)) : HashTable κ :=
  inserts.foldl (fun tab ins => hashInsert tab ins.1 ins.2) tab

/-- The value of the last insertion of a key that is equivalent. -/
def lastInserted (comp : κ → κ → Bool) (inserts : List (κ × Int)) (key : κ) : Option Int :=
  (inserts.reverse.find? fun ins => comp key ins.1).map Prod.snd

/-- The table is the map that the insertions make. -/
structure FiniteMap (tab : HashTable κ) (inserts : List (κ × Int)) : Prop where
  lookup : ∀ key, hashLookup tab key = (lastInserted tab.comp inserts key).getD (-1)
  placed : ∀ i, ∀ ent ∈ tab.bucket i, i = tab.index ent.key ∧ i < tab.numBuckets
  unique : tab.buckets.flatten.Pairwise fun a b => tab.comp a.key b.key = false
  others : ∀ key val key', tab.comp key' key = false →
    hashLookup (hashInsert tab key val) key' = hashLookup tab key'

theorem insertAll_comp (tab : HashTable κ) (inserts : List (κ × Int)) :
    (insertAll tab inserts).comp = tab.comp := by
  induction inserts generalizing tab with
  | nil => rfl
  | cons ins inserts ih => exact ih (hashInsert tab ins.1 ins.2)

theorem HashTable.WellFormed.insertAll {tab : HashTable κ} (wf : tab.WellFormed)
    (inserts : List (κ × Int)) : (insertAll tab inserts).WellFormed := by
  induction inserts generalizing tab with
  | nil => exact wf
  | cons ins inserts ih => exact ih (wf.hashInsert ins.1 ins.2)

theorem lastInserted_cons (comp : κ → κ → Bool) (ins : κ × Int) (inserts : List (κ × Int))
    (key : κ) : lastInserted comp (ins :: inserts) key =
      (lastInserted comp inserts key).or (if comp key ins.1 then some ins.2 else none) := by
  unfold lastInserted
  rw [List.reverse_cons, List.find?_append, List.find?_singleton]
  cases inserts.reverse.find? fun ins => comp key ins.1 with
  | some _ => rfl
  | none => cases comp key ins.1 <;> rfl

theorem hashLookup_insertAll {tab : HashTable κ} (wf : tab.WellFormed) (inserts : List (κ × Int))
    (key : κ) : hashLookup (insertAll tab inserts) key =
      (lastInserted tab.comp inserts key).getD (hashLookup tab key) := by
  induction inserts generalizing tab with
  | nil => rfl
  | cons ins inserts ih =>
    have rest := ih (wf.hashInsert ins.1 ins.2)
    have step := HashTable.hashLookup_hashInsert wf ins.1 key ins.2
    have same : (hashInsert tab ins.1 ins.2).comp = tab.comp := rfl
    rw [same, step] at rest
    rw [lastInserted_cons]
    refine rest.trans ?_
    cases lastInserted tab.comp inserts key with
    | some _ => rfl
    | none => cases tab.comp key ins.1 <;> rfl

namespace HashTable

variable {tab : HashTable κ}

theorem mem_bucket_lt (wf : tab.WellFormed) {i : Nat} {ent : BucketEntry κ}
    (member : ent ∈ tab.bucket i) : i < tab.numBuckets := by
  rw [← wf.length]
  by_contra beyond
  rw [bucket, List.getD_eq_getElem?_getD, List.getElem?_eq_none (Nat.le_of_not_lt beyond)] at member
  cases member

theorem bucket_eq_getElem {i : Nat} (small : i < tab.buckets.length) :
    tab.bucket i = tab.buckets[i] := by
  rw [bucket, List.getD_eq_getElem?_getD, List.getElem?_eq_getElem small, Option.getD_some]

theorem WellFormed.unique_flatten (wf : tab.WellFormed) :
    tab.buckets.flatten.Pairwise fun a b => tab.comp a.key b.key = false := by
  -- equivalent keys meet in one bucket, where they are kept apart
  rw [List.pairwise_flatten]
  constructor
  · intro chain member
    obtain ⟨i, small, rfl⟩ := List.mem_iff_getElem.mp member
    rw [← bucket_eq_getElem small]
    exact wf.unique i
  · rw [List.pairwise_iff_getElem]
    intro i j small small' less a here b there
    rw [← bucket_eq_getElem small] at here
    rw [← bucket_eq_getElem small'] at there
    by_contra equal
    have same : tab.index a.key = tab.index b.key := by
      unfold index
      rw [wf.compat _ _ (Bool.of_not_eq_false equal)]
    rw [wf.placed i a here, wf.placed j b there] at same
    exact Nat.ne_of_lt less same

end HashTable

/-- Every table that is filled from hash_new is the map of its insertions. -/
theorem hashTable_finiteMap (numBuckets : Nat) (hash : κ → BitVec 64) (comp : κ → κ → Bool)
    (positive : 0 < numBuckets) (equiv : Equivalence fun a b => comp a b = true)
    (compat : ∀ a b, comp a b = true → hash a = hash b) (inserts : List (κ × Int)) :
    FiniteMap (insertAll (hashNew numBuckets hash comp) inserts) inserts := by
  have start := HashTable.wellFormed_hashNew positive equiv compat
  have wf := start.insertAll inserts
  have same : (insertAll (hashNew numBuckets hash comp) inserts).comp = comp := insertAll_comp ..
  refine ⟨?_, ?_, wf.unique_flatten, ?_⟩
  · intro key
    rw [same, hashLookup_insertAll start inserts key, HashTable.hashLookup_hashNew]
    rfl
  · intro i ent member
    exact ⟨(wf.placed i ent member).symm, HashTable.mem_bucket_lt wf member⟩
  · intro key val key' differ
    rw [HashTable.hashLookup_hashInsert wf, differ, if_neg (by decide)]

-- Two buckets, three keys and one of them twice.
theorem twoBuckets_finiteMap :
    FiniteMap (insertAll (hashNew 2 (BitVec.ofNat 64) fun a b : Nat => a == b)
      [(0, 10), (1, 11), (2, 12), (0, 20)]) [(0, 10), (1, 11), (2, 12), (0, 20)] :=
  hashTable_finiteMap 2 (BitVec.ofNat 64) (fun a b : Nat => a == b) (by decide)
    ⟨fun a => beq_self_eq_true a, fun same => beq_iff_eq.mpr (beq_iff_eq.mp same).symm,
      fun first second => beq_iff_eq.mpr ((beq_iff_eq.mp first).trans (beq_iff_eq.mp second))⟩
    (fun a b same => congrArg (BitVec.ofNat 64) (beq_iff_eq.mp same)) _

end Dragon
