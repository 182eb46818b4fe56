import Mathlib.Data.List.Basic

/-! hashpjw and the chained hash table of util.c.

A value is a word of table-index width; `(void*)-1`, the answer for a missing
key, is the integer -1. Chains are listed from oldest to newest entry.
-/

set_option autoImplicit false

namespace Dragon

/-- One round of hashpjw: characters are signed and extend into the high bits. -/
def hashpjwStep (h : BitVec 64) (c : BitVec 8) : BitVec 64 :=
  let h := (h <<< 4) + c.signExtend 64
  let g := h &&& 0xf000000000000000#64
  if g = 0 then h else (h ^^^ (g >>> 48)) ^^^ g

def hashpjw (string : List (BitVec 8)) : BitVec 64 :=
  string.foldl hashpjwStep 0

/-- The bytes a C program sees behind a `char *`. -/
def cstr (s : String) : List (BitVec 8) :=
  (s.toList.flatMap String.utf8EncodeChar).map fun byte => BitVec.ofNat 8 byte.toNat

def hashString (s : String) : BitVec 64 := hashpjw (cstr s)

structure BucketEntry (κ : Type) where
  key : κ
  val : Int
  deriving DecidableEq, Repr

structure HashTable (κ : Type) where
  numBuckets : Nat
  hash : κ → BitVec 64
  comp : κ → κ → Bool
  buckets : List (List (BucketEntry κ))

variable {κ : Type}

def hashNew (numBuckets : Nat) (hash : κ → BitVec 64) (comp : κ → κ → Bool) : HashTable κ :=
  ⟨numBuckets, hash, comp, List.replicate numBuckets []⟩

namespace HashTable

def index (tab : HashTable κ) (key : κ) : Nat := (tab.hash key).toNat % tab.numBuckets

def bucket (tab : HashTable κ) (i : Nat) : List (BucketEntry κ) := tab.buckets.getD i []

end HashTable

def lookupChain (comp : κ → κ → Bool) (key : κ) : List (BucketEntry κ) → Int
  | [] => -1
  | ent :: chain => if comp key ent.key then ent.val else lookupChain comp key chain

def hashLookup (tab : HashTable κ) (key : κ) : Int :=
  lookupChain tab.comp key (tab.bucket (tab.index key))

/-- The last entry of a chain with an equal key, as the loop in hash_insert leaves it in `elt`. -/
def lastMatch (comp : κ → κ → Bool) (key : κ) : List (BucketEntry κ) → Option Nat
  | [] => none
  | ent :: chain =>
      match lastMatch comp key chain with
      | some i => some (i + 1)
      | none => if comp key ent.key then some 0 else none

/-- The chain after hash_insert: the entry found is updated in place, or a new one is appended. -/
def insertChain (comp : κ → κ → Bool) (key : κ) (val : Int) (chain : List (BucketEntry κ)) :
    List (BucketEntry κ) :=
  match lastMatch comp key chain with
  | some j => chain.modify j fun ent => { ent with val := val }
  | none => chain ++ [⟨key, val⟩]

def hashInsert (tab : HashTable κ) (key : κ) (val : Int) : HashTable κ :=
  let i := tab.index key
  { tab with buckets := tab.buckets.set i (insertChain tab.comp key val (tab.bucket i)) }

/-- The loop of HFOREACH, started with `remaining = numBuckets` and the first bucket:
`__hi` is `numBuckets - remaining`, and the step sets `__bucket` to `buckets[__hi++]`. -/
def hforeachLoop (tab : HashTable κ) : Nat → List (BucketEntry κ) → List (BucketEntry κ)
  | 0, _ => []
  | remaining + 1, chain =>
      chain ++ hforeachLoop tab remaining (tab.bucket (tab.numBuckets - (remaining + 1)))

def hforeach (tab : HashTable κ) : List (BucketEntry κ) :=
  hforeachLoop tab tab.numBuckets (tab.bucket 0)

/-! ## Chains -/

section Chains

variable {comp : κ → κ → Bool} (equiv : Equivalence fun a b => comp a b = true)

def UniqueKeys (comp : κ → κ → Bool) (chain : List (BucketEntry κ)) : Prop :=
  chain.Pairwise fun a b => comp a.key b.key = false

theorem lastMatch_eq_none {key : κ} {chain : List (BucketEntry κ)} :
    lastMatch comp key chain = none ↔ ∀ ent ∈ chain, comp key ent.key = false := by
  induction chain with
  | nil => simp [lastMatch]
  | cons ent chain ih =>
    cases found : lastMatch comp key chain with
    | some i =>
      have absent : ¬ ∀ ent ∈ chain, comp key ent.key = false := by rw [← ih, found]; simp
      simp only [lastMatch, found, reduceCtorEq, List.mem_cons, forall_eq_or_imp, false_iff, not_and]
      exact fun _ => absent
    | none =>
      have absent := ih.mp found
      cases here : comp key ent.key with
      | true => simp [lastMatch, found, here]
      | false => simpa [lastMatch, found, here] using absent

theorem insertChain_nil (key : κ) (val : Int) : insertChain comp key val [] = [⟨key, val⟩] := rfl

include equiv

theorem insertChain_cons {ent : BucketEntry κ} {chain : List (BucketEntry κ)} (key : κ) (val : Int)
    (unique : UniqueKeys comp (ent :: chain)) :
    insertChain comp key val (ent :: chain) =
      if comp key ent.key then { ent with val := val } :: chain
      else ent :: insertChain comp key val chain := by
  -- with unique keys the update happens at the first match, where a lookup stops
  obtain ⟨apart, -⟩ := List.pairwise_cons.mp unique
  cases here : comp key ent.key with
  | true =>
    have absent : lastMatch comp key chain = none := by
      rw [lastMatch_eq_none]
      intro other member
      by_contra equal
      have meets := equiv.trans (equiv.symm here) (Bool.of_not_eq_false equal)
      rw [apart other member] at meets
      contradiction
    simp [insertChain, lastMatch, absent, here]
  | false =>
    cases found : lastMatch comp key chain <;> simp [insertChain, lastMatch, found, here]

theorem lookupChain_insertChain {key key' : κ} {val : Int} {chain : List (BucketEntry κ)}
    (unique : UniqueKeys comp chain) :
    lookupChain comp key' (insertChain comp key val chain) =
      if comp key' key then val else lookupChain comp key' chain := by
  induction chain with
  | nil => simp [insertChain_nil, lookupChain]
  | cons ent chain ih =>
    rw [insertChain_cons equiv key val unique]
    cases here : comp key ent.key with
    | true =>
      have same : comp key' ent.key = comp key' key := by
        apply Bool.eq_iff_iff.mpr
        exact ⟨fun h => equiv.trans h (equiv.symm here), fun h => equiv.trans h here⟩
      simp only [if_true, lookupChain, same]
      cases comp key' key <;> simp
    | false =>
      simp only [Bool.false_eq_true, if_false, lookupChain, ih (List.pairwise_cons.mp unique).2]
      cases first : comp key' ent.key with
      | false => simp
      | true =>
        have differ : comp key' key = false := by
          by_contra equal
          have meets := equiv.trans (equiv.symm (Bool.of_not_eq_false equal)) first
          rw [here] at meets
          contradiction
        simp [differ]

theorem insertChain_keys {key : κ} {val : Int} {chain : List (BucketEntry κ)}
    (unique : UniqueKeys comp chain) :
    (insertChain comp key val chain).map BucketEntry.key =
      chain.map BucketEntry.key ++
        if chain.any (fun ent => comp key ent.key) then [] else [key] := by
  induction chain with
  | nil => simp [insertChain_nil]
  | cons ent chain ih =>
    rw [insertChain_cons equiv key val unique]
    cases here : comp key ent.key with
    | true => simp [here]
    | false => simp [here, ih (List.pairwise_cons.mp unique).2]

theorem insertChain_unique {key : κ} {val : Int} {chain : List (BucketEntry κ)}
    (unique : UniqueKeys comp chain) : UniqueKeys comp (insertChain comp key val chain) := by
  have keys (entries : List (BucketEntry κ)) : UniqueKeys comp entries ↔
      (entries.map BucketEntry.key).Pairwise fun a b => comp a b = false := by
    rw [List.pairwise_map]
    rfl
  rw [keys, insertChain_keys equiv unique]
  cases present : chain.any (fun ent => comp key ent.key) with
  | true => simpa using (keys chain).mp unique
  | false =>
    simp only [Bool.false_eq_true, if_false, List.pairwise_append, List.pairwise_singleton, true_and,
      List.mem_singleton, forall_eq, List.mem_map, forall_exists_index, and_imp]
    refine ⟨(keys chain).mp unique, ?_⟩
    rintro a ent member rfl
    have differ : comp key ent.key = false := by
      simp only [List.any_eq_false] at present
      exact Bool.eq_false_iff.mpr (present ent member)
    by_contra equal
    rw [equiv.symm (Bool.of_not_eq_false equal)] at differ
    contradiction

end Chains

/-! ## Tables -/

namespace HashTable

/-- The representation invariant: every entry is in the bucket its hash selects, and no bucket
holds two entries with equal keys. -/
structure WellFormed (tab : HashTable κ) : Prop where
  positive : 0 < tab.numBuckets
  length : tab.buckets.length = tab.numBuckets
  equiv : Equivalence fun a b => tab.comp a b = true
  compat : ∀ a b, tab.comp a b = true → tab.hash a = tab.hash b
  placed : ∀ i, ∀ ent ∈ tab.bucket i, tab.index ent.key = i
  unique : ∀ i, UniqueKeys tab.comp (tab.bucket i)

variable {tab : HashTable κ}

theorem WellFormed.index_lt (wf : tab.WellFormed) (key : κ) : tab.index key < tab.buckets.length := by
  rw [wf.length]
  exact Nat.mod_lt _ wf.positive

theorem bucket_hashInsert (wf : tab.WellFormed) (key : κ) (val : Int) (i : Nat) :
    (hashInsert tab key val).bucket i =
      if i = tab.index key then insertChain tab.comp key val (tab.bucket i) else tab.bucket i := by
  have inside := wf.index_lt key
  by_cases here : i = tab.index key
  · subst here
    simp [hashInsert, bucket, inside]
  · simp [hashInsert, bucket, here, Ne.symm here]

theorem wellFormed_hashNew {numBuckets : Nat} {hash : κ → BitVec 64} {comp : κ → κ → Bool}
    (positive : 0 < numBuckets) (equiv : Equivalence fun a b => comp a b = true)
    (compat : ∀ a b, comp a b = true → hash a = hash b) :
    (hashNew numBuckets hash comp).WellFormed := by
  have empty (i : Nat) : (hashNew numBuckets hash comp).bucket i = [] := by
    simp [hashNew, bucket, List.getElem?_replicate]
    split <;> rfl
  refine ⟨positive, by simp [hashNew], equiv, compat, ?_, ?_⟩
  · intro i ent member
    simp [empty] at member
  · intro i
    rw [empty]
    exact .nil

theorem WellFormed.hashInsert (wf : tab.WellFormed) (key : κ) (val : Int) :
    (hashInsert tab key val).WellFormed := by
  refine ⟨wf.positive, by simp [Dragon.hashInsert, wf.length], wf.equiv, wf.compat, ?_, ?_⟩
  · intro i ent member
    change tab.index ent.key = i
    rw [bucket_hashInsert wf] at member
    split at member
    next here =>
      have keyMember := List.mem_map_of_mem (f := BucketEntry.key) member
      rw [insertChain_keys wf.equiv (wf.unique i), List.mem_append] at keyMember
      rcases keyMember with old | fresh
      · obtain ⟨other, otherMember, same⟩ := List.mem_map.mp old
        rw [← same]
        exact wf.placed i other otherMember
      · split at fresh
        · simp at fresh
        · rw [List.mem_singleton.mp fresh, here]
    next => exact wf.placed i ent member
  · intro i
    change UniqueKeys tab.comp _
    rw [bucket_hashInsert wf]
    split
    · exact insertChain_unique wf.equiv (wf.unique i)
    · exact wf.unique i

theorem hashLookup_hashInsert (wf : tab.WellFormed) (key key' : κ) (val : Int) :
    hashLookup (Dragon.hashInsert tab key val) key' =
      if tab.comp key' key then val else hashLookup tab key' := by
  unfold hashLookup
  change lookupChain tab.comp key' ((Dragon.hashInsert tab key val).bucket (tab.index key')) = _
  rw [bucket_hashInsert wf]
  cases equal : tab.comp key' key with
  | true =>
    have sameIndex : tab.index key' = tab.index key := by
      unfold index
      rw [wf.compat _ _ equal]
    rw [if_pos sameIndex, lookupChain_insertChain wf.equiv (wf.unique _), equal, if_pos rfl]
  | false =>
    split
    · rw [lookupChain_insertChain wf.equiv (wf.unique _), equal]
    · rfl

theorem hashLookup_hashNew (numBuckets : Nat) (hash : κ → BitVec 64) (comp : κ → κ → Bool)
    (key : κ) : hashLookup (hashNew numBuckets hash comp) key = -1 := by
  have empty (i : Nat) : (hashNew numBuckets hash comp).bucket i = [] := by
    simp [hashNew, bucket, List.getElem?_replicate]
    split <;> rfl
  simp [hashLookup, empty, lookupChain]

theorem mem_hforeachLoop {ent : BucketEntry κ} {remaining : Nat} {chain : List (BucketEntry κ)}
    (member : ent ∈ hforeachLoop tab remaining chain) (start : ∃ i, chain = tab.bucket i) :
    ∃ i, ent ∈ tab.bucket i := by
  induction remaining generalizing chain with
  | zero => cases member
  | succ remaining ih =>
    rcases List.mem_append.mp member with here | later
    · obtain ⟨i, rfl⟩ := start
      exact ⟨i, here⟩
    · exact ih later ⟨_, rfl⟩

/-- The buckets HFOREACH comes to: it sees the first one twice, and the last one only when it is
the first. -/
def reaches (tab : HashTable κ) (i : Nat) : Prop := i = 0 ∨ i + 1 < tab.numBuckets

theorem lookupChain_of_mem {comp : κ → κ → Bool} (equiv : Equivalence fun a b => comp a b = true)
    {chain : List (BucketEntry κ)} (unique : UniqueKeys comp chain) {ent : BucketEntry κ}
    (member : ent ∈ chain) : lookupChain comp ent.key chain = ent.val := by
  induction chain with
  | nil => cases member
  | cons head chain ih =>
    obtain ⟨apart, rest⟩ := List.pairwise_cons.mp unique
    rcases List.mem_cons.mp member with rfl | later
    · rw [lookupChain, if_pos (equiv.refl ent.key)]
    · have differ : comp ent.key head.key = false := by
        by_contra equal
        have meets := equiv.symm (Bool.of_not_eq_false equal)
        rw [apart ent later] at meets
        contradiction
      rw [lookupChain, differ, if_neg (by decide)]
      exact ih rest later

theorem WellFormed.hashLookup_of_mem (wf : tab.WellFormed) {ent : BucketEntry κ}
    (member : ent ∈ hforeach tab) : hashLookup tab ent.key = ent.val := by
  obtain ⟨i, here⟩ := mem_hforeachLoop member ⟨0, rfl⟩
  rw [hashLookup, wf.placed i ent here]
  exact lookupChain_of_mem wf.equiv (wf.unique i) here

theorem mem_insertChain {comp : κ → κ → Bool} {key : κ} {val : Int} {chain : List (BucketEntry κ)}
    {ent : BucketEntry κ} (member : ent ∈ insertChain comp key val chain) :
    ent ∈ chain ∨ ent.val = val := by
  unfold insertChain at member
  split at member
  next j _ =>
    obtain ⟨k, here⟩ := List.mem_iff_getElem?.mp member
    rw [List.getElem?_modify] at here
    cases old : chain[k]? with
    | none => simp [old] at here
    | some other =>
      rw [old] at here
      by_cases same : j = k
      · simp only [same, if_true] at here
        have updated : { other with val := val } = ent := Option.some.inj here
        exact .inr (by rw [← updated])
      · simp only [same, if_false] at here
        have kept : other = ent := Option.some.inj here
        exact .inl (kept ▸ List.mem_of_getElem? old)
  next =>
    rcases List.mem_append.mp member with old | fresh
    · exact .inl old
    · exact .inr (by rw [List.mem_singleton.mp fresh])

theorem exists_of_lastMatch {comp : κ → κ → Bool} {key : κ} {chain : List (BucketEntry κ)} {j : Nat}
    (found : lastMatch comp key chain = some j) : ∃ ent, chain[j]? = some ent := by
  induction chain generalizing j with
  | nil => cases found
  | cons head chain ih =>
    rw [lastMatch] at found
    split at found
    next i later =>
      cases found
      exact ih later
    next =>
      split at found
      · cases found
        exact ⟨head, rfl⟩
      · cases found

theorem exists_mem_insertChain (comp : κ → κ → Bool) (key : κ) (val : Int)
    (chain : List (BucketEntry κ)) : ∃ ent ∈ insertChain comp key val chain, ent.val = val := by
  unfold insertChain
  split
  next j found =>
    obtain ⟨ent, here⟩ := exists_of_lastMatch found
    refine ⟨{ ent with val := val }, ?_, rfl⟩
    apply @List.mem_of_getElem? _ _ j
    simp [here]
  next => exact ⟨⟨key, val⟩, by simp, rfl⟩

theorem WellFormed.mem_hforeach_hashInsert (wf : tab.WellFormed) {key : κ} {val : Int}
    {ent : BucketEntry κ} (member : ent ∈ hforeach (Dragon.hashInsert tab key val)) :
    ent ∈ hforeach tab ∨ ent.val = val := by
  have chain : ∀ i, ent ∈ (Dragon.hashInsert tab key val).bucket i → ent ∈ tab.bucket i ∨ ent.val = val := by
    intro i here
    rw [bucket_hashInsert wf] at here
    split at here
    · exact mem_insertChain here
    · exact .inl here
  have loop : ∀ remaining i, ent ∈ hforeachLoop (Dragon.hashInsert tab key val) remaining
      ((Dragon.hashInsert tab key val).bucket i) →
        ent ∈ hforeachLoop tab remaining (tab.bucket i) ∨ ent.val = val := by
    intro remaining
    induction remaining with
    | zero => exact fun _ none_ => nomatch none_
    | succ remaining ih =>
      intro i member
      simp only [hforeachLoop, List.mem_append] at member ⊢
      rcases member with here | later
      · exact (chain i here).imp .inl id
      · exact (ih _ later).imp .inr id
  exact loop tab.numBuckets 0 member

theorem hforeach_hashNew (numBuckets : Nat) (hash : κ → BitVec 64) (comp : κ → κ → Bool) :
    hforeach (hashNew numBuckets hash comp) = [] := by
  have empty (i : Nat) : (hashNew numBuckets hash comp).bucket i = [] := by
    simp [hashNew, bucket, List.getElem?_replicate]
    split <;> rfl
  rw [List.eq_nil_iff_forall_not_mem]
  intro ent member
  obtain ⟨i, here⟩ := mem_hforeachLoop member ⟨0, rfl⟩
  rw [empty] at here
  cases here

end HashTable

end Dragon
