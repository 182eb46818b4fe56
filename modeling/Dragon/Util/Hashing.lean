import Dragon.Util.HashTable
import Mathlib.Algebra.Order.Ring.Int

/-! The values of hashpjw.

Each round folds the top nibble back into lower bits and clears it, so a hash is
the same number as an int64_t and as a uint64_t.
-/

set_option autoImplicit false

namespace Dragon

def topNibble : BitVec 64 := 0xf000000000000000#64

theorem topNibble_getLsbD {i : Nat} (high : 60 ≤ i) (small : i < 64) : topNibble.getLsbD i = true := by
  have each : ∀ k < 4, topNibble.getLsbD (60 + k) = true := by decide
  have here := each (i - 60) (by omega)
  rwa [Nat.add_sub_cancel' high] at here

theorem lt_of_topNibble {h : BitVec 64} (clear : ∀ i, 60 ≤ i → i < 64 → h.getLsbD i = false) :
    h.toNat < 2 ^ 60 := by
  apply Nat.lt_pow_two_of_testBit
  intro i high
  by_cases small : i < 64
  · exact clear i high small
  · exact BitVec.getLsbD_of_ge h i (Nat.le_of_not_lt small)

theorem hashpjwStep_lt (h : BitVec 64) (c : BitVec 8) : (hashpjwStep h c).toNat < 2 ^ 60 := by
  apply lt_of_topNibble
  intro i high small
  have mask : (0xf000000000000000#64).getLsbD i = true := topNibble_getLsbD high small
  unfold hashpjwStep
  generalize (h <<< 4) + c.signExtend 64 = sum
  dsimp only
  split
  next none_ =>
    have bit := congrArg (fun w => w.getLsbD i) none_
    simp only [BitVec.getLsbD_and, mask, Bool.and_true] at bit
    exact bit.trans BitVec.getLsbD_zero
  next some_ =>
    -- the shifted nibble lies below, and the last line clears the nibble itself
    have beyond : (sum &&& 0xf000000000000000#64).getLsbD (48 + i) = false :=
      BitVec.getLsbD_of_ge _ _ (by omega)
    simp only [BitVec.getLsbD_xor, BitVec.getLsbD_ushiftRight, beyond, BitVec.getLsbD_and, mask,
      Bool.and_true, Bool.xor_false, Bool.xor_self]

theorem hashpjw_lt (string : List (BitVec 8)) : (hashpjw string).toNat < 2 ^ 60 := by
  unfold hashpjw
  rcases List.eq_nil_or_concat string with rfl | ⟨before, c, rfl⟩
  · decide
  · rw [List.concat_eq_append, List.foldl_append]
    exact hashpjwStep_lt _ c

/-- The bucket that a table selects when a hash is read as the int64_t of hash_string. HASH_FUNC
declares a uint64_t, which is the reading of HashTable.index. -/
def HashTable.signedIndex {κ : Type} (tab : HashTable κ) (key : κ) : Int :=
  (tab.hash key).toInt.tmod tab.numBuckets

theorem signedIndex_of_lt {κ : Type} {tab : HashTable κ} {key : κ}
    (small : (tab.hash key).toNat < 2 ^ 60) : tab.signedIndex key = tab.index key := by
  have same : (tab.hash key).toInt = (tab.hash key).toNat := BitVec.toInt_eq_toNat_of_lt (by omega)
  rw [HashTable.signedIndex, same]
  exact (Int.ofNat_tmod ..).symm

/-- A hash of hashpjw stays below 2^60, and both readings of it select the same bucket of a table. -/
theorem hashpjw_bucket {κ : Type} (tab : HashTable κ) (key : κ) (string : List (BitVec 8))
    (hashes : tab.hash key = hashpjw string) (positive : 0 < tab.numBuckets) :
    (hashpjw string).toNat < 2 ^ 60 ∧ tab.signedIndex key = tab.index key ∧
      tab.index key < tab.numBuckets := by
  have small := hashpjw_lt string
  exact ⟨small, signedIndex_of_lt (hashes ▸ small), Nat.mod_lt _ positive⟩

-- A byte from 0x80 on is negative, and the sum wraps around.
theorem negative_bucket : (hashpjw [0x80#8, 0xff#8]).toNat < 2 ^ 60 ∧
    (hashNew 256 hashpjw (· == ·)).signedIndex [0x80#8, 0xff#8] =
      (hashNew 256 hashpjw (· == ·)).index [0x80#8, 0xff#8] ∧
    (hashNew 256 hashpjw (· == ·)).index [0x80#8, 0xff#8] < 256 :=
  hashpjw_bucket (hashNew 256 hashpjw (· == ·)) _ _ rfl (by decide)

end Dragon
