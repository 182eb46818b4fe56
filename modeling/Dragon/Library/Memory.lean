import Mathlib.Algebra.Order.Ring.Int

/-! Little-endian words in a byte-addressed memory of 2^64 cells.

Addresses wrap. Two words are apart when neither starts inside the other, which
is a condition on the two differences and needs no order of the addresses.
-/

set_option autoImplicit false

namespace ByteMemory

abbrev Memory := BitVec 64 → BitVec 8

/-- The word whose i-th byte, from the lowest, is `byte i`. -/
def wordOf (byte : Nat → BitVec 8) : BitVec 64 :=
  BitVec.ofNat 64 ((byte 0).toNat + (byte 1).toNat * 2 ^ 8 + (byte 2).toNat * 2 ^ 16 +
    (byte 3).toNat * 2 ^ 24 + (byte 4).toNat * 2 ^ 32 + (byte 5).toNat * 2 ^ 40 +
    (byte 6).toNat * 2 ^ 48 + (byte 7).toNat * 2 ^ 56)

def readWord (m : Memory) (a : BitVec 64) : BitVec 64 :=
  wordOf fun i => m (a + BitVec.ofNat 64 i)

def writeWord (m : Memory) (a v : BitVec 64) : Memory := fun x =>
  let i := (x - a).toNat
  if i < 8 then BitVec.ofNat 8 (v.toNat / 2 ^ (8 * i)) else m x

theorem ofInt_injective {a b : Int} (left : -2 ^ 63 ≤ a ∧ a < 2 ^ 63) (right : -2 ^ 63 ≤ b ∧ b < 2 ^ 63) :
    BitVec.ofInt 64 a = BitVec.ofInt 64 b ↔ a = b := by
  constructor
  · intro same
    have values := congrArg BitVec.toInt same
    rw [BitVec.toInt_ofInt, BitVec.toInt_ofInt] at values
    rw [Int.bmod_eq_of_le (by omega) (by omega), Int.bmod_eq_of_le (by omega) (by omega)] at values
    exact values
  · intro same
    rw [same]

/-- The eight bytes at the two addresses are disjoint. -/
def Apart (a b : BitVec 64) : Prop := 8 ≤ (a - b).toNat ∧ 8 ≤ (b - a).toNat

instance (a b : BitVec 64) : Decidable (Apart a b) := inferInstanceAs (Decidable (_ ∧ _))

theorem apart_iff {a b : BitVec 64} :
    Apart a b ↔ 8 ≤ (a - b).toNat ∧ (a - b).toNat + 8 ≤ 2 ^ 64 := by
  -- apartness only depends on the difference
  unfold Apart
  rw [BitVec.toNat_sub, BitVec.toNat_sub]
  have := a.isLt
  have := b.isLt
  omega

theorem apart_add_right {a b : BitVec 64} (c : BitVec 64) : Apart (a + c) (b + c) ↔ Apart a b := by
  rw [apart_iff, apart_iff]
  have same : a + c - (b + c) = a - b := by bv_omega
  rw [same]

theorem writeWord_byte (m : Memory) (a v : BitVec 64) (i : Nat) (small : i < 8) :
    writeWord m a v (a + BitVec.ofNat 64 i) = BitVec.ofNat 8 (v.toNat / 2 ^ (8 * i)) := by
  have offset : (a + BitVec.ofNat 64 i - a).toNat = i := by
    have : a + BitVec.ofNat 64 i - a = BitVec.ofNat 64 i := by bv_omega
    rw [this, BitVec.toNat_ofNat]
    omega
  simp only [writeWord, offset, small, if_true]

theorem writeWord_byte_apart (m : Memory) {a b : BitVec 64} (v : BitVec 64) (apart : Apart a b)
    (i : Nat) (small : i < 8) :
    writeWord m b v (a + BitVec.ofNat 64 i) = m (a + BitVec.ofNat 64 i) := by
  have outside : ¬ (a + BitVec.ofNat 64 i - b).toNat < 8 := by
    rw [apart_iff] at apart
    have shifted : a + BitVec.ofNat 64 i - b = (a - b) + BitVec.ofNat 64 i := by bv_omega
    rw [shifted, BitVec.toNat_add, BitVec.toNat_ofNat]
    omega
  simp only [writeWord, outside, if_false]

theorem wordOf_congr {f g : Nat → BitVec 8} (same : ∀ i < 8, f i = g i) : wordOf f = wordOf g := by
  unfold wordOf
  rw [same 0 (by omega), same 1 (by omega), same 2 (by omega), same 3 (by omega), same 4 (by omega),
    same 5 (by omega), same 6 (by omega), same 7 (by omega)]

theorem wordOf_bytes (v : BitVec 64) :
    (wordOf fun i => BitVec.ofNat 8 (v.toNat / 2 ^ (8 * i))) = v := by
  apply BitVec.eq_of_toNat_eq
  have := v.isLt
  simp only [wordOf, BitVec.toNat_ofNat]
  omega

@[simp] theorem readWord_writeWord (m : Memory) (a v : BitVec 64) :
    readWord (writeWord m a v) a = v :=
  (wordOf_congr fun i small => writeWord_byte m a v i small).trans (wordOf_bytes v)

theorem readWord_writeWord_apart (m : Memory) {a b : BitVec 64} (v : BitVec 64)
    (apart : Apart a b) : readWord (writeWord m b v) a = readWord m a :=
  wordOf_congr fun i small => writeWord_byte_apart m v apart i small

/-- The k-th word below an address, counted from 0. -/
def below (a : BitVec 64) (k : Nat) : BitVec 64 := a - BitVec.ofNat 64 (8 * (k + 1))

theorem below_below (a : BitVec 64) (j k : Nat) : below (below a j) k = below a (j + 1 + k) := by
  unfold below
  rw [BitVec.sub_sub, ← BitVec.ofNat_add]
  congr 2
  omega

theorem below_apart (a : BitVec 64) {j k : Nat} (less : j < k) (fits : 8 * (k + 1) ≤ 2 ^ 64) :
    Apart (below a j) (below a k) := by
  rw [apart_iff]
  have difference : below a j - below a k = BitVec.ofNat 64 (8 * (k - j)) := by
    have expand : BitVec.ofNat 64 (8 * (k + 1)) =
        BitVec.ofNat 64 (8 * (j + 1)) + BitVec.ofNat 64 (8 * (k - j)) := by
      rw [← BitVec.ofNat_add]
      congr 1
      omega
    unfold below
    rw [expand]
    bv_omega
  rw [difference, BitVec.toNat_ofNat]
  omega

/-- The address is apart from the d words below a stack pointer. -/
def ClearOf (sp : BitVec 64) (d : Nat) (a : BitVec 64) : Prop := ∀ k < d, Apart a (below sp k)

theorem ClearOf.mono {sp a : BitVec 64} {d d' : Nat} (clear : ClearOf sp d a) (le : d' ≤ d) :
    ClearOf sp d' a := fun k less => clear k (by omega)

theorem ClearOf.push {sp a : BitVec 64} {d : Nat} (clear : ClearOf sp (d + 1) a) :
    ClearOf (below sp 0) d a := by
  intro k less
  rw [below_below]
  exact clear _ (by omega)

/-- The words that the d words below a stack pointer do not meet are unchanged. -/
def SameOff (sp : BitVec 64) (d : Nat) (m m' : Memory) : Prop :=
  ∀ a, ClearOf sp d a → readWord m' a = readWord m a

theorem SameOff.refl (sp : BitVec 64) (d : Nat) (m : Memory) : SameOff sp d m m := fun _ _ => rfl

theorem SameOff.mono {sp : BitVec 64} {d d' : Nat} {m m' : Memory} (same : SameOff sp d m m')
    (le : d ≤ d') : SameOff sp d' m m' := fun a clear => same a (clear.mono le)

theorem SameOff.trans {sp : BitVec 64} {d : Nat} {m m' m'' : Memory} (first : SameOff sp d m m')
    (second : SameOff sp d m' m'') : SameOff sp d m m'' :=
  fun a clear => (second a clear).trans (first a clear)

theorem SameOff.push {sp v : BitVec 64} {d : Nat} {m m' : Memory}
    (same : SameOff (below sp 0) d (writeWord m (below sp 0) v) m') : SameOff sp (d + 1) m m' := by
  intro a clear
  rw [same a clear.push, readWord_writeWord_apart m v (clear 0 (by omega))]

end ByteMemory
