import Dragon.Machine.State

/-! Registers saved on the stack.

A push and the pop that mirrors it are a bracket around what is done between: of
the registers that may be lost one is restored, and of the words on the stack
that must be kept one is used up.
-/

set_option autoImplicit false

namespace Dragon

open ByteMemory

theorem below_zero_add (a : BitVec 64) : below a 0 + 8 = a := by
  unfold below
  bv_omega

theorem below_add_word (a : BitVec 64) (k : Nat) :
    below a 0 + BitVec.ofNat 64 (8 * (k + 1)) = a + BitVec.ofNat 64 (8 * k) := by
  unfold below
  bv_omega

theorem word_apart_below (a : BitVec 64) {k : Nat} (fits : k < 2 ^ 32) :
    Apart (a + BitVec.ofNat 64 (8 * k)) (below a 0) := by
  rw [apart_iff]
  have difference : a + BitVec.ofNat 64 (8 * k) - below a 0 = BitVec.ofNat 64 (8 * (k + 1)) := by
    unfold below
    bv_omega
  rw [difference, BitVec.toNat_ofNat]
  omega

namespace State

theorem push_rsp (σ : State) (v : BitVec 64) : (σ.push v).reg .rsp = below (σ.reg .rsp) 0 :=
  (σ.setReg .rsp (below (σ.reg .rsp) 0)).setMem_reg _ ▸ σ.setReg_reg_self ..

theorem push_reg {σ : State} {r : RegName} (v : BitVec 64) (ne : r ≠ .rsp) :
    (σ.push v).reg r = σ.reg r := σ.setReg_reg_of_ne _ ne

theorem pop_reg_self (σ : State) (r : RegName) :
    (σ.pop r).reg r = readWord σ.mem (σ.reg .rsp) := setReg_reg_self ..

theorem pop_reg {σ : State} {r s : RegName} (other : s ≠ r) (sp : s ≠ .rsp) :
    (σ.pop r).reg s = σ.reg s := by
  rw [pop, setReg_reg_of_ne _ _ other, setReg_reg_of_ne _ _ sp]

theorem pop_rsp {σ : State} {r : RegName} (other : r ≠ .rsp) :
    (σ.pop r).reg .rsp = σ.reg .rsp + 8 := by
  rw [pop, setReg_reg_of_ne _ _ other.symm, setReg_reg_self]

@[simp] theorem pop_mem (σ : State) (r : RegName) : (σ.pop r).mem = σ.mem := rfl

end State

/-- All registers but these are kept, and the first n words on the stack. -/
structure KeptOff (lost : List RegName) (n : Nat) (σ τ : State) : Prop where
  reg : ∀ r, r ≠ .blank → r ∉ lost → τ.reg r = σ.reg r
  word : ∀ k < n, readWord τ.mem (σ.reg .rsp + BitVec.ofNat 64 (8 * k)) =
    readWord σ.mem (σ.reg .rsp + BitVec.ofNat 64 (8 * k))

namespace KeptOff

variable {lost lost' : List RegName} {n : Nat} {σ τ υ : State}

theorem rsp (kept : KeptOff lost n σ τ) (stack : .rsp ∉ lost) : τ.reg .rsp = σ.reg .rsp :=
  kept.reg .rsp (by decide) stack

theorem trans (first : KeptOff lost n σ τ) (second : KeptOff lost' n τ υ) (stack : .rsp ∉ lost) :
    KeptOff (lost ++ lost') n σ υ := by
  refine ⟨?_, ?_⟩
  · intro r name apart
    rw [List.mem_append, not_or] at apart
    exact (second.reg r name apart.2).trans (first.reg r name apart.1)
  · intro k less
    exact (first.rsp stack ▸ second.word k less).trans (first.word k less)

theorem mono (kept : KeptOff lost n σ τ) (more : ∀ r ∈ lost, r ∈ lost') : KeptOff lost' n σ τ :=
  ⟨fun r name apart => kept.reg r name fun member => apart (more r member), kept.word⟩

theorem bracket {r : RegName} (kept : KeptOff lost (n + 1) (σ.push (σ.reg r)) τ)
    (stack : .rsp ∉ lost) (other : r ≠ .rsp) (fits : n + 1 < 2 ^ 32) :
    KeptOff (lost.filter (· ≠ r)) n σ (τ.pop r) := by
  -- the pop reads the word the push wrote, when it is among those that are kept
  have pushed := σ.push_rsp (σ.reg r)
  have still : τ.reg .rsp = below (σ.reg .rsp) 0 := (kept.rsp stack).trans pushed
  refine ⟨?_, ?_⟩
  · intro s name apart
    by_cases same : s = r
    · subst same
      have word := kept.word 0 (by omega)
      rw [pushed, Nat.mul_zero, BitVec.add_zero] at word
      rw [State.pop_reg_self, still, word]
      exact readWord_writeWord ..
    · by_cases sp : s = .rsp
      · subst sp
        rw [State.pop_rsp other, still, below_zero_add]
      · rw [State.pop_reg same sp,
          kept.reg s name fun member => apart (List.mem_filter.mpr ⟨member, by simpa using same⟩)]
        exact State.push_reg _ sp
  · intro k less
    have word := kept.word (k + 1) (by omega)
    rw [pushed, below_add_word] at word
    exact word.trans (readWord_writeWord_apart σ.mem _ (word_apart_below _ (by omega)))

end KeptOff

def State.pushAll (σ : State) (rs : List RegName) : State :=
  rs.foldl (fun σ r => σ.push (σ.reg r)) σ

def State.popAll (σ : State) (rs : List RegName) : State := rs.foldl State.pop σ

theorem State.popAll_reg {σ : State} {rs : List RegName} {r : RegName} (other : r ∉ rs)
    (sp : r ≠ .rsp) : (σ.popAll rs).reg r = σ.reg r := by
  induction rs generalizing σ with
  | nil => rfl
  | cons s rs ih =>
    rw [List.mem_cons, not_or] at other
    exact (ih other.2).trans (State.pop_reg other.1 sp)

theorem KeptOff.brackets {lost : List RegName} {n : Nat} {σ τ : State} (rs : List RegName)
    (kept : KeptOff lost (n + rs.length) (σ.pushAll rs) τ) (stack : .rsp ∉ lost) (others : .rsp ∉ rs)
    (fits : n + rs.length < 2 ^ 32) :
    KeptOff (lost.filter (· ∉ rs)) n σ (τ.popAll rs.reverse) := by
  induction rs generalizing n σ with
  | nil => exact kept.mono (by simp)
  | cons r rs ih =>
    rw [List.mem_cons, not_or] at others
    rw [List.length_cons] at kept fits
    -- the brackets inside keep one word more, the one this register is in
    have inner := @ih (n + 1) (σ.push (σ.reg r)) (by rwa [Nat.add_right_comm]) others.2 (by omega)
    have outer := inner.bracket (fun member => stack (List.mem_filter.mp member).1) (Ne.symm others.1)
      (by omega)
    have last : τ.popAll (r :: rs).reverse = (τ.popAll rs.reverse).pop r := by
      rw [State.popAll, List.reverse_cons, List.foldl_append]
      rfl
    rw [last]
    refine outer.mono ?_
    intro s member
    simp only [List.mem_filter, decide_eq_true_eq] at member ⊢
    simp [member.1.1, member.1.2, member.2]

theorem runBlock_pushAll (env : Env) (σ : State) {rs : List RegName} (named : .blank ∉ rs) :
    runBlock env (rs.map .push) σ = some (σ.pushAll rs) := by
  induction rs generalizing σ with
  | nil => rfl
  | cons r rs ih =>
    rw [List.mem_cons, not_or] at named
    refine runBlock_cons_some (exec_of_named ?_) (ih _ named.2)
    simpa [Insn.operands] using named.1

theorem runBlock_popAll (env : Env) (σ : State) {rs : List RegName} (named : .blank ∉ rs) :
    runBlock env (rs.map .pop) σ = some (σ.popAll rs) := by
  induction rs generalizing σ with
  | nil => rfl
  | cons r rs ih =>
    rw [List.mem_cons, not_or] at named
    refine runBlock_cons_some (exec_of_named ?_) (ih _ named.2)
    simpa [Insn.operands] using named.1

end Dragon
