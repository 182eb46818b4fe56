import Dragon.Machine.Execution
import Dragon.Library.Steps

/-! The height of the stack along a run.

A block is leveled when every line changes the stack by what it pushes, every
label stands at its own height, and jumps come to it from that height or above.
Along a run that stays above address 0, the stack is never lower than the lines
before the position say.
-/

set_option autoImplicit false

namespace Dragon

open PartialStep ByteMemory

namespace Insn

def pushed : Insn → Int
  | .push _ | .pushDisplay _ => 1
  | .pop _ => -1
  | _ => 0

/-- The register a line sets, the stack pointer of push and pop apart. -/
def sets : Insn → Option RegName
  | .pop dst | .mov dst _ | .movLit dst _ | .movImm dst _ | .load dst _ _ | .loadDisplay dst _
  | .lea dst _ | .alu _ dst _ | .addImm dst _ | .subImm dst _ | .cmpImm dst _ | .not dst | .inc dst
  | .movzx dst _ => some dst
  | _ => none

/-- A line that moves the stack pointer by the words it pushes. -/
def counted : Insn → Bool
  | .call _ | .ret | .syscall => false
  | i => decide (i.sets ≠ some .rsp)

/-- What a line asks of the height before it, by the heights of the labels. -/
def Allowed (level : Label → Int) (h : Int) : Insn → Prop
  | .label l => level l = h
  | .jmp l | .jcc _ l => level l ≤ h
  | .pop _ => 1 ≤ h
  | _ => True

end Insn

/-- Lines that go from one height of the stack to another. -/
inductive Leveled (level : Label → Int) : Int → List Insn → Int → Prop where
  | nil {h : Int} : Leveled level h [] h
  | cons {h h' : Int} {i : Insn} {code : List Insn} (counted : i.counted = true)
      (allowed : i.Allowed level h) (rest : Leveled level (h + i.pushed) code h') :
      Leveled level h (i :: code) h'

def heightAt (h : Int) (code : List Insn) (p : Nat) : Int := h + ((code.take p).map Insn.pushed).sum

/-- A line is run where no push would go below address 0. -/
def stackStep (env : Env) (code : List Insn) (c : Nat × State) : Option (Nat × State) :=
  match code[c.1]? with
  | none => none
  | some i => if i.pushed = 1 ∧ (c.2.reg .rsp).toNat < 8 then none else step env code c

namespace Leveled

variable {level : Label → Int} {h h₁ h₂ : Int}

theorem one {i : Insn} (counted : i.counted = true) (allowed : i.Allowed level h) :
    Leveled level h [i] (h + i.pushed) := .cons counted allowed .nil

theorem append {first second : List Insn} (one : Leveled level h first h₁)
    (two : Leveled level h₁ second h₂) : Leveled level h (first ++ second) h₂ := by
  induction one with
  | nil => exact two
  | cons counted allowed _ ih => exact .cons counted allowed (ih two)

theorem push (r : RegName) (h : Int) : Leveled level h [.push r] (h + 1) := .one rfl trivial

theorem pop {r : RegName} (name : r ≠ .rsp) (low : 0 ≤ h) : Leveled level (h + 1) [.pop r] h := by
  have counted : (Insn.pop r).counted = true := by simpa [Insn.counted, Insn.sets] using name
  have room : (Insn.pop r).Allowed level (h + 1) := by
    simp only [Insn.Allowed]
    omega
  have popped := Leveled.one counted room
  rwa [Insn.pushed, Int.add_neg_cancel_right] at popped

theorem line {code : List Insn} (leveled : Leveled level h code h₁) {p : Nat} {i : Insn}
    (at_ : code[p]? = some i) : i.counted = true ∧ i.Allowed level (heightAt h code p) := by
  induction leveled generalizing p with
  | nil => simp at at_
  | @cons h h' j code counted allowed rest ih =>
    cases p with
    | zero =>
      cases at_
      exact ⟨counted, by simpa [heightAt] using allowed⟩
    | succ p =>
      have later := ih at_
      have same : heightAt (h + j.pushed) code p = heightAt h (j :: code) (p + 1) := by
        simp only [heightAt, List.take_succ_cons, List.map_cons, List.sum_cons]
        omega
      rwa [same] at later

theorem heightAt_length {code : List Insn} (leveled : Leveled level h code h₁) :
    heightAt h code code.length = h₁ := by
  unfold heightAt
  rw [List.take_length]
  induction leveled with
  | nil => exact Int.add_zero _
  | cons _ _ _ ih =>
    rw [List.map_cons, List.sum_cons]
    omega

end Leveled

theorem heightAt_succ (h : Int) {code : List Insn} {p : Nat} {i : Insn} (at_ : code[p]? = some i) :
    heightAt h code (p + 1) = heightAt h code p + i.pushed := by
  unfold heightAt
  rw [List.take_add_one, at_, Option.toList_some, List.map_append, List.sum_append]
  simp
  omega

/-! ## One line -/

theorem ofLowByte_ne_rsp {byte : List Char} {r : RegName} (named : RegName.ofLowByte byte = some r) :
    r ≠ .rsp := by
  unfold RegName.ofLowByte at named
  split_ifs at named <;> cases named <;> decide

theorem counted_ne {i : Insn} {r : RegName} (counted : i.counted = true) (sets : i.sets = some r) :
    r ≠ .rsp := by
  rintro rfl
  unfold Insn.counted at counted
  cases i <;> simp_all

theorem idiv_rsp {σ τ : State} {divisor : BitVec 64} (next : σ.idiv divisor = some τ) :
    τ.reg .rsp = σ.reg .rsp := by
  simp only [State.idiv] at next
  split at next
  · cases next
  · cases next
    rfl

theorem exec_rsp {env : Env} {i : Insn} {σ τ : State} (counted : i.counted = true)
    (next : exec env i σ = some τ) :
    τ.reg .rsp = σ.reg .rsp - BitVec.ofInt 64 (8 * i.pushed) := by
  have set : ∀ (r : RegName) (v : BitVec 64), i.sets = some r →
      (σ.setReg r v).reg .rsp = σ.reg .rsp :=
    fun r v sets => σ.setReg_reg_of_ne v (counted_ne counted sets).symm
  have alu : ∀ (op : Alu) (r : RegName) (v : BitVec 64), i.sets = some r →
      (σ.alu op r v).reg .rsp = σ.reg .rsp :=
    fun op r v sets => σ.alu_reg_of_ne op v (counted_ne counted sets).symm
  have still : τ.reg .rsp = σ.reg .rsp → τ.reg .rsp = σ.reg .rsp - BitVec.ofInt 64 (8 * 0) := by
    intro same
    rw [same]
    simp
  unfold exec at next
  split at next
  · cases next
  · cases i with
    | push r | pushDisplay d =>
      cases next
      rfl
    | pop r =>
      cases next
      have ne := (counted_ne counted rfl).symm
      rw [State.pop, State.setReg_reg_of_ne _ _ ne, State.setReg_reg_self]
      simp only [Insn.pushed]
      bv_omega
    | mov dst src | movImm dst k | load dst base disp | loadDisplay dst d | lea dst off | not dst =>
      cases next
      exact still (set _ _ rfl)
    | alu op dst src | addImm dst k | subImm dst k | cmpImm dst k | inc dst =>
      cases next
      exact still (alu _ _ _ rfl)
    | movLit dst lit =>
      obtain ⟨n, -, same⟩ := Option.map_eq_some_iff.mp next
      cases same
      exact still (set _ _ rfl)
    | idiv r => exact still (idiv_rsp next)
    | set cc byte =>
      simp only [execNamed, Option.bind_eq_bind, Option.bind_eq_some_iff, Option.some.injEq] at next
      obtain ⟨r, named, f, -, rfl⟩ := next
      exact still (State.setReg_reg_of_ne _ _ (ofLowByte_ne_rsp named).symm)
    | movzx dst byte =>
      simp only [execNamed, Option.bind_eq_bind, Option.bind_eq_some_iff, Option.some.injEq] at next
      obtain ⟨r, -, rfl⟩ := next
      exact still (set _ _ rfl)
    | call | ret | syscall => cases counted
    | jmp | jcc => cases next
    | _ =>
      cases next
      exact still rfl

-- Where the count allows a pop, and a push stays above address 0, nothing wraps around.
theorem exec_height {env : Env} {i : Insn} {σ τ : State} (counted : i.counted = true)
    (next : exec env i σ = some τ) (above : ¬ (i.pushed = 1 ∧ (σ.reg .rsp).toNat < 8))
    (room : i.pushed = -1 → (σ.reg .rsp).toNat + 8 < 2 ^ 64) :
    ((τ.reg .rsp).toNat : Int) = (σ.reg .rsp).toNat - 8 * i.pushed := by
  rw [exec_rsp counted next]
  have size := (σ.reg .rsp).isLt
  cases i with
  | push | pushDisplay =>
    simp only [Insn.pushed, true_and] at above ⊢
    bv_omega
  | pop =>
    have fits := room rfl
    simp only [Insn.pushed] at above ⊢
    bv_omega
  | _ => simp [Insn.pushed]

/-! ## Runs -/

theorem stackStep_some {env : Env} {code : List Insn} {p : Nat} {σ : State} {c : Nat × State}
    (next : stackStep env code (p, σ) = some c) :
    ∃ i, code[p]? = some i ∧ ¬ (i.pushed = 1 ∧ (σ.reg .rsp).toNat < 8) ∧
      step env code (p, σ) = some c := by
  unfold stackStep at next
  split at next
  · cases next
  next i at_ =>
    split at next
    · cases next
    next above => exact ⟨i, at_, above, next⟩

theorem step_cases {env : Env} {code : List Insn} {p q : Nat} {i : Insn} {σ τ : State}
    (at_ : code[p]? = some i) (next : step env code (p, σ) = some (q, τ)) :
    (∃ l, (i = .jmp l ∨ ∃ cc, i = .jcc cc l) ∧ resolveLabel code p l = some q ∧ τ = σ) ∨
      (q = p + 1 ∧ τ = σ ∧ i.pushed = 0) ∨ (q = p + 1 ∧ exec env i σ = some τ) := by
  unfold step at next
  rw [at_] at next
  cases i with
  | jmp l =>
    obtain ⟨_, found, same⟩ := Option.map_eq_some_iff.mp next
    cases same
    exact .inl ⟨l, .inl rfl, found, rfl⟩
  | jcc cc l =>
    obtain ⟨f, -, next⟩ := Option.bind_eq_some_iff.mp next
    split at next
    · obtain ⟨_, found, same⟩ := Option.map_eq_some_iff.mp next
      cases same
      exact .inl ⟨l, .inr ⟨cc, rfl⟩, found, rfl⟩
    · cases next
      exact .inr (.inl ⟨rfl, rfl, rfl⟩)
  | _ =>
    obtain ⟨_, ran, same⟩ := Option.map_eq_some_iff.mp next
    cases same
    exact .inr (.inr ⟨rfl, ran⟩)

/-- The stack is at least as high as the lines before the position say, counted from the stack
pointer at height 0. -/
def AtLeast (h : Int) (code : List Insn) (base : BitVec 64) (c : Nat × State) : Prop :=
  ∃ d : Int, ((c.2.reg .rsp).toNat : Int) + 8 * d = base.toNat ∧ heightAt h code c.1 ≤ d

theorem resolveLabel_at {code : List Insn} {p q : Nat} {l : Label}
    (found : resolveLabel code p l = some q) : code[q]? = some (.label l) := by
  have matches_ := List.find?_some found
  simp only [Bool.and_eq_true, decide_eq_true_eq] at matches_
  exact matches_.1

theorem Leveled.step {level : Label → Int} {h h₁ : Int} {env : Env} {code : List Insn}
    {base : BitVec 64} (leveled : Leveled level h code h₁) {c c' : Nat × State}
    (high : AtLeast h code base c) (next : stackStep env code c = some c') :
    AtLeast h code base c' := by
  obtain ⟨p, σ⟩ := c
  obtain ⟨q, τ⟩ := c'
  obtain ⟨d, sum, least⟩ := high
  have before : heightAt h code p ≤ d := least
  obtain ⟨i, at_, above, next⟩ := stackStep_some next
  obtain ⟨counted, allowed⟩ := leveled.line at_
  rcases step_cases at_ next with ⟨l, jump, found, rfl⟩ | ⟨rfl, rfl, flat⟩ | ⟨rfl, ran⟩
  · -- the label stands no higher than the jump
    have there := (leveled.line (resolveLabel_at found)).2
    have here : level l ≤ heightAt h code p := by
      rcases jump with rfl | ⟨cc, rfl⟩ <;> exact allowed
    have same : level l = heightAt h code q := there
    exact ⟨d, sum, same ▸ Int.le_trans here before⟩
  · refine ⟨d, sum, ?_⟩
    simp only [heightAt_succ h at_, flat]
    omega
  · have room : i.pushed = -1 → (σ.reg .rsp).toNat + 8 < 2 ^ 64 := by
      intro pops
      have positive : 1 ≤ heightAt h code p := by
        cases i with
        | pop => exact allowed
        | _ => simp [Insn.pushed] at pops
      have size := base.isLt
      simp only at sum
      omega
    have moved := exec_height counted ran above room
    refine ⟨d + i.pushed, ?_, ?_⟩
    · simp only at sum ⊢
      omega
    · simp only [heightAt_succ h at_]
      exact Int.add_le_add_right before _

-- At the end of a run through leveled lines, the stack is at least as high as after the last
-- line.
theorem Leveled.run {level : Label → Int} {h₁ : Int} {env : Env} {code : List Insn}
    (leveled : Leveled level 0 code h₁) {n : Nat} {σ τ : State}
    (ran : runFor (stackStep env code) n (0, σ) = some (code.length, τ)) :
    ((τ.reg .rsp).toNat : Int) + 8 * h₁ ≤ (σ.reg .rsp).toNat := by
  have start : AtLeast 0 code (σ.reg .rsp) (0, σ) := ⟨0, rfl, Int.le_refl 0⟩
  have high : AtLeast 0 code (σ.reg .rsp) (code.length, τ) :=
    runFor_inside (fun _ _ high next => leveled.step high next) start ran
  obtain ⟨d, sum, least⟩ := high
  simp only [leveled.heightAt_length] at least sum
  omega

end Dragon
