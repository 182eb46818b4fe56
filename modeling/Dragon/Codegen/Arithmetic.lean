import Dragon.Codegen.Registers
import Dragon.Machine.State
import Dragon.Source.Arithmetic

/-! The code of arithmetic expressions, spills included.

The allocator is followed through the list of its free registers. An operation
entered with no free register, or with rcx as the only one, leaves its left
operand: the result is computed in rcx, which the hand-back of the right operand
then pops.
-/

set_option autoImplicit false

namespace Dragon

open Analysis ByteMemory

/-! ## The registers left -/

namespace RegisterSet

/-- The free registers, in the order reg_gimme takes them. -/
def freeList (rs : RegisterSet) : List (Fin numRegs) :=
  (List.finRange numRegs).filter fun i => !rs.regsUsed i

theorem mem_freeList {rs : RegisterSet} {i : Fin numRegs} :
    i ∈ rs.freeList ↔ rs.regsUsed i = false := by
  simp [freeList]

theorem nodup_freeList (rs : RegisterSet) : rs.freeList.Nodup := (List.nodup_finRange _).filter _

theorem firstFree_eq (rs : RegisterSet) : rs.firstFree = rs.freeList.head? := by
  simp only [firstFree, freeList, List.head?_filter]

theorem freeList_mark {rs : RegisterSet} {i : Fin numRegs} {rest : List (Fin numRegs)}
    (free : rs.freeList = i :: rest) : (rs.mark i).freeList = rest := by
  have fewer : (rs.mark i).freeList = rs.freeList.filter (fun j => decide (j ≠ i)) := by
    simp only [freeList, List.filter_filter]
    congr 1
    funext j
    by_cases same : j = i <;> simp [mark, same]
  have nodup := rs.nodup_freeList
  rw [free] at nodup fewer
  obtain ⟨fresh, -⟩ := List.nodup_cons.mp nodup
  rw [fewer, List.filter_cons_of_neg (by simp), List.filter_eq_self]
  intro j member
  have ne : j ≠ i := fun same => fresh (same ▸ member)
  simpa using ne

theorem gimme_full {rs : RegisterSet} (full : rs.freeList = []) :
    rs.gimme.1.name = .rcx ∧ rs.gimme.1.needRestore = true ∧ rs.gimme.2.2 = [.push .rcx] ∧
      rs.gimme.2.1.freeList = [] := by
  have none_ : rs.firstFree = none := by rw [firstFree_eq, full]; rfl
  simp only [gimme, none_, true_and]
  exact ⟨rfl, rfl, full⟩

theorem gimme_free {rs : RegisterSet} {i : Fin numRegs} {rest : List (Fin numRegs)}
    (free : rs.freeList = i :: rest) :
    rs.gimme.1 = ⟨REGS i, i, false⟩ ∧ rs.gimme.2.2 = [] ∧ rs.gimme.2.1.freeList = rest := by
  have some_ : rs.firstFree = some i := by rw [firstFree_eq, free]; rfl
  simp only [gimme, some_, true_and]
  exact freeList_mark free

end RegisterSet

def target : List (Fin numRegs) → RegName
  | [] => .rcx
  | i :: _ => REGS i

theorem target_gimme (rs : RegisterSet) : rs.gimme.1.name = target rs.freeList := by
  cases free : rs.freeList with
  | nil => exact (RegisterSet.gimme_full free).1
  | cons i rest => rw [(RegisterSet.gimme_free free).1]; rfl

theorem freeList_gimme (rs : RegisterSet) : rs.gimme.2.1.freeList = rs.freeList.tail := by
  cases free : rs.freeList with
  | nil => exact (RegisterSet.gimme_full free).2.2.2
  | cons i rest => exact (RegisterSet.gimme_free free).2.2

namespace AstExpr

/-- The words an expression pushes at most. -/
def spills : AstExpr → List (Fin numRegs) → Nat
  | .bin _ left right, [] => max (left.spills []) (1 + right.spills [])
  | .bin _ left right, i :: rest => max (left.spills (i :: rest)) (right.spills rest)
  | _, [] => 1
  | _, _ :: _ => 0

/-- What an expression comes to: the right operand of an operation that gets no register, or
only rcx, is dropped. -/
def kept : AstExpr → List (Fin numRegs) → AstExpr
  | .bin _ left _, [] => left.kept []
  | .bin op left right, i :: rest =>
      if i = 1 ∧ rest = [] then left.kept [1] else .bin op (left.kept (i :: rest)) (right.kept rest)
  | e, _ => e

theorem kept_of_need : ∀ (e : AstExpr) {free : List (Fin numRegs)}, e.need ≤ free.length →
    e.kept free = e ∧ e.spills free = 0
  | .bin op left right, [], enough => by
      have := left.need_pos
      simp only [need, List.length_nil] at enough
      omega
  | .bin op left right, i :: rest, enough => by
      simp only [need, List.length_cons] at enough
      have := right.need_pos
      obtain ⟨one, noSpill⟩ := left.kept_of_need (show left.need ≤ (i :: rest).length by
        rw [List.length_cons]; omega)
      obtain ⟨two, noSpill'⟩ := right.kept_of_need (show right.need ≤ rest.length by omega)
      have more : ¬ (i = 1 ∧ rest = []) := by
        rintro ⟨-, rfl⟩
        rw [List.length_nil] at enough
        omega
      exact ⟨by rw [kept, if_neg more, one, two], by rw [spills, noSpill, noSpill']; rfl⟩
  | .lit _, [], enough | .path _, [], enough | .app .., [], enough | .deref _, [], enough
  | .idx .., [], enough | .un .., [], enough | .addrof _, [], enough => by simp [need] at enough
  | .lit _, _ :: _, _ | .path _, _ :: _, _ | .app .., _ :: _, _ | .deref _, _ :: _, _
  | .idx .., _ :: _, _ | .un .., _ :: _, _ | .addrof _, _ :: _, _ => ⟨rfl, rfl⟩

theorem vars_kept : ∀ {e : AstExpr} {free : List (Fin numRegs)} {x : Name},
    x ∈ (e.kept free).vars → x ∈ e.vars
  | .bin op left right, [], x, member => List.mem_append_left _ (vars_kept member)
  | .bin op left right, i :: rest, x, member => by
      rw [kept] at member
      split at member
      · exact List.mem_append_left _ (vars_kept member)
      · rcases List.mem_append.mp member with member | member
        · exact List.mem_append_left _ (vars_kept member)
        · exact List.mem_append_right _ (vars_kept member)
  | .lit _, _, _, member | .path _, _, _, member | .app .., _, _, member | .deref _, _, _, member
  | .idx .., _, _, member | .un .., _, _, member | .addrof _, _, _, member => member

end AstExpr

/-! ## Arithmetic expressions -/

def Token.alu : Token → Option Alu
  | .plus => some .add
  | .minus => some .sub
  | .star => some .imul
  | _ => none

theorem binCode_arithmetic {op : Token} {alu : Alu} (arithmetic : op.alu = some alu)
    (l r : RegName) : binCode op l r = .ok [.alu alu l r] ∧ isRelop op = false := by
  cases op <;> cases arithmetic <;> exact ⟨rfl, rfl⟩

theorem eval_arithmetic {op : Token} {alu : Alu} (arithmetic : op.alu = some alu)
    (a b : BitVec 64) : (alu.eval a b).1 = some (op.apply a b) := by
  cases op <;> cases arithmetic <;> rfl

structure LocalInteger (st : Stab) (x : Name) (v : StabVar) : Prop where
  isLocal : stabHasLocalVar st x = true
  found : stabVar st (stabResolveVar st x) = some v
  integer : v.type = integerTypeIdx

/-- Expressions over digit-only literals below 2^63, local integer variables, +, - and *. -/
inductive Arith (st : Stab) : AstExpr → Prop where
  | lit {s : Name} {n : Nat} (digits : decimal s = some n) (small : n < 2 ^ 63) : Arith st (.lit s)
  | var {x : Name} {v : StabVar} (var : LocalInteger st x v) : Arith st (.path (astPath x))
  | bin {op : Token} {alu : Alu} {left right : AstExpr} (arithmetic : op.alu = some alu)
      (first : Arith st left) (second : Arith st right) : Arith st (.bin op left right)

def offsetOf (st : Stab) (x : Name) : Int :=
  ((stabVar st (stabResolveVar st x)).map StabVar.stackBaseOffset).getD 0

def valuesOf (st : Stab) (σ : State) (x : Name) : BitVec 64 :=
  readWord σ.mem (σ.frame (offsetOf st x))

theorem LocalInteger.offsetOf_eq {st : Stab} {x : Name} {v : StabVar} (var : LocalInteger st x v) :
    offsetOf st x = v.stackBaseOffset := by
  simp [offsetOf, var.found]

theorem LocalInteger.pathRun {acx : Acx} {x : Name} {v : StabVar} {t : StabType}
    (var : LocalInteger acx.st x v) (known : stabType acx.st integerTypeIdx = some t) (rv : Bool) :
    PathRun (astPath x) rv acx v acx fun r =>
      .lea r v.stackBaseOffset :: if rv then [.load r r 0] else [] := by
  have isLocal := var.isLocal
  have lookup : acx.st.innermost.vars.lookup x ≠ resolveFailure := by
    simpa [stabHasLocalVar] using isLocal
  have resolved : stabResolveVar acx.st x ≠ resolveFailure := by
    rw [stabResolveVar_innermost lookup]
    exact lookup
  refine ⟨var.found, resolved, by simp [Acx.use, astPath, isLocal], ?_, fun _ _ => rfl, ?_⟩
  · intro r i member
    rcases List.mem_cons.mp member with rfl | member
    · exact .lea _
    · cases rv with
      | true => exact List.mem_singleton.mp member ▸ .load
      | false => cases member
  · intro rs
    simp only [typeOfPath, get_bind_eq_ok]
    rw [if_neg (show ¬ stabResolveVar (acx.setRs rs).st (astPath x).first = resolveFailure from
      resolved), regGimme_bind_eq_ok]
    refine ⟨_, ?_, rfl⟩
    rw [bind_eq_ok]
    refine ⟨v, acx.setRs rs.gimme.2.1, [.lea rs.gimme.1.name v.stackBaseOffset],
      if rv then [.load rs.gimme.1.name rs.gimme.1.name 0] else [], ?_, ?_, rfl⟩
    · simp only [pathAddress, get_bind_eq_ok, ofOption_bind_eq_ok]
      refine ⟨v, var.found, ?_⟩
      have here : ¬ stabHasLocalVar ((acx.setRs rs).setRs (acx.setRs rs).rs.gimme.2.1).st
          (astPath x).first = false := by simp [astPath, isLocal]
      rw [if_neg here, emit_bind_eq_ok]
      exact ⟨[], pure_eq_ok.mpr ⟨rfl, rfl, rfl⟩, rfl⟩
    · rw [ofOption_bind_eq_ok]
      refine ⟨t, ?_, ?_⟩
      · rw [var.integer]
        exact known
      · simp [astPath, AstPath.components, fieldLoop, pure_eq_ok]

/-! ## Running the code of an expression -/

/-- The state after the code of an expression with value v, pushing at most d words. -/
structure Leaves (free : List (Fin numRegs)) (d : Nat) (v : BitVec 64) (σ τ : State) : Prop where
  value : τ.reg (target free) = v
  others : ∀ r, r ∉ free.map REGS → (free = [] → r ≠ .rcx ∧ r ≠ .rsp) → τ.reg r = σ.reg r
  saved : free = [] → τ.reg .rsp = below (σ.reg .rsp) 0 ∧
    readWord τ.mem (below (σ.reg .rsp) 0) = σ.reg .rcx
  mem : SameOff (σ.reg .rsp) d σ.mem τ.mem

theorem not_mem_REGS {r : RegName} (outside : ∀ i, REGS i ≠ r) (free : List (Fin numRegs)) :
    r ∉ free.map REGS := by
  intro member
  obtain ⟨i, -, same⟩ := List.mem_map.mp member
  exact outside i same

theorem target_ne {r : RegName} (outside : ∀ i, REGS i ≠ r) :
    ∀ free : List (Fin numRegs), target free ≠ r
  | [] => outside 1
  | i :: _ => outside i

theorem Leaves.rbp {free : List (Fin numRegs)} {d : Nat} {v : BitVec 64} {σ τ : State}
    (leaves : Leaves free d v σ τ) : τ.reg .rbp = σ.reg .rbp :=
  leaves.others _ (not_mem_REGS (fun i => (REGS_ne i).2.1) free) fun _ => by decide

theorem Leaves.rsp {i : Fin numRegs} {rest : List (Fin numRegs)} {d : Nat} {v : BitVec 64}
    {σ τ : State} (leaves : Leaves (i :: rest) d v σ τ) : τ.reg .rsp = σ.reg .rsp :=
  leaves.others _ (not_mem_REGS (fun i => (REGS_ne i).1) _) nofun

/-- The state in which the target register can be written. -/
def taken (free : List (Fin numRegs)) (σ : State) : State :=
  match free with
  | [] => σ.push (σ.reg .rcx)
  | _ :: _ => σ

theorem runBlock_gimme (env : Env) (rs : RegisterSet) (σ : State) :
    runBlock env rs.gimme.2.2 σ = some (taken rs.freeList σ) := by
  cases free : rs.freeList with
  | nil => rw [(RegisterSet.gimme_full free).2.2.1]; rfl
  | cons i rest => rw [(RegisterSet.gimme_free free).2.1]; rfl

theorem leaves_taken (free : List (Fin numRegs)) (σ : State) (v : BitVec 64) {e : AstExpr}
    (leaf : ∀ free, e.spills free = if free = [] then 1 else 0) :
    Leaves free (e.spills free) v σ ((taken free σ).setReg (target free) v) := by
  rw [leaf]
  cases free with
  | nil =>
    refine ⟨State.setReg_reg_self .., ?_, fun _ => ⟨?_, ?_⟩, ?_⟩
    · intro r _ ne
      obtain ⟨notRcx, notRsp⟩ := ne rfl
      simp [taken, target, State.push, State.setReg, notRcx, notRsp]
    · simp [taken, target, State.push, State.setReg]
    · simp [taken, State.push]
    · exact SameOff.push (SameOff.refl _ _ _)
  | cons i rest =>
    refine ⟨State.setReg_reg_self .., ?_, fun empty => absurd empty (List.cons_ne_nil i rest),
      SameOff.refl _ _ _⟩
    intro r outside _
    exact State.setReg_reg_of_ne σ v fun same => outside (same ▸ List.mem_map_of_mem List.mem_cons_self)

theorem Leaves.popped {d : Nat} {v w : BitVec 64} {σ τ : State} (leaves : Leaves [] d v σ τ)
    (alu : Alu) (t : RegName) (writes : (alu.eval (τ.reg t) (τ.reg .rcx)).1 = some w)
    (t_ne : t ≠ .rsp) :
    ((τ.alu alu t (τ.reg .rcx)).pop .rcx).mem = τ.mem ∧
      (t ≠ .rcx → ((τ.alu alu t (τ.reg .rcx)).pop .rcx).reg t = w) ∧
      ∀ r, (r = .rcx ∨ r ≠ t) → ((τ.alu alu t (τ.reg .rcx)).pop .rcx).reg r = σ.reg r := by
  obtain ⟨rsp, saved⟩ := leaves.saved rfl
  have top : (τ.alu alu t (τ.reg .rcx)).reg .rsp = below (σ.reg .rsp) 0 := by
    rw [State.alu_reg_of_ne τ alu _ t_ne.symm, rsp]
  refine ⟨State.alu_mem .., ?_, ?_⟩
  · intro notRcx
    rw [State.pop, State.setReg_reg_of_ne _ _ notRcx, State.setReg_reg_of_ne _ _ t_ne,
      State.alu_reg_self writes]
  · rintro r (rfl | ne)
    · rw [State.pop, State.setReg_reg_self, top, State.alu_mem, saved]
    · by_cases isRcx : r = .rcx
      · rw [isRcx, State.pop, State.setReg_reg_self, top, State.alu_mem, saved]
      · by_cases isRsp : r = .rsp
        · rw [isRsp, State.pop, State.setReg_reg_of_ne _ _ (by decide), State.setReg_reg_self, top]
          unfold below
          bv_omega
        · rw [State.pop, State.setReg_reg_of_ne _ _ isRcx, State.setReg_reg_of_ne _ _ isRsp,
            State.alu_reg_of_ne τ alu _ ne]
          exact leaves.others r (by simp) fun _ => ⟨isRcx, isRsp⟩

/-- The line that gives a target register back. -/
def handback : List (Fin numRegs) → List Insn
  | [] => [.pop .rcx]
  | _ :: _ => []

theorem takeitback_gimme_lines (rs rs' : RegisterSet) :
    (rs'.takeitback rs.gimme.1).2 = handback rs.freeList := by
  unfold RegisterSet.takeitback
  cases free : rs.freeList with
  | nil =>
    obtain ⟨name, spilled, -, -⟩ := RegisterSet.gimme_full free
    simp only [spilled, Bool.true_eq_false, if_false, name, handback]
  | cons i rest => simp only [(RegisterSet.gimme_free free).1, if_true, handback]

theorem exec_alu (env : Env) {alu : Alu} {dst src : RegName} (σ : State) (dst_ne : dst ≠ .blank)
    (src_ne : src ≠ .blank) : exec env (.alu alu dst src) σ = some (σ.alu alu dst (σ.reg src)) :=
  exec_of_named (by simp [Insn.operands, dst_ne.symm, src_ne.symm])

theorem exec_popRcx (env : Env) (σ : State) : exec env (.pop .rcx) σ = some (σ.pop .rcx) := rfl

theorem target_ne_blank (free : List (Fin numRegs)) : target free ≠ .blank :=
  target_ne (fun i => (REGS_ne i).2.2) free

section

variable {op : Token} {alu : Alu} {left right : AstExpr} {store : Name → BitVec 64}
  {σ τ₁ τ₂ : State} (env : Env)

theorem Leaves.bin_free {i j : Fin numRegs} {rest : List (Fin numRegs)}
    (arithmetic : op.alu = some alu) (nodup : (i :: j :: rest).Nodup)
    (first : Leaves (i :: j :: rest) (left.spills (i :: j :: rest))
      ((left.kept (i :: j :: rest)).value store) σ τ₁)
    (second : Leaves (j :: rest) (right.spills (j :: rest))
      ((right.kept (j :: rest)).value store) τ₁ τ₂) :
    ∃ τ₃, runBlock env [.alu alu (REGS i) (REGS j)] τ₂ = some τ₃ ∧
      Leaves (i :: j :: rest) ((AstExpr.bin op left right).spills (i :: j :: rest))
        (((AstExpr.bin op left right).kept (i :: j :: rest)).value store) σ τ₃ := by
  -- with a register for each operand
  have apart : REGS i ∉ (j :: rest).map REGS := by
    rw [List.mem_map_of_injective REGS_injective]
    exact (List.nodup_cons.mp nodup).1
  have leftValue : τ₂.reg (REGS i) = (left.kept (i :: j :: rest)).value store :=
    (second.others _ apart nofun).trans first.value
  have rightValue : τ₂.reg (REGS j) = (right.kept (j :: rest)).value store := second.value
  have writes : (alu.eval (τ₂.reg (REGS i)) (τ₂.reg (REGS j))).1 =
      some (op.apply ((left.kept (i :: j :: rest)).value store)
        ((right.kept (j :: rest)).value store)) := by
    rw [eval_arithmetic arithmetic, leftValue, rightValue]
  refine ⟨_, runBlock_one (exec_alu env τ₂ (REGS_ne i).2.2 (REGS_ne j).2.2), ?_, ?_, nofun, ?_⟩
  · have more : ¬ (i = 1 ∧ j :: rest = []) := by simp
    rw [AstExpr.kept, if_neg more]
    exact State.alu_reg_self writes
  · intro r outside _
    rw [List.map_cons, List.mem_cons, not_or] at outside
    rw [State.alu_reg_of_ne τ₂ alu _ outside.1, second.others r outside.2 nofun]
    exact first.others r (by simpa using outside) nofun
  · rw [State.alu_mem, AstExpr.spills]
    refine (first.mem.mono (Nat.le_max_left _ _)).trans ?_
    rw [← first.rsp]
    exact second.mem.mono (Nat.le_max_right _ _)

theorem Leaves.bin_last {i : Fin numRegs} (arithmetic : op.alu = some alu)
    (first : Leaves [i] (left.spills [i]) ((left.kept [i]).value store) σ τ₁)
    (second : Leaves [] (right.spills []) ((right.kept []).value store) τ₁ τ₂) :
    ∃ τ₃, runBlock env [.alu alu (REGS i) .rcx, .pop .rcx] τ₂ = some τ₃ ∧
      Leaves [i] ((AstExpr.bin op left right).spills [i])
        (((AstExpr.bin op left right).kept [i]).value store) σ τ₃ := by
  -- with a register for the left operand only
  obtain ⟨mem, self, others⟩ := second.popped alu (REGS i)
    (eval_arithmetic arithmetic _ _) (REGS_ne i).1
  refine ⟨_, runBlock_cons_some (exec_alu env τ₂ (REGS_ne i).2.2 (by decide))
    (runBlock_one (exec_popRcx env _)), ?_, ?_, nofun, ?_⟩
  · by_cases isRcx : i = 1
    · subst isRcx
      rw [AstExpr.kept, if_pos ⟨rfl, rfl⟩]
      exact (others .rcx (.inl rfl)).trans first.value
    · have ne : REGS i ≠ .rcx := fun same => isRcx (REGS_injective same)
      have leftValue : τ₂.reg (REGS i) = (left.kept [i]).value store := by
        rw [second.others _ (by simp) fun _ => ⟨ne, (REGS_ne i).1⟩]
        exact first.value
      rw [AstExpr.kept, if_neg (fun both => isRcx both.1)]
      refine (self ne).trans ?_
      rw [leftValue, show τ₂.reg .rcx = (right.kept []).value store from second.value]
      rfl
  · intro r outside _
    rw [others r (.inr (by simpa using outside))]
    exact first.others r outside nofun
  · rw [mem, AstExpr.spills]
    refine (first.mem.mono (Nat.le_max_left _ _)).trans ?_
    rw [← first.rsp]
    exact second.mem.mono (Nat.le_max_right _ _)

theorem Leaves.bin_full (arithmetic : op.alu = some alu)
    (fits : 8 * (AstExpr.bin op left right).spills [] ≤ 2 ^ 64)
    (first : Leaves [] (left.spills []) ((left.kept []).value store) σ τ₁)
    (second : Leaves [] (right.spills []) ((right.kept []).value store) τ₁ τ₂) :
    ∃ τ₃, runBlock env [.alu alu .rcx .rcx, .pop .rcx] τ₂ = some τ₃ ∧
      Leaves [] ((AstExpr.bin op left right).spills [])
        (((AstExpr.bin op left right).kept []).value store) σ τ₃ := by
  -- with no register: the pop gives the left operand back
  obtain ⟨mem, -, others⟩ := second.popped alu .rcx
    (eval_arithmetic arithmetic _ _) (by decide)
  obtain ⟨rsp, saved⟩ := first.saved rfl
  rw [AstExpr.spills] at fits ⊢
  have untouched : readWord τ₂.mem (below (σ.reg .rsp) 0) = readWord τ₁.mem (below (σ.reg .rsp) 0) := by
    refine second.mem _ fun k less => ?_
    rw [rsp, below_below]
    exact below_apart _ (by omega) (by omega)
  refine ⟨_, runBlock_cons_some (exec_alu env τ₂ (by decide) (by decide))
    (runBlock_one (exec_popRcx env _)), ?_, ?_, fun _ => ⟨?_, ?_⟩, ?_⟩
  · exact (others .rcx (.inl rfl)).trans first.value
  · intro r outside ne
    rw [others r (.inr (ne rfl).1)]
    exact first.others r outside ne
  · exact (others .rsp (.inr (by decide))).trans rsp
  · rw [mem, untouched, saved]
  · rw [mem]
    intro a clear
    have later := second.mem a
    rw [rsp] at later
    rw [later ((clear.mono (by omega : right.spills [] + 1 ≤ _)).push)]
    exact first.mem a (clear.mono (Nat.le_max_left _ _))

theorem Leaves.bin {free : List (Fin numRegs)} (arithmetic : op.alu = some alu)
    (nodup : free.Nodup) (fits : 8 * (AstExpr.bin op left right).spills free ≤ 2 ^ 64)
    (first : Leaves free (left.spills free) ((left.kept free).value store) σ τ₁)
    (second : Leaves free.tail (right.spills free.tail) ((right.kept free.tail).value store) τ₁ τ₂) :
    ∃ τ₃, runBlock env (.alu alu (target free) (target free.tail) :: handback free.tail) τ₂ =
        some τ₃ ∧
      Leaves free ((AstExpr.bin op left right).spills free)
        (((AstExpr.bin op left right).kept free).value store) σ τ₃ :=
  match free with
  | [] => Leaves.bin_full env arithmetic fits first second
  | [_] => Leaves.bin_last env arithmetic first second
  | _ :: _ :: _ => Leaves.bin_free env arithmetic nodup first second

end

/-- The stack has room below rsp: what the code pushes meets no variable of the expression. -/
structure Room (st : Stab) (e : AstExpr) (free : List (Fin numRegs)) (σ : State) : Prop where
  clear : ∀ x ∈ e.vars, ClearOf (σ.reg .rsp) (e.spills free) (σ.frame (offsetOf st x))
  fits : 8 * e.spills free ≤ 2 ^ 64

theorem room_of_no_spills {st : Stab} {e : AstExpr} {free : List (Fin numRegs)} {σ : State}
    (none_ : e.spills free = 0) : Room st e free σ := by
  refine ⟨fun x _ k less => ?_, by omega⟩
  rw [none_] at less
  omega

theorem Room.left {st : Stab} {op : Token} {left right : AstExpr} {free : List (Fin numRegs)}
    {σ : State} (room : Room st (.bin op left right) free σ) : Room st left free σ := by
  have less : left.spills free ≤ (AstExpr.bin op left right).spills free :=
    match free with
    | [] => Nat.le_max_left _ _
    | _ :: _ => Nat.le_max_left _ _
  have := room.fits
  exact ⟨fun x member => (room.clear x (List.mem_append_left _ member)).mono less, by omega⟩

theorem Room.right {st : Stab} {op : Token} {left right : AstExpr} {free : List (Fin numRegs)}
    {d : Nat} {v : BitVec 64} {σ τ : State} (room : Room st (.bin op left right) free σ)
    (first : Leaves free d v σ τ) : Room st right free.tail τ := by
  have frame : ∀ off, τ.frame off = σ.frame off := fun off => by
    rw [State.frame, State.frame, first.rbp]
  have fits := room.fits
  cases free with
  | nil =>
    rw [AstExpr.spills] at fits
    refine ⟨fun x member => ?_, by simp only [List.tail_nil]; omega⟩
    rw [frame, (first.saved rfl).1]
    have clear := room.clear x (List.mem_append_right _ member)
    rw [AstExpr.spills] at clear
    exact (clear.mono (by rw [List.tail_nil]; omega)).push
  | cons i rest =>
    rw [AstExpr.spills] at fits
    refine ⟨fun x member => ?_, by simp only [List.tail_cons]; omega⟩
    rw [frame, first.rsp]
    have clear := room.clear x (List.mem_append_right _ member)
    rw [AstExpr.spills] at clear
    exact clear.mono (Nat.le_max_right _ _)

theorem Room.same_right {st : Stab} {op : Token} {left right : AstExpr}
    {free : List (Fin numRegs)} {v : BitVec 64} {σ τ : State}
    (room : Room st (.bin op left right) free σ)
    (first : Leaves free (left.spills free) v σ τ) :
    (right.kept free.tail).value (valuesOf st τ) = (right.kept free.tail).value (valuesOf st σ) := by
  refine AstExpr.value_congr fun x member => ?_
  have clear := room.clear x (List.mem_append_right _ (AstExpr.vars_kept member))
  have less : left.spills free ≤ (AstExpr.bin op left right).spills free :=
    match free with
    | [] => Nat.le_max_left _ _
    | _ :: _ => Nat.le_max_left _ _
  unfold valuesOf
  rw [State.frame, first.rbp]
  exact first.mem _ (clear.mono less)

theorem Arith.spills_leaf {e : AstExpr} (leaf : ∀ op l r, e ≠ .bin op l r)
    (free : List (Fin numRegs)) : e.spills free = if free = [] then 1 else 0 := by
  cases free <;> cases e <;> first | rfl | exact absurd rfl (leaf _ _ _)

-- The code of an arithmetic expression: what analyze_expr does with it, and what running it
-- does.
theorem Arith.computes {st : Stab} {e : AstExpr} (arith : Arith st e) {t : StabType}
    (known : stabType st integerTypeIdx = some t) (acx : Acx) (same : acx.st = st) :
    ∃ code, Run (.expr e true) acx [⟨integerTypeIdx, acx.rs.gimme.1⟩] (acx.setRs acx.rs.gimme.2.1)
        code ∧
      ∀ (env : Env) (σ : State), Room st e acx.rs.freeList σ →
        ∃ τ, runBlock env code σ = some τ ∧
          Leaves acx.rs.freeList (e.spills acx.rs.freeList)
            ((e.kept acx.rs.freeList).value (valuesOf st σ)) σ τ := by
  induction arith generalizing acx with
  | @lit s n digits small =>
    refine ⟨_, .lit, fun env σ room => ?_⟩
    refine ⟨(taken acx.rs.freeList σ).setReg (target acx.rs.freeList) (BitVec.ofNat 64 n),
      runBlock_append_some (runBlock_gimme env acx.rs σ) (runBlock_one ?_), ?_⟩
    · rw [target_gimme, exec_of_named (by simp [Insn.operands, (target_ne_blank _).symm])]
      simp only [execNamed, digits, Option.map_some]
    · have leaf : (AstExpr.lit s).kept acx.rs.freeList = .lit s := by
        cases acx.rs.freeList <;> rfl
      rw [leaf, AstExpr.value, digits]
      exact leaves_taken _ _ _ (Arith.spills_leaf (by simp))
  | @var x v var =>
    subst same
    have run := Run.path (var.pathRun known true)
    rw [var.integer] at run
    refine ⟨_, run, fun env σ room => ?_⟩
    have leaf : (AstExpr.path (astPath x)).kept acx.rs.freeList = .path (astPath x) := by
      cases acx.rs.freeList <;> rfl
    have value : readWord (taken acx.rs.freeList σ).mem ((taken acx.rs.freeList σ).frame v.stackBaseOffset) =
        valuesOf acx.st σ x := by
      have clear := room.clear x List.mem_cons_self
      rw [Arith.spills_leaf (by simp), var.offsetOf_eq] at clear
      unfold valuesOf
      rw [var.offsetOf_eq]
      cases free : acx.rs.freeList with
      | nil =>
        rw [free, if_pos rfl] at clear
        exact readWord_writeWord_apart _ _ (clear 0 (by decide))
      | cons i rest => rfl
    refine ⟨(taken acx.rs.freeList σ).setReg (target acx.rs.freeList) (valuesOf acx.st σ x),
      runBlock_append_some (runBlock_gimme env acx.rs σ) (runBlock_cons_some
        (τ := (taken acx.rs.freeList σ).setReg (target acx.rs.freeList)
          ((taken acx.rs.freeList σ).frame v.stackBaseOffset)) ?_ (runBlock_one ?_)), ?_⟩
    · rw [target_gimme, exec_of_named (by simp [Insn.operands, (target_ne_blank _).symm])]
      rfl
    · rw [target_gimme, exec_of_named (by simp [Insn.operands, (target_ne_blank _).symm])]
      simp only [execNamed, State.setReg_reg_self, State.setReg_mem, Option.some.injEq]
      rw [show BitVec.ofInt 64 0 = 0#64 from rfl, BitVec.add_zero, value]
      simp only [State.setReg]
      congr 1
      funext r
      split <;> rfl
    · rw [leaf]
      exact leaves_taken _ _ _ (Arith.spills_leaf (by simp))
  | @bin op alu left right arithmetic one two ih₁ ih₂ =>
    obtain ⟨code₁, run₁, exec₁⟩ := ih₁ acx same
    obtain ⟨code₂, run₂, exec₂⟩ := ih₂ (acx.setRs acx.rs.gimme.2.1) same
    obtain ⟨print, plain⟩ := binCode_arithmetic arithmetic acx.rs.gimme.1.name
      acx.rs.gimme.2.1.gimme.1.name
    have run := @Run.bin op left right true _ _ _ _ _ _ _ _ run₁ run₂ rfl print
    simp only [plain, Bool.false_eq_true, if_false, Acx.setRs_rs, Acx.setRs_setRs,
      RegisterSet.takeitback_gimme] at run
    refine ⟨_, run, fun env σ room => ?_⟩
    obtain ⟨τ₁, exec₁, first⟩ := exec₁ env σ room.left
    rw [Acx.setRs_rs, freeList_gimme] at exec₂
    obtain ⟨τ₂, exec₂, second⟩ := exec₂ env τ₁ (room.right first)
    rw [room.same_right first] at second
    obtain ⟨τ₃, exec₃, leaves⟩ := Leaves.bin env arithmetic acx.rs.nodup_freeList room.fits first
      second
    refine ⟨τ₃, runBlock_append_some exec₁ (runBlock_append_some exec₂ ?_), leaves⟩
    rw [target_gimme, target_gimme, takeitback_gimme_lines, freeList_gimme]
    exact exec₃

/-! ## The value of an expression, and the registers in use -/

/-- The code of an expression, entered in a state: it leaves the value in the register it
returns, and once that is given back rsp and every register that was in use have their values. -/
def ArithmeticRight (e : AstExpr) (acx : Acx) (env : Env) (σ : State) : Prop :=
  ∃ r acx' code τ υ, analyzeExpr e true acx = .ok (r, acx', code) ∧
    runBlock env code σ = some τ ∧ τ.reg r.reg.name = e.value (valuesOf acx.st σ) ∧
    runBlock env (acx'.rs.takeitback r.reg).2 τ = some υ ∧ υ.reg .rsp = σ.reg .rsp ∧
    ∀ i, acx.rs.regsUsed i = true → υ.reg (REGS i) = σ.reg (REGS i)

theorem Leaves.given_back {rs : RegisterSet} {d : Nat} {v : BitVec 64} {σ τ : State}
    (leaves : Leaves rs.freeList d v σ τ) (env : Env) (rs' : RegisterSet) :
    ∃ υ, runBlock env (rs'.takeitback rs.gimme.1).2 τ = some υ ∧ υ.reg .rsp = σ.reg .rsp ∧
      ∀ i, rs.regsUsed i = true → υ.reg (REGS i) = σ.reg (REGS i) := by
  rw [takeitback_gimme_lines]
  cases free : rs.freeList with
  | nil =>
    rw [free] at leaves
    obtain ⟨rsp, saved⟩ := leaves.saved rfl
    refine ⟨_, runBlock_one (exec_popRcx env τ), ?_, ?_⟩
    · rw [State.pop, State.setReg_reg_of_ne _ _ (by decide), State.setReg_reg_self, rsp]
      unfold below
      bv_omega
    · intro i _
      by_cases isRcx : REGS i = .rcx
      · rw [isRcx, State.pop, State.setReg_reg_self, rsp, saved]
      · rw [State.pop, State.setReg_reg_of_ne _ _ isRcx, State.setReg_reg_of_ne _ _ (REGS_ne i).1]
        exact leaves.others _ (by simp) fun _ => ⟨isRcx, (REGS_ne i).1⟩
  | cons j rest =>
    have used : ∀ i, rs.regsUsed i = true → REGS i ∉ rs.freeList.map REGS := by
      intro i isUsed
      rw [List.mem_map_of_injective REGS_injective, RegisterSet.mem_freeList, isUsed]
      decide
    rw [free] at leaves used
    exact ⟨τ, rfl, leaves.rsp, fun i isUsed => leaves.others _ (used i isUsed) nofun⟩

theorem arithmeticRight_iff_kept {e : AstExpr} {acx : Acx} {t : StabType} {env : Env} {σ : State}
    (arith : Arith acx.st e) (known : stabType acx.st integerTypeIdx = some t)
    (room : Room acx.st e acx.rs.freeList σ) :
    ArithmeticRight e acx env σ ↔
      (e.kept acx.rs.freeList).value (valuesOf acx.st σ) = e.value (valuesOf acx.st σ) := by
  obtain ⟨code, run, exec⟩ := arith.computes known acx rfl
  have accepted := run.expr_accepted
  obtain ⟨τ, ran, leaves⟩ := exec env σ room
  have value := leaves.value
  rw [← target_gimme] at value
  constructor
  · rintro ⟨r, acx', code', τ', υ, accepted', ran', right, -⟩
    rw [accepted, Except.ok.injEq, Prod.mk.injEq, Prod.mk.injEq] at accepted'
    obtain ⟨rfl, rfl, rfl⟩ := accepted'
    rw [ran, Option.some.injEq] at ran'
    subst ran'
    exact value.symm.trans right
  · intro same
    obtain ⟨υ, back, rsp, used⟩ := leaves.given_back env acx.rs.gimme.2.1
    exact ⟨_, _, _, τ, υ, accepted, ran, value.trans same, back, rsp, used⟩

/-- The code of an expression is right when the registers suffice, and otherwise in just the
states in which the operands it drops make no difference. -/
theorem arithmeticRight_iff (e : AstExpr) (acx : Acx) (t : StabType)
    (arith : Arith acx.st e) (known : stabType acx.st integerTypeIdx = some t) :
    (e.need ≤ acx.rs.freeList.length → ∀ env σ, ArithmeticRight e acx env σ) ∧
      ∀ env σ, Room acx.st e acx.rs.freeList σ →
        (ArithmeticRight e acx env σ ↔
          (e.kept acx.rs.freeList).value (valuesOf acx.st σ) = e.value (valuesOf acx.st σ)) := by
  refine ⟨fun enough env σ => ?_, fun env σ => arithmeticRight_iff_kept arith known⟩
  obtain ⟨whole, noSpill⟩ := e.kept_of_need enough
  exact (arithmeticRight_iff_kept arith known (room_of_no_spills noSpill)).mpr (by rw [whole])

-- 1+(1+(1+ …)), with n additions.
def sumOfOnes : Nat → AstExpr
  | 0 => .lit "1"
  | n + 1 => .bin .plus (.lit "1") (sumOfOnes n)

theorem sumOfOnes_arith (st : Stab) (n : Nat) : Arith st (sumOfOnes n) := by
  have one : Arith st (.lit "1") := .lit (show decimal "1" = some 1 by decide +kernel) (by decide)
  induction n with
  | zero => exact one
  | succ n ih => exact .bin rfl one ih

-- Fourteen registers are enough for thirteen additions.
theorem sumOfOnes_arithmeticRight :
    ArithmeticRight (sumOfOnes 13) initialAcx noCalls zeroState :=
  (arithmeticRight_iff (sumOfOnes 13) initialAcx _ (sumOfOnes_arith _ 13) rfl).1 (by decide +kernel)
    noCalls zeroState

-- Sixteen ones add up to fifteen: the innermost operation finds every register in use.
theorem not_forall_arithmeticRight : ¬ ∀ (e : AstExpr) (acx : Acx) (t : StabType) (env : Env)
    (σ : State), Arith acx.st e → stabType acx.st integerTypeIdx = some t →
    Room acx.st e acx.rs.freeList σ → ArithmeticRight e acx env σ := by
  intro claim
  have arith := sumOfOnes_arith initialAcx.st 15
  have room : Room initialAcx.st (sumOfOnes 15) initialAcx.rs.freeList zeroState := by
    refine ⟨fun x member => ?_, by decide +kernel⟩
    rw [show (sumOfOnes 15).vars = [] by decide +kernel] at member
    cases member
  have same := (arithmeticRight_iff_kept arith rfl room).mp
    (claim _ initialAcx _ noCalls zeroState arith rfl room)
  rw [@AstExpr.value_congr _ (fun _ => 0) _ (fun x member => ?_),
    @AstExpr.value_congr _ (fun _ => 0) (sumOfOnes 15) (fun x member => ?_)] at same
  · revert same
    decide +kernel
  · rw [show (sumOfOnes 15).vars = [] by decide +kernel] at member
    cases member
  · rw [show ((sumOfOnes 15).kept initialAcx.rs.freeList).vars = [] by decide +kernel] at member
    cases member

end Dragon
