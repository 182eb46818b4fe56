import Dragon.Codegen.Scoping
import Mathlib.Data.Fintype.Card

/-! Register bookkeeping across expressions and statements.

What a statement does to the register set is followed on three measures: how
many registers are taken, spilled ones included, the same without the first
register, and the overflow counter alone. Giving a register back lowers them by
at most what taking it raised, and the hand-back of a magic call only frees the
first register.
-/

set_option autoImplicit false

namespace Dragon

/-! ## Measures -/

namespace RegisterSet

def free (rs : RegisterSet) : Finset (Fin numRegs) :=
  Finset.univ.filter fun i => rs.regsUsed i = false

/-- Registers taken, up to a constant. -/
def taken (rs : RegisterSet) : Int := rs.overflow - rs.free.card

/-- Registers taken other than the first, up to a constant. -/
def takenBeyond (rs : RegisterSet) : Int := rs.overflow - (rs.free.erase 0).card

theorem mem_free {rs : RegisterSet} {i : Fin numRegs} : i ∈ rs.free ↔ rs.regsUsed i = false := by
  simp [free]

@[simp] theorem mark_overflow (rs : RegisterSet) (i : Fin numRegs) :
    (rs.mark i).overflow = rs.overflow := rfl

@[simp] theorem unmark_overflow (rs : RegisterSet) (which : Nat) :
    (rs.unmark which).overflow = rs.overflow := rfl

theorem taken_ge (rs : RegisterSet) : rs.overflow - 14 ≤ rs.taken := by
  have bound : rs.free.card ≤ 14 := Finset.card_le_univ rs.free
  unfold taken
  omega

theorem free_mark (rs : RegisterSet) (i : Fin numRegs) : (rs.mark i).free = rs.free.erase i := by
  ext j
  rw [Finset.mem_erase, mem_free, mem_free]
  by_cases same : j = i <;> simp [mark, same]

theorem free_unmark_subset (rs : RegisterSet) (i : Fin numRegs) :
    (rs.unmark i).free ⊆ insert i rs.free := by
  intro j member
  rw [Finset.mem_insert, mem_free]
  rw [mem_free] at member
  by_cases same : j = i
  · exact .inl same
  · exact .inr (by simpa [unmark, Fin.val_ne_of_ne same] using member)

theorem firstFree_none {rs : RegisterSet} (full : rs.firstFree = none) (i : Fin numRegs) :
    rs.regsUsed i = true := by
  simpa using List.find?_eq_none.mp full i (List.mem_finRange i)

theorem firstFree_some {rs : RegisterSet} {i : Fin numRegs} (found : rs.firstFree = some i) :
    rs.regsUsed i = false := by
  simpa using List.find?_some found

theorem firstFree_zero {rs : RegisterSet} (unused : rs.regsUsed 0 = false) :
    rs.firstFree = some 0 := by
  unfold firstFree
  rw [List.finRange_succ, List.find?_cons]
  simp [unused]

end RegisterSet

namespace Reg

def spilled (r : Reg) : Int := if r.needRestore then 1 else 0

/-- The part of a register beyond the first one. -/
def beyond (r : Reg) : Int := if r.needRestore = false ∧ r.which = 0 then 0 else 1

theorem beyond_nonneg (r : Reg) : 0 ≤ r.beyond := by
  unfold beyond
  split <;> omega

end Reg

namespace RegisterSet

/-- What taking a register does to the measures. -/
structure Took (rs rs' : RegisterSet) (r : Reg) : Prop where
  first : rs'.regsUsed 0 = true
  other : rs.regsUsed 0 = true → ¬ (r.needRestore = false ∧ r.which = 0)
  taken : rs.taken + 1 ≤ rs'.taken
  beyond : rs.takenBeyond + r.beyond ≤ rs'.takenBeyond
  overflow : rs.overflow + r.spilled ≤ rs'.overflow

theorem took_gimme (rs : RegisterSet) : Took rs rs.gimme.2.1 rs.gimme.1 := by
  unfold gimme
  cases found : rs.firstFree with
  | none =>
    refine ⟨firstFree_none found 0, by simp, ?_, ?_, ?_⟩
    · simp only [RegisterSet.taken, free]
      omega
    · simp only [takenBeyond, free, Reg.beyond, Bool.true_eq_false, false_and, if_false]
      omega
    · simp [Reg.spilled]
  | some i =>
    have unused := firstFree_some found
    have member : i ∈ rs.free := mem_free.mpr unused
    have positive := Finset.card_pos.mpr ⟨i, member⟩
    have card := Finset.card_erase_of_mem member
    refine ⟨?_, ?_, ?_, ?_, by simp [Reg.spilled, mark]⟩
    · by_cases first : rs.regsUsed 0 = true
      · simp only [mark]
        split
        · rfl
        · exact first
      · rw [firstFree_zero (by simpa using first)] at found
        cases found
        simp [mark]
    · rintro used ⟨-, zero⟩
      have : i = 0 := Fin.ext zero
      rw [this, used] at unused
      cases unused
    · simp only [RegisterSet.taken, free_mark, mark_overflow]
      omega
    · simp only [takenBeyond, free_mark, Reg.beyond]
      by_cases zero : i = 0
      · subst zero
        simp [mark]
      · have member' : i ∈ rs.free.erase 0 := Finset.mem_erase.mpr ⟨zero, member⟩
        have positive' := Finset.card_pos.mpr ⟨i, member'⟩
        have card' := Finset.card_erase_of_mem member'
        rw [Finset.erase_right_comm]
        have notZero : ¬ (i.val = 0) := fun same => zero (Fin.ext same)
        simp only [mark, notZero, and_false, if_false]
        omega

theorem takeitback_measures (rs : RegisterSet) (r : Reg) :
    rs.taken - 1 ≤ (rs.takeitback r).1.taken ∧
      rs.takenBeyond - r.beyond ≤ (rs.takeitback r).1.takenBeyond ∧
      rs.overflow - r.spilled ≤ (rs.takeitback r).1.overflow := by
  unfold takeitback
  split
  next real =>
    refine ⟨?_, ?_, by simp [unmark, Reg.spilled, real]⟩
    · by_cases small : r.which < numRegs
      · have sub := Finset.card_le_card (free_unmark_subset rs ⟨r.which, small⟩)
        have card := Finset.card_insert_le (⟨r.which, small⟩ : Fin numRegs) rs.free
        simp only [RegisterSet.taken, unmark_overflow] at *
        omega
      · have same : rs.unmark r.which = rs := by
          cases rs
          simp only [unmark, RegisterSet.mk.injEq, true_and]
          funext j
          rw [if_neg (by omega)]
        rw [same]
        exact Int.sub_le_self _ (by decide)
    · simp only [Reg.beyond, real, true_and]
      by_cases small : r.which < numRegs
      · by_cases zero : r.which = 0
        · have same : (rs.unmark r.which).free.erase 0 = rs.free.erase 0 := by
            ext j
            rw [Finset.mem_erase, Finset.mem_erase, mem_free, mem_free]
            refine and_congr_right fun ne => ?_
            have : ¬ j.val = r.which := fun same => ne (Fin.ext (same.trans zero))
            simp [unmark, this]
          rw [if_pos zero, takenBeyond, takenBeyond, same, unmark_overflow]
          omega
        · have sub : (rs.unmark r.which).free.erase 0 ⊆
              insert ⟨r.which, small⟩ (rs.free.erase 0) := by
            intro j member
            obtain ⟨ne, member⟩ := Finset.mem_erase.mp member
            rcases Finset.mem_insert.mp (free_unmark_subset rs ⟨r.which, small⟩ member) with h | h
            · exact Finset.mem_insert.mpr (.inl h)
            · exact Finset.mem_insert.mpr (.inr (Finset.mem_erase.mpr ⟨ne, h⟩))
          have le := Finset.card_le_card sub
          have card := Finset.card_insert_le (⟨r.which, small⟩ : Fin numRegs) (rs.free.erase 0)
          simp only [takenBeyond, zero, if_false, unmark_overflow] at *
          omega
      · have same : rs.unmark r.which = rs := by
          cases rs
          simp only [unmark, RegisterSet.mk.injEq, true_and]
          funext j
          rw [if_neg (by omega)]
        rw [same]
        split <;> omega
  next spill =>
    have isSpill : r.needRestore = true := by simpa using spill
    simp only [RegisterSet.taken, takenBeyond, free, Reg.beyond, Reg.spilled, isSpill, if_true]
    simp
    omega

theorem takeitback_first {rs : RegisterSet} {r : Reg} (used : rs.regsUsed 0 = true)
    (other : ¬ (r.needRestore = false ∧ r.which = 0)) :
    (rs.takeitback r).1.regsUsed 0 = true := by
  unfold takeitback
  split
  next real =>
    have ne : ¬ (0 : Fin numRegs).val = r.which := fun same => other ⟨real, same.symm⟩
    simp only [unmark, ne, if_false]
    exact used
  · exact used

theorem takeitback_magic (rs : RegisterSet) : (rs.takeitback magicResu.reg).1 = rs.unmark 0 := rfl

end RegisterSet

/-! ## Which nodes keep the bookkeeping -/

def isMagic (st : Stab) (p : AstPath) : Bool :=
  match calleeOf st p with
  | some pt => pt.magic.isSome
  | none => false

namespace AstExpr

/-- No array element, no actual argument and no magic call. -/
def exact (magic : AstPath → Bool) : AstExpr → Bool
  | .app p args => args.isEmpty && !magic p
  | .bin _ left right => left.exact magic && right.exact magic
  | .deref target => target.exact magic
  | .idx _ _ => false
  | .lit _ => true
  | .path _ => true
  | .un _ operand => operand.exact magic
  | .addrof target => target.exact magic

mutual

/-- No magic call. -/
def plain (magic : AstPath → Bool) : AstExpr → Bool
  | .app p args => !magic p && allPlain magic args
  | .bin _ left right => left.plain magic && right.plain magic
  | .deref target => target.plain magic
  | .idx _ index => index.plain magic
  | .lit _ => true
  | .path _ => true
  | .un _ operand => operand.plain magic
  | .addrof target => target.plain magic

def allPlain (magic : AstPath → Bool) : List AstExpr → Bool
  | [] => true
  | e :: args => e.plain magic && allPlain magic args

end

end AstExpr

namespace AstStmt

mutual

/-- No loop with a counter, and exact expressions and calls only. -/
def exact (magic : AstPath → Bool) : AstStmt → Bool
  | .null => true
  | .assign lvalue rvalue => lvalue.exact magic && rvalue.exact magic
  | .foor .. => false
  | .ite cond thenn elze => cond.exact magic && thenn.exact magic && elze.exact magic
  | .proc p args => args.isEmpty && !magic p
  | .stmts body => allExact magic body
  | .wdo cond body => cond.exact magic && body.exact magic

def allExact (magic : AstPath → Bool) : List AstStmt → Bool
  | [] => true
  | s :: body => s.exact magic && allExact magic body

end

mutual

/-- Magic calls are statements, never parts of expressions. -/
def plain (magic : AstPath → Bool) : AstStmt → Bool
  | .null => true
  | .assign lvalue rvalue => lvalue.plain magic && rvalue.plain magic
  | .foor _ start finish body => start.plain magic && finish.plain magic && body.plain magic
  | .ite cond thenn elze => cond.plain magic && thenn.plain magic && elze.plain magic
  | .proc _ args => AstExpr.allPlain magic args
  | .stmts body => allPlain magic body
  | .wdo cond body => cond.plain magic && body.plain magic

def allPlain (magic : AstPath → Bool) : List AstStmt → Bool
  | [] => true
  | s :: body => s.plain magic && allPlain magic body

end

end AstStmt

/-! ## Calls mean the same throughout a statement -/

theorem Run.types {node : Node} {acx acx' : Acx} {results : List Resu} {code : List Insn}
    (run : Run node acx results acx' code) : acx'.st.types = acx.st.types := by
  induction run with
  | lit => rfl
  | path path => exact path.used ▸ Acx.use_types ..
  | deref path _ _ => exact path.used ▸ Acx.use_types ..
  | idx path _ _ _ _ ih => exact ih.trans (path.used ▸ Acx.use_types ..)
  | bin _ _ _ _ ih₁ ih₂ => exact ih₂.trans ih₁
  | un _ _ _ ih => exact ih
  | app _ ih => exact ih
  | magic _ _ _ ih => exact ih
  | call _ _ _ _ ih => exact ih
  | noActuals => rfl
  | actual _ _ _ _ ih₁ ih₂ => exact ih₂.trans ih₁
  | wrote => rfl
  | write _ _ _ ih₁ ih₂ => exact ih₂.trans ih₁
  | read_ => rfl
  | read _ _ _ _ ih₁ ih₂ => exact ih₂.trans ih₁

theorem isMagic_congr {st st' : Stab} (same : Stab.SameScopes st st') (types : st'.types = st.types)
    (p : AstPath) : isMagic st' p = isMagic st p := by
  simp only [isMagic, calleeOf, stabResolveFunc, same.chain, stabType, types]
  rfl

theorem isMagic_enter (st : Stab) (p : AstPath) : isMagic (stabEnter st) p = isMagic st p := by
  have skip : stabResolveFunc (stabEnter st) p.first = stabResolveFunc st p.first := by
    simp only [stabResolveFunc, Stab.chain, stabEnter, stabScopeNew]
    rw [resolveIn, NameTable.lookup_empty]
    rfl
  simp only [isMagic, calleeOf, skip, stabType]
  rfl

theorem PathRun.types {p : AstPath} {rv : Bool} {acx acx' : Acx} {v : StabVar}
    {lines : RegName → List Insn} (path : PathRun p rv acx v acx' lines) :
    acx'.st.types = acx.st.types := path.used ▸ Acx.use_types ..

theorem TargetRun.types {e : AstExpr} {acx acx' : Acx} (target : TargetRun e acx acx') :
    acx'.st.types = acx.st.types := by
  obtain ⟨b, rfl⟩ := target.assigned
  rfl

theorem stabLeave_types {st st' : Stab} (left : stabLeave st = .ok st') : st'.types = st.types := by
  obtain ⟨sc, rest, -, rfl⟩ := Stab.stabLeave_eq_ok.mp left
  rfl

theorem StmtRun.types {node : StmtNode} {acx acx' : Acx} {code : List Insn}
    (run : StmtRun node acx acx' code) : acx'.st.types = acx.st.types := by
  induction run with
  | null => rfl
  | assign left target right _ first second =>
    subst first second
    exact right.types.trans (target.types.trans left.types)
  | foor first last _ _ path _ _ back back' leave ih =>
    subst back back'
    exact (stabLeave_types leave).trans (ih.trans (path.types.trans (last.types.trans first.types)))
  | ite test _ _ _ ih₁ ih₂ => exact ih₂.trans (ih₁.trans test.types)
  | proc call => exact call.types
  | stmts _ ih => exact ih
  | wdo test _ _ ih => exact ih.trans test.types
  | nil => rfl
  | cons _ _ ih₁ ih₂ => exact ih₂.trans ih₁

theorem isMagic_of_magic {st : Stab} {p : AstPath} {pt : StabType} {which : Magic}
    (callee : calleeOf st p = some pt) (magic : pt.magic = some which) : isMagic st p = true := by
  simp [isMagic, callee, magic]

theorem isMagic_of_none {st : Stab} {p : AstPath} {pt : StabType}
    (callee : calleeOf st p = some pt) (magic : pt.magic = none) : isMagic st p = false := by
  simp [isMagic, callee, magic]

/-! ## Exact expressions take one register -/

def Node.Exact (node : Node) (magic : AstPath → Bool) : Prop :=
  match node with
  | .expr e _ => e.exact magic = true
  | .call p args => args = [] ∧ magic p = false
  | _ => False

theorem Run.exact {node : Node} {acx acx' : Acx} {results : List Resu} {code : List Insn}
    (run : Run node acx results acx' code) {magic : AstPath → Bool}
    (calls : ∀ p, isMagic acx.st p = magic p) (isExact : node.Exact magic) :
    ∃ t, results = [⟨t, acx.rs.gimme.1⟩] ∧ acx'.rs = acx.rs.gimme.2.1 := by
  -- an exact expression leaves its own register taken, the one reg_gimme hands out first
  induction run with
  | lit => exact ⟨_, rfl, rfl⟩
  | path path => exact ⟨_, rfl, rfl⟩
  | deref path _ _ => exact ⟨_, rfl, rfl⟩
  | idx => simp [Node.Exact, AstExpr.exact] at isExact
  | @bin op left right rv acx acx₁ acx₂ lty rty code₁ code₂ lines first second same print ih₁ ih₂ =>
    simp only [Node.Exact, AstExpr.exact, Bool.and_eq_true] at isExact
    obtain ⟨t₁, one, rs₁⟩ := ih₁ calls isExact.1
    obtain ⟨t₂, two, rs₂⟩ := ih₂
      (fun p => (isMagic_congr first.scopes first.types p).trans (calls p)) isExact.2
    obtain rfl := List.singleton_inj.mp one
    obtain rfl := List.singleton_inj.mp two
    refine ⟨_, rfl, ?_⟩
    rw [Acx.setRs_rs, rs₂, RegisterSet.takeitback_gimme, rs₁]
  | un _ _ _ ih => exact ih calls isExact
  | app _ ih =>
    simp only [Node.Exact, AstExpr.exact, Bool.and_eq_true, List.isEmpty_iff, Bool.not_eq_true']
      at isExact
    exact ih calls isExact
  | magic callee magic _ _ =>
    have other := (calls _).trans isExact.2
    rw [isMagic_of_magic callee magic] at other
    cases other
  | call callee magic func actuals _ =>
    obtain ⟨rfl, -⟩ := isExact
    cases actuals
    exact ⟨_, rfl, rfl⟩
  | noActuals => exact isExact.elim
  | actual => exact isExact.elim
  | wrote => exact isExact.elim
  | write => exact isExact.elim
  | read_ => exact isExact.elim
  | read => exact isExact.elim

/-! ## Plain expressions only add -/

namespace RegisterSet

/-- No register other than the first was freed, nor the counter lowered. -/
structure Grew (rs rs' : RegisterSet) : Prop where
  beyond : rs.takenBeyond ≤ rs'.takenBeyond
  overflow : rs.overflow ≤ rs'.overflow

theorem Grew.refl (rs : RegisterSet) : Grew rs rs := ⟨Int.le_refl _, Int.le_refl _⟩

theorem Grew.trans {rs₁ rs₂ rs₃ : RegisterSet} (first : Grew rs₁ rs₂) (second : Grew rs₂ rs₃) :
    Grew rs₁ rs₃ :=
  ⟨Int.le_trans first.beyond second.beyond, Int.le_trans first.overflow second.overflow⟩

theorem spilled_nonneg (r : Reg) : 0 ≤ r.spilled := by
  unfold Reg.spilled
  split <;> omega

theorem Took.grew {rs rs' : RegisterSet} {r : Reg} (took : Took rs rs' r) : Grew rs rs' := by
  have := took.beyond
  have := took.overflow
  have := r.beyond_nonneg
  have := spilled_nonneg r
  exact ⟨by omega, by omega⟩

theorem Took.back {rs rs' : RegisterSet} {r : Reg} (took : Took rs rs' r) :
    Grew rs (rs'.takeitback r).1 ∧ rs'.taken - 1 ≤ (rs'.takeitback r).1.taken := by
  have := took.beyond
  have := took.overflow
  obtain ⟨taken, beyond, overflow⟩ := takeitback_measures rs' r
  exact ⟨⟨by omega, by omega⟩, taken⟩

theorem Took.after {rs₁ rs₂ rs₃ : RegisterSet} {r r' : Reg} (first : Took rs₁ rs₂ r)
    (second : Took rs₂ rs₃ r') : Took rs₁ rs₃ r' := by
  have := first.grew.beyond
  have := first.grew.overflow
  have := first.taken
  have := second.taken
  have := second.beyond
  have := second.overflow
  exact ⟨second.first, fun _ => second.other first.first, by omega, by omega, by omega⟩

theorem Took.pair {rs₁ rs₂ rs₃ : RegisterSet} {r r' : Reg} (first : Took rs₁ rs₂ r)
    (second : Took rs₂ rs₃ r') : Took rs₁ (rs₃.takeitback r').1 r := by
  obtain ⟨taken, beyond, overflow⟩ := takeitback_measures rs₃ r'
  have := first.taken
  have := first.beyond
  have := first.overflow
  have := second.taken
  have := second.beyond
  have := second.overflow
  exact ⟨takeitback_first second.first (second.other first.first), first.other, by omega, by omega,
    by omega⟩

end RegisterSet

open RegisterSet

def Node.Measured (node : Node) (magic : AstPath → Bool) (rs rs' : RegisterSet)
    (results : List Resu) : Prop :=
  match node with
  | .expr e _ => e.plain magic = true → ∃ r, results = [r] ∧ Took rs rs' r.reg ∧
      (e.exact magic = false → rs.taken + 2 ≤ rs'.taken)
  | .call p args => AstExpr.allPlain magic args = true → magic p = false →
      ∃ r, results = [r] ∧ Took rs rs' r.reg ∧ (args ≠ [] → rs.taken + 2 ≤ rs'.taken)
  | .actuals args _ => AstExpr.allPlain magic args = true →
      Grew rs rs' ∧ (rs.regsUsed 0 = true → rs'.regsUsed 0 = true) ∧
        rs.taken + args.length ≤ rs'.taken
  | .writes args => AstExpr.allPlain magic args = true → Grew rs rs'
  | .reads _ args => AstExpr.allPlain magic args = true → Grew rs rs'

theorem Run.measured {node : Node} {acx acx' : Acx} {results : List Resu} {code : List Insn}
    (run : Run node acx results acx' code) {magic : AstPath → Bool}
    (calls : ∀ p, isMagic acx.st p = magic p) : node.Measured magic acx.rs acx'.rs results := by
  induction run with
  | @lit s rv acx => exact fun _ => ⟨_, rfl, took_gimme acx.rs, by simp [AstExpr.exact]⟩
  | @path p rv acx => exact fun _ => ⟨_, rfl, took_gimme acx.rs, by simp [AstExpr.exact]⟩
  | @deref p rv acx => exact fun _ => ⟨_, rfl, took_gimme acx.rs, by simp [AstExpr.exact]⟩
  | @idx p e rv acx acx₁ acx₂ v lines t lower upper elt ety code path found array index integer ih =>
    intro plain
    obtain ⟨r, same, took, -⟩ := ih
      (fun p => (isMagic_congr path.scopes path.types p).trans (calls p)) plain
    obtain rfl := List.singleton_inj.mp same
    have base := took_gimme acx.rs
    refine ⟨_, rfl, base.after took, fun _ => ?_⟩
    have := base.taken
    have := took.taken
    simp only [Acx.setRs_rs] at *
    omega
  | @bin op left right rv acx acx₁ acx₂ lty rty code₁ code₂ lines first second same print ih₁ ih₂ =>
    intro plain
    simp only [AstExpr.plain, Bool.and_eq_true] at plain
    obtain ⟨r₁, one, took₁, leak₁⟩ := ih₁ calls plain.1
    obtain ⟨r₂, two, took₂, leak₂⟩ := ih₂
      (fun p => (isMagic_congr first.scopes first.types p).trans (calls p)) plain.2
    obtain rfl := List.singleton_inj.mp one
    obtain rfl := List.singleton_inj.mp two
    refine ⟨_, rfl, took₁.pair took₂, ?_⟩
    intro inexact
    obtain ⟨-, taken⟩ := took₂.back
    have := took₁.taken
    have := took₂.taken
    simp only [AstExpr.exact, Bool.and_eq_false_iff] at inexact
    simp only [Acx.setRs_rs]
    rcases inexact with inexact | inexact
    · have := leak₁ inexact
      omega
    · have := leak₂ inexact
      omega
  | un _ _ _ ih => exact ih calls
  | @app p args rv acx acx₁ r code call ih =>
    intro plain
    simp only [AstExpr.plain, Bool.and_eq_true, Bool.not_eq_true'] at plain
    obtain ⟨r', same, took, leak⟩ := ih calls plain.2 plain.1
    refine ⟨r', same, took, ?_⟩
    intro inexact
    simp only [AstExpr.exact, plain.1, Bool.not_false, Bool.and_true] at inexact
    exact leak (by simpa using inexact)
  | magic callee magic _ _ =>
    intro _ other
    rw [← calls, isMagic_of_magic callee magic] at other
    cases other
  | @call p args pt type formals retty acx acx₁ results code callee magic func actuals ih =>
    intro plain _
    obtain ⟨grew, first, taken⟩ := ih calls plain
    have took := took_gimme acx₁.rs
    refine ⟨_, rfl, ⟨took.first, fun used => took.other (first used), ?_, ?_, ?_⟩, ?_⟩
    · have := took.taken
      simp only [Acx.setRs_rs]
      omega
    · have := took.beyond
      have := grew.beyond
      simp only [Acx.setRs_rs]
      omega
    · have := took.overflow
      have := grew.overflow
      simp only [Acx.setRs_rs]
      omega
    · intro some_
      have := List.length_pos_of_ne_nil some_
      have := took.taken
      simp only [Acx.setRs_rs]
      omega
  | noActuals => exact fun _ => ⟨Grew.refl _, id, by simp⟩
  | @actual e args ft formals acx acx₁ acx₂ et v same results code₁ code₂ value formal types rest ih₁
      ih₂ =>
    intro plain
    simp only [AstExpr.allPlain, Bool.and_eq_true] at plain
    obtain ⟨r, one, took, -⟩ := ih₁ calls plain.1
    obtain ⟨grew, first, taken⟩ := ih₂
      (fun p => (isMagic_congr value.scopes value.types p).trans (calls p)) plain.2
    refine ⟨took.grew.trans grew, fun _ => first took.first, ?_⟩
    have := took.taken
    simp only [List.length_cons]
    omega
  | wrote => exact fun _ => Grew.refl _
  | @write e args acx acx₁ acx₂ r f results code₁ code₂ value callit rest ih₁ ih₂ =>
    intro plain
    simp only [AstExpr.allPlain, Bool.and_eq_true] at plain
    obtain ⟨r', one, took, -⟩ := ih₁ calls plain.1
    obtain rfl := List.singleton_inj.mp one
    exact took.back.1.trans (ih₂
      (fun p => (isMagic_congr value.scopes value.types p).trans (calls p)) plain.2)
  | read_ => exact fun _ => Grew.refl _
  | @read newline e args acx acx₁ acx₂ r f results code₁ code₂ lvalue value callit rest ih₁ ih₂ =>
    intro plain
    simp only [AstExpr.allPlain, Bool.and_eq_true] at plain
    obtain ⟨r', one, took, -⟩ := ih₁ calls plain.1
    obtain rfl := List.singleton_inj.mp one
    exact took.back.1.trans (ih₂
      (fun p => (isMagic_congr value.scopes value.types p).trans (calls p)) plain.2)

/-! ## Statements -/

/-- What a plain statement does to the register set, by its last offence: nothing, a register
kept, the first register freed, freed and something kept after that, or a loop counter's
register kept. -/
inductive Kind where
  | exact | leaks | freed | freedLeaks | looped
  deriving DecidableEq

namespace Kind

def seq : Kind → Kind → Kind
  | looped, _ => looped
  | _, looped => looped
  | _, freed => freed
  | _, freedLeaks => freedLeaks
  | k, exact => k
  | exact, leaks | leaks, leaks => leaks
  | freed, leaks | freedLeaks, leaks => freedLeaks

def ofExpr (isExact : Bool) : Kind := if isExact then exact else leaks

def Holds (k : Kind) (rs rs' : RegisterSet) : Prop :=
  Grew rs rs' ∧
    match k with
    | exact => rs' = rs
    | leaks => rs.taken < rs'.taken
    | freed => rs'.regsUsed 0 = false
    | freedLeaks => ∃ m, Grew rs m ∧ m.taken < rs'.taken
    | looped => rs.takenBeyond < rs'.takenBeyond

theorem holds_exact (rs : RegisterSet) : exact.Holds rs rs := ⟨Grew.refl rs, rfl⟩

theorem Holds.seq {k₁ k₂ : Kind} {rs₁ rs₂ rs₃ : RegisterSet} (first : k₁.Holds rs₁ rs₂)
    (second : k₂.Holds rs₂ rs₃) : (k₁.seq k₂).Holds rs₁ rs₃ := by
  obtain ⟨grew₁, first⟩ := first
  obtain ⟨grew₂, second⟩ := second
  refine ⟨grew₁.trans grew₂, ?_⟩
  have beyond₁ := grew₁.beyond
  have beyond₂ := grew₂.beyond
  have freedLater : k₂ = freed ∨ k₂ = freedLeaks → match k₂ with
      | freed => rs₃.regsUsed 0 = false
      | freedLeaks => ∃ m, Grew rs₁ m ∧ m.taken < rs₃.taken
      | _ => True := by
    rintro (rfl | rfl)
    · exact second
    · obtain ⟨m, grew, less⟩ := second
      exact ⟨m, grew₁.trans grew, less⟩
  cases k₁ with
  | looped =>
    change rs₁.takenBeyond < rs₃.takenBeyond
    dsimp only at first
    omega
  | exact =>
    dsimp only at first
    subst first
    cases k₂ <;> exact second
  | leaks =>
    dsimp only at first
    cases k₂ with
    | looped => exact Int.lt_of_le_of_lt beyond₁ second
    | freed => exact second
    | freedLeaks => exact freedLater (.inr rfl)
    | exact => exact second ▸ first
    | leaks => exact Int.lt_trans first second
  | freed =>
    dsimp only at first
    cases k₂ with
    | looped => exact Int.lt_of_le_of_lt beyond₁ second
    | freed => exact second
    | freedLeaks => exact freedLater (.inr rfl)
    | exact => exact second ▸ first
    | leaks => exact ⟨rs₂, grew₁, second⟩
  | freedLeaks =>
    obtain ⟨m, grew, less⟩ := first
    cases k₂ with
    | looped => exact Int.lt_of_le_of_lt beyond₁ second
    | freed => exact second
    | freedLeaks => exact freedLater (.inr rfl)
    | exact => exact second ▸ ⟨m, grew, less⟩
    | leaks => exact ⟨m, grew, Int.lt_trans less second⟩

theorem seq_eq_exact {k₁ k₂ : Kind} : k₁.seq k₂ = exact ↔ k₁ = exact ∧ k₂ = exact := by
  cases k₁ <;> cases k₂ <;> decide

theorem ofExpr_eq_exact {b : Bool} : ofExpr b = exact ↔ b = true := by
  cases b <;> decide

theorem eq_exact_of_holds {k : Kind} {rs : RegisterSet} (held : rs.regsUsed 0 = true)
    (atStart : k.Holds regInit regInit) (atHeld : k.Holds rs rs) : k = exact := by
  cases k with
  | exact => rfl
  | leaks => exact absurd atStart.2 (Int.lt_irrefl _)
  | freed =>
    have free : rs.regsUsed 0 = false := atHeld.2
    rw [held] at free
    cases free
  | freedLeaks =>
    -- nothing is taken in the initial set, so nothing can have been taken since
    obtain ⟨m, grew, less⟩ := atStart.2
    have low := m.taken_ge
    have raised := grew.overflow
    have start : regInit.taken = regInit.overflow - 14 := by decide
    omega
  | looped => exact absurd atStart.2 (Int.lt_irrefl _)

end Kind

namespace AstStmt

mutual

def kind (magic : AstPath → Bool) : AstStmt → Kind
  | .null => .exact
  | .assign lvalue rvalue => .ofExpr (lvalue.exact magic && rvalue.exact magic)
  | .foor .. => .looped
  | .ite cond thenn elze =>
      ((Kind.ofExpr (cond.exact magic)).seq (thenn.kind magic)).seq (elze.kind magic)
  | .proc p args => if magic p then .freed else .ofExpr args.isEmpty
  | .stmts body => allKind magic body
  | .wdo cond body => (Kind.ofExpr (cond.exact magic)).seq (body.kind magic)

def allKind (magic : AstPath → Bool) : List AstStmt → Kind
  | [] => .exact
  | s :: body => (s.kind magic).seq (allKind magic body)

end

mutual

theorem kind_eq_exact (magic : AstPath → Bool) :
    ∀ s : AstStmt, s.kind magic = .exact ↔ s.exact magic = true
  | .null => by simp [kind, exact]
  | .assign lvalue rvalue => by simp [kind, exact, Kind.ofExpr_eq_exact]
  | .foor .. => by simp [kind, exact]
  | .ite cond thenn elze => by
      simp [kind, exact, Kind.seq_eq_exact, Kind.ofExpr_eq_exact, kind_eq_exact magic thenn,
        kind_eq_exact magic elze]
  | .proc p args => by
      cases here : magic p <;> simp [kind, exact, here, Kind.ofExpr_eq_exact]
  | .stmts body => by simp [kind, exact, allKind_eq_exact magic body]
  | .wdo cond body => by
      simp [kind, exact, Kind.seq_eq_exact, Kind.ofExpr_eq_exact, kind_eq_exact magic body]

theorem allKind_eq_exact (magic : AstPath → Bool) :
    ∀ body : List AstStmt, allKind magic body = .exact ↔ allExact magic body = true
  | [] => by simp [allKind, allExact]
  | s :: body => by
      simp [allKind, allExact, Kind.seq_eq_exact, kind_eq_exact magic s, allKind_eq_exact magic body]

end

end AstStmt

theorem Run.cond_kind {cond : AstExpr} {acx acx' : Acx} {r : Resu} {code : List Insn}
    {magic : AstPath → Bool} (test : Run (.expr cond true) acx [r] acx' code)
    (calls : ∀ p, isMagic acx.st p = magic p) (plain : cond.plain magic = true) :
    (Kind.ofExpr (cond.exact magic)).Holds acx.rs (acx'.rs.takeitback r.reg).1 := by
  obtain ⟨r', same, took, leak⟩ := test.measured calls plain
  obtain rfl := List.singleton_inj.mp same
  obtain ⟨grew, taken⟩ := took.back
  cases isExact : cond.exact magic with
  | true =>
    obtain ⟨t, one, rs⟩ := test.exact calls isExact
    obtain rfl := List.singleton_inj.mp one
    refine ⟨grew, ?_⟩
    change (acx'.rs.takeitback acx.rs.gimme.1).1 = acx.rs
    rw [rs, takeitback_gimme]
  | false =>
    refine ⟨grew, ?_⟩
    have := leak isExact
    change acx.rs.taken < (acx'.rs.takeitback r.reg).1.taken
    omega

def StmtNode.plain (node : StmtNode) (magic : AstPath → Bool) : Bool :=
  match node with
  | .stmt s => s.plain magic
  | .stmts body => AstStmt.allPlain magic body

def StmtNode.kind (node : StmtNode) (magic : AstPath → Bool) : Kind :=
  match node with
  | .stmt s => s.kind magic
  | .stmts body => AstStmt.allKind magic body

theorem StmtRun.kind {node : StmtNode} {acx acx' : Acx} {code : List Insn}
    (run : StmtRun node acx acx' code) {magic : AstPath → Bool}
    (calls : ∀ p, isMagic acx.st p = magic p) (plain : node.plain magic = true) :
    (node.kind magic).Holds acx.rs acx'.rs := by
  induction run with
  | null => exact Kind.holds_exact _
  | @assign lvalue rvalue acx acx₁ acx₂ acx₃ acx₄ acx₅ lty rty code₁ code₂ left target right same first
      second =>
    simp only [StmtNode.plain, AstStmt.plain, Bool.and_eq_true] at plain
    have calls₂ : ∀ p, isMagic acx₂.st p = magic p := fun p =>
      (isMagic_congr (left.scopes.trans target.scopes) (target.types.trans left.types) p).trans (calls p)
    have sameRs : acx₂.rs = acx₁.rs := by
      obtain ⟨b, rfl⟩ := target.assigned
      rfl
    obtain ⟨r₁, one, took₁, leak₁⟩ := left.measured calls plain.1
    obtain ⟨r₂, two, took₂, leak₂⟩ := right.measured calls₂ plain.2
    obtain rfl := List.singleton_inj.mp one
    obtain rfl := List.singleton_inj.mp two
    rw [sameRs] at took₂ leak₂
    have both := took₁.pair took₂
    obtain ⟨grew, taken⟩ := both.back
    subst first second
    simp only [StmtNode.kind, AstStmt.kind, Acx.setRs_rs, Acx.setRs_setRs]
    cases isExact : lvalue.exact magic && rvalue.exact magic with
    | true =>
      rw [Bool.and_eq_true] at isExact
      obtain ⟨t₁, one, rs₁⟩ := left.exact calls isExact.1
      obtain ⟨t₂, two, rs₂⟩ := right.exact calls₂ isExact.2
      obtain rfl := List.singleton_inj.mp one
      obtain rfl := List.singleton_inj.mp two
      refine ⟨grew, ?_⟩
      change ((acx₃.rs.takeitback acx₂.rs.gimme.1).1.takeitback acx.rs.gimme.1).1 = acx.rs
      rw [rs₂, takeitback_gimme, sameRs, rs₁, takeitback_gimme]
    | false =>
      refine ⟨grew, ?_⟩
      obtain ⟨-, taken₂⟩ := took₂.back
      have := took₁.taken
      have := took₂.taken
      change acx.rs.taken < _
      rcases (Bool.and_eq_false_iff).mp isExact with inexact | inexact
      · have := leak₁ inexact
        omega
      · have := leak₂ inexact
        omega
  | @foor id start finish body acx acx₁ acx₂ acx₃ acx₄ acx₅ acx₆ sty ety v lines st code₁ code₂ code₃
      first last startInteger finishInteger path integer loop back back' leave ih =>
    simp only [StmtNode.plain, AstStmt.plain, Bool.and_eq_true] at plain
    have calls₁ : ∀ p, isMagic acx₁.st p = magic p := fun p =>
      (isMagic_congr first.scopes first.types p).trans (calls p)
    have calls₂ : ∀ p, isMagic acx₂.st p = magic p := fun p =>
      (isMagic_congr last.scopes last.types p).trans (calls₁ p)
    obtain ⟨r₁, one, took₁, -⟩ := first.measured calls plain.1.1
    obtain ⟨r₂, two, took₂, -⟩ := last.measured calls₁ plain.1.2
    obtain rfl := List.singleton_inj.mp one
    obtain rfl := List.singleton_inj.mp two
    have took₃ := took_gimme acx₂.rs
    have grew := (ih (fun p => (isMagic_enter _ p).trans
      ((isMagic_congr path.scopes path.types p).trans (calls₂ p))) plain.2).1
    have body : Grew acx₂.rs.gimme.2.1 acx₄.rs := grew
    obtain ⟨-, beyond₁, overflow₁⟩ := takeitback_measures acx₄.rs ety.reg
    obtain ⟨-, beyond₂, overflow₂⟩ := takeitback_measures acx₅.rs sty.reg
    have rs₅ : acx₅.rs = (acx₄.rs.takeitback ety.reg).1 := by rw [back]; rfl
    have rs₆ : acx₆.rs = (acx₅.rs.takeitback sty.reg).1 := by rw [back']; rfl
    -- the counter's register is not the first one, which the start value has or found taken
    have counter : acx₂.rs.gimme.1.beyond = 1 := if_neg (took₃.other took₂.first)
    have := took₁.beyond
    have := took₂.beyond
    have := took₃.beyond
    have := body.beyond
    have := took₁.overflow
    have := took₂.overflow
    have := took₃.overflow
    have := body.overflow
    have := spilled_nonneg acx₂.rs.gimme.1
    rw [rs₅] at rs₆ beyond₂ overflow₂
    change Grew acx.rs acx₆.rs ∧ acx.rs.takenBeyond < acx₆.rs.takenBeyond
    rw [rs₆]
    exact ⟨⟨by omega, by omega⟩, by omega⟩
  | @ite cond thenn elze acx acx₁ acx₂ acx₃ cty code₁ code₂ code₃ test boolean yes no ih₁ ih₂ =>
    simp only [StmtNode.plain, AstStmt.plain, Bool.and_eq_true] at plain
    have calls₁ : ∀ p, isMagic acx₁.st p = magic p := fun p =>
      (isMagic_congr test.scopes test.types p).trans (calls p)
    have tested := test.cond_kind calls plain.1.1
    have calls₂ : ∀ p, isMagic acx₂.st p = magic p := fun p =>
      (isMagic_congr yes.scopes yes.types p).trans (calls₁ p)
    exact (tested.seq (ih₁ calls₁ plain.1.2)).seq (ih₂ calls₂ plain.2)
  | @proc p args acx acx₁ cty code call =>
    simp only [StmtNode.plain, AstStmt.plain] at plain
    simp only [StmtNode.kind, AstStmt.kind, Acx.setRs_rs]
    cases magical : magic p with
    | true =>
      cases call with
      | call callee none func actuals =>
        have other := calls p
        rw [isMagic_of_none callee none, magical] at other
        cases other
      | @magic _ _ pt which _ _ results _ callee some_ body =>
        have grew : Grew acx.rs acx₁.rs := by
          have measured := body.measured calls
          cases which <;> exact measured plain
        obtain ⟨-, beyond, overflow⟩ := takeitback_measures acx₁.rs magicResu.reg
        refine ⟨grew.trans ⟨?_, ?_⟩, ?_⟩
        · simpa [Reg.beyond, magicResu] using beyond
        · simpa [Reg.spilled, magicResu] using overflow
        · change (acx₁.rs.unmark 0).regsUsed 0 = false
          simp [unmark]
    | false =>
      obtain ⟨r, one, took, leak⟩ := call.measured calls plain magical
      obtain rfl := List.singleton_inj.mp one
      obtain ⟨grew, taken⟩ := took.back
      cases empty : args.isEmpty with
      | true =>
        obtain ⟨t, one, rs⟩ := call.exact calls ⟨by simpa using empty, magical⟩
        obtain rfl := List.singleton_inj.mp one
        refine ⟨grew, ?_⟩
        change (acx₁.rs.takeitback acx.rs.gimme.1).1 = acx.rs
        rw [rs, takeitback_gimme]
      | false =>
        refine ⟨grew, ?_⟩
        have := leak (by simpa using empty)
        change acx.rs.taken < (acx₁.rs.takeitback cty.reg).1.taken
        omega
  | stmts _ ih => exact ih calls plain
  | @wdo cond body acx acx₁ acx₂ cty code₁ code₂ test boolean loop ih =>
    simp only [StmtNode.plain, AstStmt.plain, Bool.and_eq_true] at plain
    have calls₁ : ∀ p, isMagic acx₁.st p = magic p := fun p =>
      (isMagic_congr test.scopes test.types p).trans (calls p)
    have tested : Kind.Holds _ acx.rs _ := test.cond_kind calls plain.1
    exact tested.seq (ih calls₁ plain.2)
  | nil => exact Kind.holds_exact _
  | cons first rest ih₁ ih₂ =>
    simp only [StmtNode.plain, AstStmt.allPlain, Bool.and_eq_true] at plain
    exact (ih₁ calls plain.1).seq (ih₂
      (fun p => (isMagic_congr first.scopes first.types p).trans (calls p)) plain.2)

/-! ## Acceptance does not depend on the register set -/

/-- Results that differ at most in their registers. -/
def Similar (r r' : Resu) : Prop := r'.type = r.type ∧ (r'.reg.name = .blank ↔ r.reg.name = .blank)

theorem similar_singleton {r : Resu} {results : List Resu}
    (same : List.Forall₂ Similar [r] results) : ∃ r', Similar r r' ∧ results = [r'] := by
  obtain ⟨r', _, similar, rest, rfl⟩ := List.forall₂_cons_left_iff.mp same
  obtain rfl := List.forall₂_nil_left_iff.mp rest
  exact ⟨r', similar, rfl⟩

theorem gimme_ne_blank (rs : RegisterSet) : rs.gimme.1.name ≠ .blank := by
  have regs : ∀ i, REGS i ≠ .blank := by decide
  unfold gimme
  cases rs.firstFree with
  | none => exact regs 1
  | some i => exact regs i

theorem gimme_ne_rsp (rs : RegisterSet) : rs.gimme.1.name ≠ .rsp := by
  unfold RegisterSet.gimme
  cases rs.firstFree with
  | none => exact (REGS_ne 1).1
  | some i => exact (REGS_ne i).1

theorem similar_gimme (t : Index) (rs rs' : RegisterSet) :
    Similar ⟨t, rs.gimme.1⟩ ⟨t, rs'.gimme.1⟩ :=
  ⟨rfl, by simp [gimme_ne_blank]⟩

theorem ihatex86_isOk (r : RegName) : (ihatex86 r.chars).isOk = decide (r ≠ .blank) := by
  cases r <;> decide

theorem binCode_similar {op : Token} {l r r' : RegName} {lines : List Insn}
    (print : binCode op l r = .ok lines) (l' : RegName) (same : r' = .blank ↔ r = .blank) :
    ∃ lines', binCode op l' r' = .ok lines' := by
  have byte : ∀ {x}, ihatex86 r.chars = .ok x → ∃ y, ihatex86 r'.chars = .ok y := by
    intro x found
    have ok := ihatex86_isOk r
    rw [found] at ok
    have nonblank : r' ≠ .blank := by
      rw [Ne, same]
      simpa [Except.isOk, Except.toBool] using ok
    have ok' := ihatex86_isOk r'
    cases found' : ihatex86 r'.chars with
    | error s => simp [found', Except.isOk, Except.toBool, nonblank] at ok'
    | ok y => exact ⟨y, rfl⟩
  cases op <;> simp only [binCode, except_bind_eq_ok, reduceCtorEq] at print ⊢
  all_goals first
    | exact ⟨_, rfl⟩
    | (obtain ⟨x, found, -⟩ := print
       obtain ⟨y, found'⟩ := byte found
       exact ⟨_, y, found', rfl⟩)

theorem PathRun.transport {p : AstPath} {rv : Bool} {acx acx' : Acx} {v : StabVar}
    {lines : RegName → List Insn} (path : PathRun p rv acx v acx' lines) (rs : RegisterSet) :
    PathRun p rv (acx.setRs rs) v (acx'.setRs rs) lines :=
  ⟨path.found, path.resolved, by rw [path.used, ← Acx.use_setRs]; rfl, path.path, path.simple,
    path.again⟩

theorem Run.transport {node : Node} {acx acx' : Acx} {results : List Resu} {code : List Insn}
    (run : Run node acx results acx' code) (rs : RegisterSet) :
    ∃ results' rs' code', Run node (acx.setRs rs) results' (acx'.setRs rs') code' ∧
      List.Forall₂ Similar results results' := by
  induction run generalizing rs with
  | lit => exact ⟨_, _, _, .lit, .cons (similar_gimme _ _ _) .nil⟩
  | path path =>
    have done := Run.path (path.transport rs)
    exact ⟨_, _, _, done, .cons (similar_gimme _ _ _) .nil⟩
  | @deref p rv acx acx₁ v lines t target path found pointer =>
    have done := @Run.deref p rv _ _ _ _ _ _ (path.transport rs) found pointer
    exact ⟨_, _, _, done, .cons (similar_gimme _ _ _) .nil⟩
  | idx path found array index integer ih =>
    obtain ⟨_, rs', _, index', same⟩ := ih rs.gimme.2.1
    obtain ⟨ety', similar, rfl⟩ := similar_singleton same
    exact ⟨_, rs', _, .idx (path.transport rs) found array index' (similar.1.trans integer),
      .cons ⟨rfl, similar.2⟩ .nil⟩
  | @bin op left right rv acx acx₁ acx₂ lty rty code₁ code₂ lines first second same print ih₁ ih₂ =>
    obtain ⟨_, rs₁, _, first', same₁⟩ := ih₁ rs
    obtain ⟨l', similar₁, rfl⟩ := similar_singleton same₁
    obtain ⟨_, rs₂, _, second', same₂⟩ := ih₂ rs₁
    obtain ⟨r', similar₂, rfl⟩ := similar_singleton same₂
    obtain ⟨lines', print'⟩ := binCode_similar print l'.reg.name similar₂.2
    have done := @Run.bin op left right rv _ _ _ _ _ _ _ _ first' second'
      (by rw [similar₁.1, similar₂.1, same]) print'
    exact ⟨_, _, _, done, .cons ⟨by simp only [similar₁.1], similar₁.2⟩ .nil⟩
  | un operand sign boolean ih =>
    obtain ⟨_, rs', _, operand', same⟩ := ih rs
    obtain ⟨ety', similar, rfl⟩ := similar_singleton same
    exact ⟨_, rs', _, .un operand' sign (similar.1.trans boolean), same⟩
  | app call ih =>
    obtain ⟨_, rs', _, call', same⟩ := ih rs
    obtain ⟨r', similar, rfl⟩ := similar_singleton same
    exact ⟨_, rs', _, .app call', same⟩
  | magic callee magic body ih =>
    obtain ⟨_, rs', _, body', -⟩ := ih rs
    exact ⟨_, rs', _, .magic callee magic body', .cons ⟨rfl, Iff.rfl⟩ .nil⟩
  | @call p args pt type formals retty acx acx₁ results code callee magic func actuals ih =>
    obtain ⟨_, rs', _, actuals', -⟩ := ih rs
    have callee' : calleeOf (acx.setRs rs).st p = some pt := callee
    have done := Run.call callee' magic func actuals'
    exact ⟨_, _, _, done, .cons (similar_gimme _ _ _) .nil⟩
  | noActuals => exact ⟨_, rs, _, .noActuals, .nil⟩
  | actual value formal types rest ih₁ ih₂ =>
    obtain ⟨_, rs₁, _, value', same₁⟩ := ih₁ rs
    obtain ⟨et', similar, rfl⟩ := similar_singleton same₁
    obtain ⟨_, rs₂, _, rest', same₂⟩ := ih₂ rs₁
    exact ⟨_, rs₂, _, .actual value' formal (by rw [similar.1]; exact types) rest',
      .cons similar same₂⟩
  | wrote => exact ⟨_, rs, _, .wrote, .nil⟩
  | @write e args acx acx₁ acx₂ r f results code₁ code₂ value callit rest ih₁ ih₂ =>
    obtain ⟨_, rs₁, _, value', same₁⟩ := ih₁ rs
    obtain ⟨r', similar, rfl⟩ := similar_singleton same₁
    obtain ⟨_, rs₂, _, rest', same₂⟩ := ih₂ (rs₁.takeitback r'.reg).1
    exact ⟨_, rs₂, _, .write value' (by rw [similar.1]; exact callit) rest', .cons similar same₂⟩
  | read_ => exact ⟨_, rs, _, .read_, .nil⟩
  | @read newline e args acx acx₁ acx₂ r f results code₁ code₂ lvalue value callit rest ih₁ ih₂ =>
    obtain ⟨_, rs₁, _, value', same₁⟩ := ih₁ rs
    obtain ⟨r', similar, rfl⟩ := similar_singleton same₁
    obtain ⟨_, rs₂, _, rest', same₂⟩ := ih₂ (rs₁.takeitback r'.reg).1
    exact ⟨_, rs₂, _, .read lvalue value' (by rw [similar.1]; exact callit) rest',
      .cons similar same₂⟩

theorem Run.transport_expr {e : AstExpr} {rv : Bool} {acx acx' : Acx} {r : Resu} {code : List Insn}
    (run : Run (.expr e rv) acx [r] acx' code) (rs : RegisterSet) :
    ∃ r' rs' code', Run (.expr e rv) (acx.setRs rs) [r'] (acx'.setRs rs') code' ∧ Similar r r' := by
  obtain ⟨_, rs', code', run', same⟩ := run.transport rs
  obtain ⟨r', similar, rfl⟩ := similar_singleton same
  exact ⟨r', rs', code', run', similar⟩

theorem StmtRun.transport {node : StmtNode} {acx acx' : Acx} {code : List Insn}
    (run : StmtRun node acx acx' code) (rs : RegisterSet) :
    ∃ rs' code', StmtRun node (acx.setRs rs) (acx'.setRs rs') code' := by
  induction run generalizing rs with
  | null => exact ⟨rs, _, .null⟩
  | assign left target right same first second =>
    subst first second
    obtain ⟨l', rs₁, _, left', similar₁⟩ := left.transport_expr rs
    have target' : TargetRun _ (Acx.setRs _ rs₁) (Acx.setRs _ rs₁) :=
      ⟨by obtain ⟨b, rfl⟩ := target.assigned; exact ⟨b, rfl⟩, target.again⟩
    obtain ⟨r', rs₂, _, right', similar₂⟩ := right.transport_expr rs₁
    exact ⟨_, _, .assign left' target' right' (by rw [similar₁.1, similar₂.1]; exact same) rfl rfl⟩
  | foor first last startInteger finishInteger path integer loop back back' leave ih =>
    subst back back'
    obtain ⟨sty', rs₁, _, first', similar₁⟩ := first.transport_expr rs
    obtain ⟨ety', rs₂, _, last', similar₂⟩ := last.transport_expr rs₁
    obtain ⟨rs₃, _, loop'⟩ := ih rs₂.gimme.2.1
    have done := StmtRun.foor first' last' (similar₁.1.trans startInteger)
      (similar₂.1.trans finishInteger) (path.transport rs₂) integer loop' rfl rfl leave
    exact ⟨_, _, done⟩
  | ite test boolean yes no ih₁ ih₂ =>
    obtain ⟨cty', rs₁, _, test', similar⟩ := test.transport_expr rs
    obtain ⟨rs₂, _, yes'⟩ := ih₁ (rs₁.takeitback cty'.reg).1
    obtain ⟨rs₃, _, no'⟩ := ih₂ rs₂
    exact ⟨_, _, .ite test' (similar.1.trans boolean) yes' no'⟩
  | proc call =>
    obtain ⟨_, rs', _, call', same⟩ := call.transport rs
    obtain ⟨cty', similar, rfl⟩ := similar_singleton same
    have done := StmtRun.proc call'
    exact ⟨_, _, done⟩
  | stmts _ ih =>
    obtain ⟨rs', _, run'⟩ := ih rs
    exact ⟨rs', _, .stmts run'⟩
  | wdo test boolean loop ih =>
    obtain ⟨cty', rs₁, _, test', similar⟩ := test.transport_expr rs
    obtain ⟨rs₂, _, loop'⟩ := ih (rs₁.takeitback cty'.reg).1
    exact ⟨_, _, .wdo test' (similar.1.trans boolean) loop'⟩
  | nil => exact ⟨rs, _, .nil⟩
  | cons _ _ ih₁ ih₂ =>
    obtain ⟨rs₁, _, first'⟩ := ih₁ rs
    obtain ⟨rs₂, _, rest'⟩ := ih₂ rs₁
    exact ⟨rs₂, _, .cons first' rest'⟩

/-! ## Exactness -/

/-- Analysing a statement keeps every register set, in this context. -/
def KeepsRegisters (s : AstStmt) (acx : Acx) : Prop :=
  ∀ (rs : RegisterSet) (acx' : Acx) (code : List Insn),
    analyzeStmt s (acx.setRs rs) = .ok ((), acx', code) → acx'.rs = rs

theorem AstExpr.plain_of_exact {magic : AstPath → Bool} :
    ∀ {e : AstExpr}, e.exact magic = true → e.plain magic = true
  | .app p args, isExact => by
      simp only [exact, Bool.and_eq_true, List.isEmpty_iff] at isExact
      obtain ⟨rfl, other⟩ := isExact
      simp [plain, allPlain, other]
  | .bin op left right, isExact => by
      simp only [exact, Bool.and_eq_true] at isExact
      simp [plain, plain_of_exact isExact.1, plain_of_exact isExact.2]
  | .deref target, isExact => by simpa [plain] using plain_of_exact (e := target) isExact
  | .idx _ _, isExact => by simp [exact] at isExact
  | .lit _, _ => rfl
  | .path _, _ => rfl
  | .un op operand, isExact => by simpa [plain] using plain_of_exact (e := operand) isExact
  | .addrof target, isExact => by simpa [plain] using plain_of_exact (e := target) isExact

namespace AstStmt

mutual

theorem plain_of_exact {magic : AstPath → Bool} :
    ∀ {s : AstStmt}, s.exact magic = true → s.plain magic = true
  | .null, _ => rfl
  | .assign lvalue rvalue, isExact => by
      simp only [exact, Bool.and_eq_true] at isExact
      simp [plain, AstExpr.plain_of_exact isExact.1, AstExpr.plain_of_exact isExact.2]
  | .foor .., isExact => by simp [exact] at isExact
  | .ite cond thenn elze, isExact => by
      simp only [exact, Bool.and_eq_true] at isExact
      simp [plain, AstExpr.plain_of_exact isExact.1.1, plain_of_exact isExact.1.2,
        plain_of_exact isExact.2]
  | .proc p args, isExact => by
      simp only [exact, Bool.and_eq_true, List.isEmpty_iff] at isExact
      obtain ⟨rfl, -⟩ := isExact
      rfl
  | .stmts body, isExact => by
      simp only [plain]
      exact allPlain_of_allExact isExact
  | .wdo cond body, isExact => by
      simp only [exact, Bool.and_eq_true] at isExact
      simp [plain, AstExpr.plain_of_exact isExact.1, plain_of_exact isExact.2]

theorem allPlain_of_allExact {magic : AstPath → Bool} :
    ∀ {body : List AstStmt}, allExact magic body = true → allPlain magic body = true
  | [], _ => rfl
  | s :: body, isExact => by
      simp only [allExact, Bool.and_eq_true] at isExact
      simp [allPlain, plain_of_exact isExact.1, allPlain_of_allExact isExact.2]

end

end AstStmt

theorem keepsRegisters_of_exact {s : AstStmt} {acx : Acx}
    (isExact : s.exact (isMagic acx.st) = true) : KeepsRegisters s acx := by
  intro rs acx' code accepted
  have calls : ∀ p, isMagic (acx.setRs rs).st p = isMagic acx.st p := fun _ => rfl
  have kind := (analyzeStmt_run s accepted).kind calls
    (AstStmt.plain_of_exact isExact)
  simp only [StmtNode.kind, (AstStmt.kind_eq_exact _ s).mpr isExact] at kind
  exact kind.2

/-- The set with the first register held, as by an enclosing loop. -/
def firstHeld : RegisterSet := regInit.mark 0

theorem exact_of_keepsRegisters {s : AstStmt} {acx acx' : Acx} {code : List Insn}
    (accepted : analyzeStmt s acx = .ok ((), acx', code))
    (plain : s.plain (isMagic acx.st) = true) (keeps : KeepsRegisters s acx) :
    s.exact (isMagic acx.st) = true := by
  have run := analyzeStmt_run s accepted
  have holds : ∀ rs, (s.kind (isMagic acx.st)).Holds rs rs := by
    intro rs
    obtain ⟨rs', code', again⟩ := run.transport rs
    have kept := keeps rs _ _ again.accepted
    have calls : ∀ p, isMagic (acx.setRs rs).st p = isMagic acx.st p := fun _ => rfl
    have kind := again.kind calls plain
    rw [Acx.setRs_rs] at kept
    rw [Acx.setRs_rs, Acx.setRs_rs, kept] at kind
    exact kind
  rw [← AstStmt.kind_eq_exact]
  exact Kind.eq_exact_of_holds (show firstHeld.regsUsed 0 = true by decide) (holds _) (holds _)

/-- A statement that is analysed keeps every register set if it has no counting loop, no array
element, no actual argument and no magic call; and where magic calls are statements of their own,
only then. -/
theorem analyzeStmt_keepsRegisters_iff (s : AstStmt) (acx acx' : Acx) (code : List Insn)
    (accepted : analyzeStmt s acx = .ok ((), acx', code)) :
    (s.exact (isMagic acx.st) = true → KeepsRegisters s acx) ∧
      (s.plain (isMagic acx.st) = true →
        (KeepsRegisters s acx ↔ s.exact (isMagic acx.st) = true)) :=
  ⟨keepsRegisters_of_exact,
    fun plain => ⟨exact_of_keepsRegisters accepted plain, keepsRegisters_of_exact⟩⟩

-- for i := 1 to 2 do, with an empty body, and a context in which i is an integer.
def emptyLoop : AstStmt := .foor "i" (.lit "1") (.lit "2") .null

def loopAcx : Acx := initialAcx.setSt (stabAddVarNoOffset stabNew "i" integerTypeIdx).2

theorem emptyLoop_accepted : ∃ acx' code, analyzeStmt emptyLoop loopAcx = .ok ((), acx', code) ∧
    acx'.rs.regsUsed 2 = true := by
  have accepted : (analyzeStmt emptyLoop loopAcx).toOption.map
      (fun r => r.2.1.rs.regsUsed 2) = some true := by decide +kernel
  cases result : analyzeStmt emptyLoop loopAcx with
  | error s => simp [result, Except.toOption] at accepted
  | ok r =>
    obtain ⟨u, acx', code⟩ := r
    exact ⟨acx', code, rfl, by simpa [result, Except.toOption] using accepted⟩

theorem emptyLoop_keepsRegisters_iff :
    KeepsRegisters emptyLoop loopAcx ↔ emptyLoop.exact (isMagic loopAcx.st) = true := by
  obtain ⟨acx', code, accepted, -⟩ := emptyLoop_accepted
  exact (analyzeStmt_keepsRegisters_iff emptyLoop loopAcx acx' code accepted).2 rfl

-- The register of the counter stays taken.
theorem not_forall_keepsRegisters : ¬ ∀ (s : AstStmt) (acx acx' : Acx) (code : List Insn),
    analyzeStmt s acx = .ok ((), acx', code) → acx'.rs = acx.rs := by
  intro claim
  obtain ⟨acx', code, accepted, used⟩ := emptyLoop_accepted
  rw [claim emptyLoop loopAcx acx' code accepted] at used
  cases used

end Dragon
