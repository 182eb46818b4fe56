import Dragon.Codegen.Arithmetic
import Dragon.Codegen.Lines
import Dragon.Machine.Execution
import Dragon.Source.Core
import Dragon.Symbol.Layout

/-! The code of the structured core: assignments, blocks, conditionals and loops.

Each statement is entered and left with all registers free, so its code only
touches the cells of its variables. A condition always ends in rbx and rcx,
which is why the byte register its comparison names exists.
-/

set_option autoImplicit false

namespace Dragon

open Analysis ByteMemory PartialStep StructuredCode

/-! ## Stores in frames -/

def cell (base : BitVec 64) (v : StabVar) : BitVec 64 := base + BitVec.ofInt 64 v.stackBaseOffset

/-- The integer variables of the innermost scope have cells of their own. -/
def CellsApart (st : Stab) : Prop :=
  ∀ base x y v w, LocalInteger st x v → LocalInteger st y w → x ≠ y →
    Apart (cell base v) (cell base w)

/-- The frame at the base holds the values of a store. -/
structure Stores (st : Stab) (base : BitVec 64) (σ : State) (s : Store) : Prop where
  rbp : σ.reg .rbp = base
  cells : ∀ x v, LocalInteger st x v → readWord σ.mem (cell base v) = s x

theorem Stores.congr {st : Stab} {base : BitVec 64} {σ τ : State} {s : Store}
    (stores : Stores st base σ s) (rbp : τ.reg .rbp = σ.reg .rbp)
    (mem : ∀ a, readWord τ.mem a = readWord σ.mem a) : Stores st base τ s :=
  ⟨rbp.trans stores.rbp, fun x v var => (mem _).trans (stores.cells x v var)⟩

theorem Arith.vars_local {st : Stab} {e : AstExpr} (arith : Arith st e) :
    ∀ x ∈ e.vars, ∃ v, LocalInteger st x v := by
  induction arith with
  | lit => nofun
  | @var x v var =>
    intro y member
    rw [List.mem_singleton.mp member]
    exact ⟨v, var⟩
  | bin _ _ _ ih₁ ih₂ =>
    intro x member
    rcases List.mem_append.mp member with member | member
    · exact ih₁ x member
    · exact ih₂ x member

theorem Stores.value {st : Stab} {base : BitVec 64} {σ : State} {s : Store}
    (stores : Stores st base σ s) {e : AstExpr} (arith : Arith st e) :
    e.value (valuesOf st σ) = e.value s := by
  apply AstExpr.value_congr
  intro x member
  obtain ⟨v, var⟩ := arith.vars_local x member
  rw [← stores.cells x v var, valuesOf, var.offsetOf_eq, State.frame, stores.rbp]
  rfl

/-! ## Expressions with registers to spare -/

theorem Arith.runs {st : Stab} {e : AstExpr} (arith : Arith st e) {t : StabType}
    (known : stabType st integerTypeIdx = some t) (acx : Acx) (same : acx.st = st)
    (enough : e.need ≤ acx.rs.freeList.length) :
    ∃ code, Run (.expr e true) acx [⟨integerTypeIdx, acx.rs.gimme.1⟩] (acx.setRs acx.rs.gimme.2.1)
        code ∧
      ∀ (env : Env) (σ : State), ∃ τ, runBlock env code σ = some τ ∧
        τ.reg acx.rs.gimme.1.name = e.value (valuesOf st σ) ∧
        (∀ r, r ∉ acx.rs.freeList.map REGS → τ.reg r = σ.reg r) ∧
        ∀ a, readWord τ.mem a = readWord σ.mem a := by
  obtain ⟨code, run, exec⟩ := arith.computes known acx same
  obtain ⟨whole, noSpill⟩ := e.kept_of_need enough
  refine ⟨code, run, ?_⟩
  intro env σ
  obtain ⟨τ, ran, leaves⟩ := exec env σ (room_of_no_spills noSpill)
  have positive := e.need_pos
  have nonempty : acx.rs.freeList ≠ [] := by
    intro empty
    rw [empty, List.length_nil] at enough
    omega
  rw [whole, noSpill] at leaves
  refine ⟨τ, ran, ?_, ?_, ?_⟩
  · rw [target_gimme]
    exact leaves.value
  · intro r outside
    exact leaves.others r outside fun empty => absurd empty nonempty
  · intro a
    exact leaves.mem a fun k less => absurd less (Nat.not_lt_zero k)

/-! ## Conditions -/

theorem relopCond_holds {op : Token} (relop : isRelop op = true) (a b : BitVec 64) :
    (relopCond op).holds ⟨decide (a = b), a.slt b⟩ = op.compare a b := by
  have order : a = b ↔ a.toInt = b.toInt := ⟨congrArg _, BitVec.eq_of_toInt_eq⟩
  cases op with
  | eq => rfl
  | neq => rfl
  | lt => rfl
  | gt =>
    simp only [relopCond, Cond.holds, Token.compare, BitVec.slt, order]
    grind
  | le =>
    simp only [relopCond, Cond.holds, Token.compare, BitVec.slt, BitVec.sle, order]
    grind
  | ge =>
    simp only [relopCond, Cond.holds, Token.compare, BitVec.slt, BitVec.sle]
    grind
  | _ => cases relop

theorem setByte_movzx (x : BitVec 64) (b : Bool) :
    ((x.extractLsb' 8 56 ++ BitVec.ofNat 8 b.toNat : BitVec 64).setWidth 8).setWidth 64 =
      BitVec.ofNat 64 b.toNat := by
  have low := @BitVec.setWidth_append_eq_right 56 8 (x.extractLsb' 8 56) (BitVec.ofNat 8 b.toNat)
  calc
    _ = (BitVec.ofNat 8 b.toNat).setWidth 64 := congrArg (BitVec.setWidth 64) low
    _ = BitVec.ofNat 64 b.toNat := by cases b <;> rfl

/-- The lines of a comparison and of the test of its result. -/
def compareLines (op : Token) : List Insn :=
  [.alu .cmp .rbx .rcx, .set (relopCond op) ['c', 'l'], .movzx .rbx ['c', 'l'], .cmpImm .rbx 1]

theorem runBlock_compareLines (env : Env) {op : Token} (relop : isRelop op = true) (σ : State) :
    ∃ τ f, runBlock env (compareLines op) σ = some τ ∧ τ.flags = some f ∧
      f.zf = op.compare (σ.reg .rbx) (σ.reg .rcx) ∧ τ.mem = σ.mem ∧ τ.reg .rbp = σ.reg .rbp := by
  have flag := relopCond_holds relop (σ.reg .rbx) (σ.reg .rcx)
  let b := op.compare (σ.reg .rbx) (σ.reg .rcx)
  let σ₁ := σ.alu .cmp .rbx (σ.reg .rcx)
  let σ₂ := σ₁.setReg .rcx ((σ₁.reg .rcx).extractLsb' 8 56 ++ BitVec.ofNat 8 b.toNat)
  let σ₃ := σ₂.setReg .rbx (BitVec.ofNat 64 b.toNat)
  have one : exec env (.alu .cmp .rbx .rcx) σ = some σ₁ := rfl
  have two : exec env (.set (relopCond op) ['c', 'l']) σ₁ = some σ₂ := by
    have flags : σ₁.flags = some ⟨decide (σ.reg .rbx = σ.reg .rcx), (σ.reg .rbx).slt (σ.reg .rcx)⟩ :=
      rfl
    simp only [exec, Insn.operands, List.not_mem_nil, if_false, execNamed, flags]
    simp only [Option.bind_eq_bind, Option.bind_some, flag]
    rfl
  have three : exec env (.movzx .rbx ['c', 'l']) σ₂ = some σ₃ := by
    have byte := setByte_movzx (σ₁.reg .rcx) b
    exact congrArg (fun v => some (σ₂.setReg .rbx v)) byte
  have four : exec env (.cmpImm .rbx 1) σ₃ = some (σ₃.alu .cmp .rbx 1) := rfl
  refine ⟨σ₃.alu .cmp .rbx 1, ⟨decide (σ₃.reg .rbx = 1), (σ₃.reg .rbx).slt 1⟩,
    runBlock_cons_some one (runBlock_cons_some two (runBlock_cons_some three (runBlock_one four))),
    rfl, ?_, rfl, rfl⟩
  have isOne : ∀ c : Bool, decide (BitVec.ofNat 64 c.toNat = 1) = c := by decide
  exact isOne b

/-- A relational operator on two arithmetic expressions that fit the registers. -/
inductive CoreCond (st : Stab) : AstExpr → Prop where
  | compare {op : Token} {left right : AstExpr} (relop : isRelop op = true) (first : Arith st left)
      (second : Arith st right) (enough : (AstExpr.bin op left right).need ≤ 14) :
      CoreCond st (.bin op left right)

def oneTaken : RegisterSet := regInit.mark 0

theorem gimme_regInit : regInit.gimme = (⟨.rbx, 0, false⟩, oneTaken, []) := rfl

theorem gimme_oneTaken : oneTaken.gimme = (⟨.rcx, 1, false⟩, oneTaken.mark 1, []) := rfl

theorem freeList_oneTaken : oneTaken.freeList = (List.finRange 14).tail := by decide

theorem takeitback_oneTaken :
    (oneTaken.takeitback ⟨.rbx, 0, false⟩).1 = regInit ∧
      (oneTaken.takeitback ⟨.rbx, 0, false⟩).2 = [] :=
  ⟨RegisterSet.takeitback_gimme regInit, rfl⟩

theorem CoreCond.runs {st : Stab} {cond : AstExpr} (core : CoreCond st cond) {t : StabType}
    (known : stabType st integerTypeIdx = some t) (acx : Acx) (same : acx.st = st)
    (start : acx.rs = regInit) :
    ∃ code, Run (.expr cond true) acx [⟨booleanTypeIdx, ⟨.rbx, 0, false⟩⟩] (acx.setRs oneTaken) code ∧
      ∀ (env : Env) (base : BitVec 64) (σ : State) (s : Store), Stores st base σ s →
        ∃ τ f, runBlock env (code ++ [.cmpImm .rbx 1]) σ = some τ ∧ Stores st base τ s ∧
          τ.flags = some f ∧ f.zf = cond.holds s := by
  -- the code of a condition sets the flags that the jump after it tests
  cases core with
  | @compare op left right relop first second enough =>
    rw [AstExpr.need] at enough
    obtain ⟨code₁, run₁, exec₁⟩ := first.runs known acx same (by
      rw [start]
      exact Nat.le_trans (Nat.le_max_left _ _) enough)
    rw [start, gimme_regInit] at run₁ exec₁
    obtain ⟨code₂, run₂, exec₂⟩ := second.runs known (acx.setRs oneTaken) same (by
      rw [Acx.setRs_rs, freeList_oneTaken]
      exact Nat.le_of_lt_succ (by
        have := Nat.le_trans (Nat.le_max_right left.need (1 + right.need)) enough
        simp only [List.length_tail, List.length_finRange]
        omega))
    rw [Acx.setRs_rs, gimme_oneTaken] at run₂ exec₂
    have print : binCode op .rbx .rcx = .ok [.alu .cmp .rbx .rcx, .set (relopCond op) ['c', 'l'],
        .movzx .rbx ['c', 'l']] := by
      cases op <;> first | rfl | cases relop
    have back := RegisterSet.takeitback_gimme oneTaken
    rw [gimme_oneTaken] at back
    have run := @Run.bin op left right true _ _ _ _ _ _ _ _ run₁ run₂ rfl print
    simp only [relop, if_true, Acx.setRs_rs, Acx.setRs_setRs, back] at run
    refine ⟨_, run, ?_⟩
    intro env base σ s stores
    obtain ⟨τ₁, ran₁, value₁, others₁, mem₁⟩ := exec₁ env σ
    obtain ⟨τ₂, ran₂, value₂, others₂, mem₂⟩ := exec₂ env τ₁
    have rbp₁ := others₁ .rbp (not_mem_REGS (fun i => (REGS_ne i).2.1) _)
    have rbp₂ := others₂ .rbp (not_mem_REGS (fun i => (REGS_ne i).2.1) _)
    have stores₁ := stores.congr rbp₁ mem₁
    have stores₂ := stores₁.congr rbp₂ mem₂
    obtain ⟨τ, f, ran, flags, zf, mem, rbp⟩ := runBlock_compareLines env relop τ₂
    have rbx : τ₂.reg .rbx = τ₁.reg .rbx := by
      apply others₂
      rw [freeList_oneTaken]
      decide
    refine ⟨τ, f, ?_, stores₂.congr rbp (fun a => by rw [mem]), flags, ?_⟩
    · simp only [List.append_assoc]
      exact runBlock_append_some ran₁ (runBlock_append_some ran₂ ran)
    · rw [zf, rbx, value₁, value₂, stores.value first, stores₁.value second]
      rfl

/-! ## Assignments -/

/-- Where the analysis of the main program is before each statement of the core. -/
structure AtTop (st : Stab) (acx : Acx) : Prop where
  table : acx.st = st
  start : acx.rs = regInit
  top : acx.toplevel = true

theorem targetRun_top {acx : Acx} (top : acx.toplevel = true) (e : AstExpr) : TargetRun e acx acx := by
  refine ⟨⟨acx.retAssigned, rfl⟩, ?_⟩
  intro rs
  have still : (acx.setRs rs).toplevel = true := top
  simp only [checkAssignability, get_bind_eq_ok, still, if_true, pure_eq_ok, and_self]

theorem LocalInteger.unique {st : Stab} {x : Name} {v w : StabVar} (one : LocalInteger st x v)
    (two : LocalInteger st x w) : w = v :=
  Option.some.inj (two.found.symm.trans one.found)

theorem Stores.write {st : Stab} {base : BitVec 64} {σ : State} {s : Store} {x : Name} {v : StabVar}
    (stores : Stores st base σ s) (apart : CellsApart st) (var : LocalInteger st x v)
    (w : BitVec 64) :
    Stores st base (σ.setMem (writeWord σ.mem (cell base v) w)) (s.assign x w) := by
  refine ⟨stores.rbp, ?_⟩
  intro y u other
  by_cases same : y = x
  · subst same
    rw [var.unique other, State.setMem_mem, readWord_writeWord, Store.assign, if_pos rfl]
  · rw [State.setMem_mem, readWord_writeWord_apart _ _ (apart base y x u v other var same),
      Store.assign, if_neg same]
    exact stores.cells y u other

theorem assign_runs {st : Stab} (known : stabType st integerTypeIdx = some ⟨.integer, 8, none⟩)
    (apart : CellsApart st) {x : Name} {v : StabVar} {e : AstExpr} (var : LocalInteger st x v)
    (arith : Arith st e) (enough : e.need ≤ 13) {acx : Acx} (here : AtTop st acx) :
    ∃ code, StmtRun (.stmt (.assign (.path (astPath x)) e)) acx acx code ∧ labelsOf code = [] ∧
      ∀ (env : Env) (base : BitVec 64) (σ : State) (s : Store), Stores st base σ s →
        ∃ τ, runBlock env code σ = some τ ∧ Stores st base τ (assignTo (x, e) s) := by
  obtain ⟨table, start, top⟩ := here
  have path := @LocalInteger.pathRun acx x v _ (table ▸ var) (table ▸ known) false
  have left := Run.path path
  rw [start, gimme_regInit, var.integer] at left
  obtain ⟨code₂, right, exec₂⟩ := arith.runs known (acx.setRs oneTaken) table (by
    rw [Acx.setRs_rs, freeList_oneTaken]
    exact enough)
  rw [Acx.setRs_rs, gimme_oneTaken] at right exec₂
  have types : stabTypesEq acx.st integerTypeIdx integerTypeIdx = .ok true := by
    rw [table, stabTypesEq, stabTypesEqFuel, known]
  have back := RegisterSet.takeitback_gimme oneTaken
  rw [gimme_oneTaken] at back
  have whole : acx = (acx.setRs oneTaken).setRs
      (oneTaken.takeitback ⟨.rbx, 0, false⟩).1 := by
    rw [takeitback_oneTaken.1, Acx.setRs_setRs, ← start, Acx.setRs_self]
  refine ⟨_, .assign left (targetRun_top (show (acx.setRs oneTaken).toplevel = true from top) _) right types
    (show acx.setRs oneTaken = _ by rw [Acx.setRs_setRs, Acx.setRs_setRs, Acx.setRs_rs, back])
    whole, ?_, ?_⟩
  · rw [labelsOf_append _ (code₂ ++ _), labelsOf_append code₂, labelsOf_plain (left.plain trivial),
      labelsOf_plain (right.plain trivial)]
    rfl
  intro env base σ s stores
  let σ₁ := σ.setReg .rbx (σ.frame v.stackBaseOffset)
  obtain ⟨τ, ran, value, others, mem⟩ := exec₂ env σ₁
  have stores₁ : Stores st base σ₁ s := stores.congr rfl fun _ => rfl
  have stores₂ := stores₁.congr (others .rbp (not_mem_REGS (fun i => (REGS_ne i).2.1) _)) mem
  have rbx : τ.reg .rbx = cell base v := by
    rw [others .rbx (by rw [freeList_oneTaken]; decide), ← stores.rbp]
    rfl
  rw [stores₁.value arith] at value
  refine ⟨τ.setMem (writeWord τ.mem (cell base v) (e.value s)), ?_, ?_⟩
  · have lea : exec env (.lea .rbx v.stackBaseOffset) σ = some σ₁ := rfl
    have store : exec env (.store .rbx .rcx) τ =
        some (τ.setMem (writeWord τ.mem (cell base v) (e.value s))) := by
      rw [← rbx, ← value]
      rfl
    exact runBlock_append_some (runBlock_one lea) (runBlock_append_some ran (runBlock_one store))
  · exact stores₂.write apart var (e.value s)

/-! ## Labels of statements -/

/-- The labels of some lines are local ones, not repeated, with numbers of a kind. -/
structure LabelsIn (P : Nat → Prop) (code : List Insn) : Prop where
  nodup : (labelsOf code).Nodup
  range : ∀ l ∈ labelsOf code, ∃ k, l = .loc k ∧ P k

namespace LabelsIn

variable {P Q : Nat → Prop}

theorem none_ {code : List Insn} (empty : labelsOf code = []) : LabelsIn P code := by
  constructor
  · rw [empty]
    exact List.nodup_nil
  · rw [empty]
    nofun

theorem one (k : Nat) (holds : P k) : LabelsIn P [.label (.loc k)] := by
  constructor
  · exact List.nodup_singleton _
  · intro l member
    exact ⟨k, List.mem_singleton.mp member, holds⟩

theorem append {R : Nat → Prop} {first second : List Insn} (one : LabelsIn P first)
    (two : LabelsIn Q second) (differ : ∀ k, P k → Q k → False) (left : ∀ k, P k → R k)
    (right : ∀ k, Q k → R k) : LabelsIn R (first ++ second) := by
  constructor
  · rw [labelsOf_append, List.nodup_append]
    refine ⟨one.nodup, two.nodup, ?_⟩
    rintro l member l' member' rfl
    obtain ⟨k, same, holds⟩ := one.range l member
    obtain ⟨j, same', holds'⟩ := two.range l member'
    have equal : k = j := by
      rw [same] at same'
      exact Label.loc.inj same'
    exact differ k holds (equal ▸ holds')
  · intro l member
    rw [labelsOf_append, List.mem_append] at member
    rcases member with member | member
    · obtain ⟨k, same, holds⟩ := one.range l member
      exact ⟨k, same, left k holds⟩
    · obtain ⟨k, same, holds⟩ := two.range l member
      exact ⟨k, same, right k holds⟩

end LabelsIn

/-! ## Moves of the machine -/

/-- From a position on, jumps to local labels go to the one line that has the label. -/
def Jumps (whole : List Insn) (low : Nat) : Prop :=
  ∀ p q k, low ≤ p → low ≤ q → whole[q]? = some (.label (.loc k)) →
    resolveLabel whole p (.loc k) = some q

section

variable {env : Env} {whole : List Insn} {exit : Nat} {rep : State → Store → Prop}

theorem moves_block {code : List Insn} {p : Nat} {effect : Store → Store}
    (runs : ∀ σ s, rep σ s → ∃ τ, runBlock env code σ = some τ ∧ rep τ (effect s))
    (located : Located whole p code) (inside : p + code.length ≤ exit) :
    Moves (step env whole) rep exit p (p + code.length) effect := by
  intro σ s here
  obtain ⟨τ, ran, there⟩ := runs σ s here
  exact ⟨_, τ, located.leads ran inside, there⟩

theorem moves_jmp {p q : Nat} {l : Label} (line : whole[p]? = some (.jmp l))
    (label : resolveLabel whole p l = some q) (inside : p < exit) :
    Moves (step env whole) rep exit p q id := by
  intro σ s here
  exact ⟨1, σ, .one inside (step_jmp line label), here⟩

theorem moves_label {p : Nat} {l : Label} (line : whole[p]? = some (.label l)) (inside : p < exit) :
    Moves (step env whole) rep exit p (p + 1) id := by
  intro σ s here
  have next : exec env (.label l) σ = some σ := rfl
  exact ⟨1, σ, .one inside (step_of_exec line next), here⟩

theorem tests_cond {cond : AstExpr} {code : List Insn} {p q : Nat} {l : Label}
    (runs : ∀ σ s, rep σ s → ∃ τ f, runBlock env (code ++ [.cmpImm .rbx 1]) σ = some τ ∧ rep τ s ∧
      τ.flags = some f ∧ f.zf = cond.holds s)
    (located : Located whole p (code ++ [.cmpImm .rbx 1, .jcc .ne l]))
    (inside : p + code.length + 1 < exit) (label : resolveLabel whole (p + code.length + 1) l = some q)
    (line : whole[q]? = some (.label l)) (inside' : q < exit) :
    Tests (fun t : AstExpr => t.holds) (step env whole) rep exit cond p (p + code.length + 2)
      (q + 1) := by
  intro σ s here
  obtain ⟨τ, f, ran, there, flags, zf⟩ := runs σ s here
  have split : code ++ [.cmpImm .rbx 1, .jcc .ne l] = (code ++ [.cmpImm .rbx 1]) ++ [.jcc .ne l] := by
    rw [List.append_assoc]
    rfl
  rw [split] at located
  have size : (code ++ [Insn.cmpImm .rbx 1]).length = code.length + 1 := List.length_append
  have leads := located.left.leads ran
    (show p + (code ++ [Insn.cmpImm .rbx 1]).length ≤ exit by rw [size]; omega)
  have jump := located.right.head
  rw [size, ← Nat.add_assoc] at leads jump
  have next := @step_jcc env _ _ _ _ _ _ _ jump label flags
  have tested := leads.trans (.one inside next)
  rw [Cond.holds, zf] at tested
  cases holds : cond.holds s with
  | true =>
    rw [holds] at tested
    simp only [holds, if_true]
    exact ⟨_, τ, tested, there⟩
  | false =>
    rw [holds] at tested
    have pass : exec env (.label l) τ = some τ := rfl
    have passed : Leads (step env whole) (Inside exit) 1 (q, τ) (q + 1, τ) :=
      .one inside' (step_of_exec line pass)
    simp only [holds, Bool.false_eq_true, if_false]
    exact ⟨_, τ, tested.trans passed, there⟩

end

/-! ## Statements -/

/-- The statements of the core over the integer variables of the innermost scope. -/
inductive InCore (st : Stab) : AstStmt → Prop where
  | null : InCore st .null
  | assign {x : Name} {v : StabVar} {e : AstExpr} (var : LocalInteger st x v) (arith : Arith st e)
      (enough : e.need ≤ 13) : InCore st (.assign (.path (astPath x)) e)
  | ite {cond : AstExpr} {thenn elze : AstStmt} (test : CoreCond st cond) (yes : InCore st thenn)
      (no : InCore st elze) : InCore st (.ite cond thenn elze)
  | stmts {body : List AstStmt} (all : ∀ s ∈ body, InCore st s) : InCore st (.stmts body)
  | wdo {cond : AstExpr} {body : AstStmt} (test : CoreCond st cond) (loop : InCore st body) :
      InCore st (.wdo cond body)

def Acx.atLabel (acx : Acx) (n : Nat) : Acx := { acx with label := n }

/-- The code does what a structured program says, wherever it is placed. -/
def RunsAs (st : Stab) (prog : Prog (Name × AstExpr) AstExpr) (code : List Insn) : Prop :=
  ∀ (env : Env) (whole : List Insn) (p exit low : Nat) (base : BitVec 64), Located whole p code →
    p + code.length ≤ exit → low ≤ p → Jumps whole low →
    Placed assignTo (fun t => t.holds) (step env whole) (Stores st base) exit prog p (p + code.length)

/-- What is known of the code of a statement: it uses the labels from a to n. -/
structure Emitted (st : Stab) (prog : Prog (Name × AstExpr) AstExpr) (a n : Nat)
    (code : List Insn) : Prop where
  le : a ≤ n
  labels : LabelsIn (fun k => a ≤ k ∧ k < n) code
  runs : RunsAs st prog code

namespace Emitted

variable {st : Stab} {a m n : Nat}

theorem skip : Emitted st .skip a a [] := by
  refine ⟨Nat.le_refl a, .none_ rfl, ?_⟩
  intro env whole p exit low base _ _ _ _
  exact .skip

theorem act {c : Name × AstExpr} {code : List Insn} (plain : labelsOf code = [])
    (runs : ∀ (env : Env) (base : BitVec 64) (σ : State) (s : Store), Stores st base σ s →
      ∃ τ, runBlock env code σ = some τ ∧ Stores st base τ (assignTo c s)) :
    Emitted st (.act c) a a code := by
  refine ⟨Nat.le_refl a, .none_ plain, ?_⟩
  intro env whole p exit low base located inside _ _
  exact .act (moves_block (fun σ s => runs env base σ s) located inside)

theorem seq {first second : Prog (Name × AstExpr) AstExpr} {code₁ code₂ : List Insn}
    (one : Emitted st first a m code₁) (two : Emitted st second m n code₂) :
    Emitted st (.seq first second) a n (code₁ ++ code₂) := by
  have le₁ := one.le
  have le₂ := two.le
  refine ⟨Nat.le_trans le₁ le₂, ?_, ?_⟩
  · exact one.labels.append two.labels (by omega) (by omega) (by omega)
  · intro env whole p exit low base located inside above jumps
    rw [List.length_append] at inside ⊢
    have first := one.runs env whole p exit low base located.left (by omega) above jumps
    have second := two.runs env whole _ exit low base located.right (by omega) (by omega) jumps
    rw [Nat.add_assoc] at second
    exact .seq first second

/-- What is known of the code of a condition. -/
def CondRuns (st : Stab) (cond : AstExpr) (code : List Insn) : Prop :=
  ∀ (env : Env) (base : BitVec 64) (σ : State) (s : Store), Stores st base σ s →
    ∃ τ f, runBlock env (code ++ [.cmpImm .rbx 1]) σ = some τ ∧ Stores st base τ s ∧
      τ.flags = some f ∧ f.zf = cond.holds s

theorem ite {cond : AstExpr} {yes no : Prog (Name × AstExpr) AstExpr}
    {code₁ code₂ code₃ : List Insn} (plain : labelsOf code₁ = []) (test : CondRuns st cond code₁)
    (one : Emitted st yes (a + 2) m code₂) (two : Emitted st no m n code₃) :
    Emitted st (.ite cond yes no) a n
      (code₁ ++ ([.cmpImm .rbx 1, .jcc .ne (.loc a)] ++ (code₂ ++
        ([.jmp (.loc (a + 1)), .label (.loc a)] ++ (code₃ ++ [.label (.loc (a + 1))]))))) := by
  have le₁ := one.le
  have le₂ := two.le
  refine ⟨by omega, ?_, ?_⟩
  · have skip : LabelsIn (fun k => k = a) [.jmp (.loc (a + 1)), .label (.loc a)] :=
      ⟨List.nodup_singleton _, fun l member => ⟨a, List.mem_singleton.mp member, rfl⟩⟩
    have join : LabelsIn (fun k => k = a + 1) [.label (.loc (a + 1))] := .one (a + 1) rfl
    have test : LabelsIn (fun _ => False) (code₁ ++ [.cmpImm .rbx 1, .jcc .ne (.loc a)]) :=
      .none_ (by rw [labelsOf_append, plain]; rfl)
    have last : LabelsIn (fun k => k = a + 1 ∨ m ≤ k ∧ k < n) (code₃ ++ [.label (.loc (a + 1))]) :=
      two.labels.append join (by omega) (by omega) (by omega)
    have tail : LabelsIn (fun k => k = a ∨ k = a + 1 ∨ m ≤ k ∧ k < n) _ :=
      skip.append last (by omega) (by omega) (by omega)
    have rest : LabelsIn (fun k => a ≤ k ∧ k < n) _ :=
      one.labels.append tail (by omega) (by omega) (by omega)
    have all : LabelsIn (fun k => a ≤ k ∧ k < n) _ :=
      test.append rest (fun _ none_ _ => none_) (fun _ none_ => none_.elim) (fun _ here => here)
    rw [List.append_assoc] at all
    exact all
  · intro env whole p exit low base located inside above jumps
    simp only [List.length_append, List.length_cons, List.length_nil] at inside
    have test_ : Located whole p (code₁ ++ [.cmpImm .rbx 1, .jcc .ne (.loc a)]) := by
      rw [← List.append_assoc] at located
      exact located.left
    have yes_ : Located whole (p + code₁.length + 2) _ := located.right.right
    have skip_ : Located whole (p + code₁.length + 2 + code₂.length) _ := yes_.right
    have no_ : Located whole (p + code₁.length + 2 + code₂.length + 2) _ := skip_.right
    have join_ : Located whole (p + code₁.length + 2 + code₂.length + 2 + code₃.length) _ :=
      no_.right
    have label₀ := skip_.tail.head
    have label₁ := join_.head
    have jump₀ := jumps (p + code₁.length + 1) _ a (by omega) (by omega) label₀
    have jump₁ := jumps (p + code₁.length + 2 + code₂.length) _ (a + 1) (by omega) (by omega) label₁
    have tests : Tests (fun t : AstExpr => t.holds) (step env whole) (Stores st base) exit cond _ _ _ :=
      tests_cond (fun σ s => test env base σ s) test_ (by omega) jump₀ label₀ (by omega)
    have first := one.runs env whole _ exit low base yes_.left (by omega) (by omega) jumps
    have second := two.runs env whole _ exit low base no_.left (by omega) (by omega) jumps
    have join : Moves (step env whole) (Stores st base) exit _ _ id :=
      moves_label label₁ (by omega)
    have skip : Moves (step env whole) (Stores st base) exit _ _ id :=
      moves_jmp skip_.head jump₁ (by omega)
    have placed := Placed.ite tests first (Moves.andThen skip join) second join
    convert placed using 1
    simp only [List.length_append, List.length_cons, List.length_nil]
    omega

theorem wdo {cond : AstExpr} {body : Prog (Name × AstExpr) AstExpr} {code₁ code₂ : List Insn}
    (plain : labelsOf code₁ = []) (test : CondRuns st cond code₁)
    (loop : Emitted st body (a + 2) n code₂) :
    Emitted st (.loop cond body) a n
      ([.label (.loc a)] ++ (code₁ ++ ([.cmpImm .rbx 1, .jcc .ne (.loc (a + 1))] ++ (code₂ ++
        [.jmp (.loc a), .label (.loc (a + 1))])))) := by
  have le := loop.le
  refine ⟨by omega, ?_, ?_⟩
  · have start : LabelsIn (fun k => k = a) [.label (.loc a)] := .one a rfl
    have last : LabelsIn (fun k => k = a + 1) [.jmp (.loc a), .label (.loc (a + 1))] :=
      ⟨List.nodup_singleton _, fun l member => ⟨a + 1, List.mem_singleton.mp member, rfl⟩⟩
    have test : LabelsIn (fun _ => False) (code₁ ++ [.cmpImm .rbx 1, .jcc .ne (.loc (a + 1))]) :=
      .none_ (by rw [labelsOf_append, plain]; rfl)
    have tail : LabelsIn (fun k => k = a + 1 ∨ a + 2 ≤ k ∧ k < n) _ :=
      loop.labels.append last (by omega) (by omega) (by omega)
    have rest : LabelsIn (fun k => k = a + 1 ∨ a + 2 ≤ k ∧ k < n) _ :=
      test.append tail (fun _ none_ _ => none_) (fun _ none_ => none_.elim) (fun _ here => here)
    have all : LabelsIn (fun k => a ≤ k ∧ k < n) _ :=
      start.append rest (by omega) (by omega) (by omega)
    rw [List.append_assoc] at all
    exact all
  · intro env whole p exit low base located inside above jumps
    simp only [List.length_append, List.length_cons, List.length_nil] at inside
    have test_ : Located whole (p + 1) (code₁ ++ [.cmpImm .rbx 1, .jcc .ne (.loc (a + 1))]) := by
      have later := located.right
      rw [← List.append_assoc] at later
      exact later.left
    have body_ : Located whole (p + 1 + code₁.length + 2) _ := located.right.right.right
    have back_ : Located whole (p + 1 + code₁.length + 2 + code₂.length) _ := body_.right
    have label₀ := located.head
    have label₁ := back_.tail.head
    have jump₀ := jumps (p + 1 + code₁.length + 2 + code₂.length) _ a (by omega) (by omega) label₀
    have jump₁ := jumps (p + 1 + code₁.length + 1) _ (a + 1) (by omega) (by omega) label₁
    have enter : Moves (step env whole) (Stores st base) exit _ _ id :=
      moves_label label₀ (by omega)
    have tests : Tests (fun t : AstExpr => t.holds) (step env whole) (Stores st base) exit cond _ _ _ :=
      tests_cond (fun σ s => test env base σ s) test_ (by omega) jump₁ label₁ (by omega)
    have first := loop.runs env whole _ exit low base body_.left (by omega) (by omega) jumps
    have back : Moves (step env whole) (Stores st base) exit _ _ id :=
      moves_jmp back_.head jump₀ (by omega)
    have placed := Placed.loop (Tests.after tests enter) first back
    convert placed using 1
    simp only [List.length_append, List.length_cons, List.length_nil]
    omega

end Emitted

-- The analysis of a statement of the core, and what its code does. The register set is the
-- initial one again after it.
theorem InCore.compiled {st : Stab} {s : AstStmt} (core : InCore st s)
    (known : stabType st integerTypeIdx = some ⟨.integer, 8, none⟩) (apart : CellsApart st) (acx : Acx)
    (here : AtTop st acx) :
    ∃ n code, StmtRun (.stmt s) acx (acx.atLabel n) code ∧ Emitted st s.core acx.label n code := by
  induction core generalizing acx with
  | null => exact ⟨acx.label, [], .null, .skip⟩
  | assign var arith enough =>
    obtain ⟨code, run, plain, runs⟩ := assign_runs known apart var arith enough here
    exact ⟨acx.label, code, run, .act plain runs⟩
  | @ite cond thenn elze test yes no ih₁ ih₂ =>
    obtain ⟨code₁, run₁, runs⟩ := test.runs known acx here.table here.start
    obtain ⟨m, code₂, run₂, emitted₂⟩ := ih₁ (acx.atLabel (acx.label + 2))
      ⟨here.table, here.start, here.top⟩
    obtain ⟨n, code₃, run₃, emitted₃⟩ := ih₂ (acx.atLabel m) ⟨here.table, here.start, here.top⟩
    have after : (acx.setRs oneTaken).afterLabels.setRs
        ((acx.setRs oneTaken).rs.takeitback ⟨.rbx, 0, false⟩).1 = acx.atLabel (acx.label + 2) := by
      rw [Acx.setRs_rs, takeitback_oneTaken.1, ← here.start]
      rfl
    have yes_ : StmtRun (.stmt thenn) (acx.atLabel (acx.label + 2)) (acx.atLabel m) code₂ := run₂
    rw [← after] at yes_
    exact ⟨n, _, .ite run₁ rfl yes_ run₃, .ite (labelsOf_plain (run₁.plain trivial)) runs emitted₂ emitted₃⟩
  | @stmts body all ih =>
    suffices list : ∃ n code, StmtRun (.stmts body) acx (acx.atLabel n) code ∧
        Emitted st (AstStmt.coreAll body) acx.label n code by
      obtain ⟨n, code, run, emitted⟩ := list
      exact ⟨n, code, .stmts run, by rwa [AstStmt.core]⟩
    clear all
    induction body generalizing acx with
    | nil => exact ⟨acx.label, [], .nil, .skip⟩
    | cons s body ihBody =>
      obtain ⟨m, code₁, run₁, emitted₁⟩ := ih s List.mem_cons_self acx here
      obtain ⟨n, code₂, run₂, emitted₂⟩ := ihBody
        (fun t member => ih t (List.mem_cons_of_mem _ member)) (acx.atLabel m)
        ⟨here.table, here.start, here.top⟩
      exact ⟨n, _, .cons run₁ run₂, emitted₁.seq emitted₂⟩
  | @wdo cond body test loop ih =>
    obtain ⟨code₁, run₁, runs⟩ := test.runs known acx.afterLabels here.table here.start
    obtain ⟨n, code₂, run₂, emitted⟩ := ih (acx.atLabel (acx.label + 2))
      ⟨here.table, here.start, here.top⟩
    have after : (acx.afterLabels.setRs oneTaken).setRs
        ((acx.afterLabels.setRs oneTaken).rs.takeitback ⟨.rbx, 0, false⟩).1 =
          acx.atLabel (acx.label + 2) := by
      rw [Acx.setRs_rs, takeitback_oneTaken.1, ← here.start]
      rfl
    have loop_ : StmtRun (.stmt body) (acx.atLabel (acx.label + 2)) (acx.atLabel n) code₂ := run₂
    rw [← after] at loop_
    exact ⟨n, _, .wdo run₁ rfl loop_, .wdo (labelsOf_plain (run₁.plain trivial)) runs emitted⟩

end Dragon
