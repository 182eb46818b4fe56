import Dragon.Codegen.Preservation
import Dragon.Codegen.Registers
import Dragon.Machine.Stack

/-! Counting loops.

The code of a for statement pushes the register of its counter and pops it
nowhere. Its body, which has no call and no counting loop of its own, comes back
to the height it starts at, or stays above it where a condition was spilled. So
the stack is higher after the statement than before it.
-/

set_option autoImplicit false

namespace Dragon

open PartialStep ByteMemory

/-! ## What it is to count -/

def isTest : Insn → Bool
  | .jcc .. => true
  | _ => false

/-- The test of a counting loop, its first conditional jump. The body starts after it. -/
def loopTest (code : List Insn) : Nat := code.findIdx isTest

def placeAt (env : Env) (code : List Insn) (σ : State) (k : Nat) : Option Nat :=
  (runFor (stackStep env code) k (0, σ)).map Prod.fst

/-- How often control has gone from the test on to the body. -/
def executions (env : Env) (code : List Insn) (σ : State) (n : Nat) : Nat :=
  (List.range n).countP fun k =>
    placeAt env code σ k == some (loopTest code) && placeAt env code σ (k + 1) == some (loopTest code + 1)

/-- The run of n steps through the code of a loop from a to b counts in a cell. -/
structure CountsTo (env : Env) (rs : RegisterSet) (code : List Insn) (cell a b : BitVec 64)
    (σ : State) (n : Nat) (τ : State) : Prop where
  ends : runFor (stackStep env code) n (0, σ) = some (code.length, τ)
  count : executions env code σ n = (b.toInt - a.toInt + 1).toNat
  reads : ∀ k < n, ∀ p υ dst base disp, runFor (stackStep env code) k (0, σ) = some (p, υ) →
    loopTest code < p → code[p]? = some (.load dst base disp) →
    υ.reg base + BitVec.ofInt 64 disp = cell →
      readWord υ.mem cell = a + BitVec.ofNat 64 (executions env code σ k - 1)
  rsp : τ.reg .rsp = σ.reg .rsp
  used : ∀ i, rs.regsUsed i = true → τ.reg (REGS i) = σ.reg (REGS i)

/-- The bodies of counting loops: assignments of arithmetic expressions to variables other than
the counter, conditionals, loops and blocks. Conditions have no call and no array element. -/
inductive LoopBody (st : Stab) (i : Name) : AstStmt → Prop where
  | null : LoopBody st i .null
  | assign {x : Name} {v : StabVar} {e : AstExpr} (var : LocalInteger st x v) (other : x ≠ i)
      (arith : Arith st e) : LoopBody st i (.assign (.path (astPath x)) e)
  | ite {cond : AstExpr} {thenn elze : AstStmt} (test : cond.exact (fun _ => true) = true)
      (yes : LoopBody st i thenn) (no : LoopBody st i elze) : LoopBody st i (.ite cond thenn elze)
  | stmts {body : List AstStmt} (all : ∀ s ∈ body, LoopBody st i s) : LoopBody st i (.stmts body)
  | wdo {cond : AstExpr} {body : AstStmt} (test : cond.exact (fun _ => true) = true)
      (loop : LoopBody st i body) : LoopBody st i (.wdo cond body)

theorem Arith.exact {st : Stab} {e : AstExpr} (arith : Arith st e) (magic : AstPath → Bool) :
    e.exact magic = true := by
  induction arith with
  | lit => rfl
  | var => rfl
  | bin _ _ _ ih₁ ih₂ =>
    rw [AstExpr.exact, ih₁, ih₂]
    rfl

theorem AstStmt.allExact_of_forall {magic : AstPath → Bool} {body : List AstStmt}
    (all : ∀ s ∈ body, s.exact magic = true) : allExact magic body = true := by
  induction body with
  | nil => rfl
  | cons s body ih =>
    rw [allExact, all s List.mem_cons_self, ih fun t member => all t (List.mem_cons_of_mem s member)]
    rfl

theorem LoopBody.exact {st : Stab} {i : Name} {s : AstStmt} (body : LoopBody st i s) :
    s.exact (fun _ => true) = true := by
  induction body with
  | null => rfl
  | assign _ _ arith =>
    rw [AstStmt.exact, arith.exact]
    rfl
  | ite test _ _ ih₁ ih₂ =>
    rw [AstStmt.exact, test, ih₁, ih₂]
    rfl
  | stmts _ ih =>
    rw [AstStmt.exact]
    exact AstStmt.allExact_of_forall ih
  | wdo test _ ih =>
    rw [AstStmt.exact, test, ih]
    rfl

theorem AstExpr.exact_of_callFree {magic : AstPath → Bool} :
    ∀ {e : AstExpr}, e.exact (fun _ => true) = true → e.exact magic = true
  | .app _ _, callFree => by simp [exact] at callFree
  | .bin op left right, callFree => by
      simp only [exact, Bool.and_eq_true] at callFree
      simp [exact, exact_of_callFree callFree.1, exact_of_callFree callFree.2]
  | .deref target, callFree => exact_of_callFree (e := target) callFree
  | .idx _ _, callFree => by simp [exact] at callFree
  | .lit _, _ => rfl
  | .path _, _ => rfl
  | .un _ operand, callFree => exact_of_callFree (e := operand) callFree
  | .addrof target, callFree => exact_of_callFree (e := target) callFree

/-! ## Registers on the stack -/

theorem Reg.spilled_nonneg (r : Reg) : 0 ≤ r.spilled := by
  unfold spilled
  split <;> omega

section

variable {level : Label → Int}

/-- A line that leaves the stack alone and that no count refuses. -/
def Insn.flat (i : Insn) : Bool := i.counted && i.ofExpr && decide (i.pushed = 0)

theorem leveled_flat {code : List Insn} (flat : ∀ i ∈ code, i.flat = true) (h : Int) :
    Leveled level h code h := by
  induction code with
  | nil => exact .nil
  | cons i code ih =>
    have here := flat i List.mem_cons_self
    simp only [Insn.flat, Bool.and_eq_true, decide_eq_true_eq] at here
    have rest := ih fun j member => flat j (List.mem_cons_of_mem i member)
    apply Leveled.cons here.1.1
    · cases i with
      | pop r => cases here.2
      | label | jmp | jcc => cases here.1.2
      | _ => trivial
    · rw [here.2, Int.add_zero]
      exact rest

theorem flat_of_sets {i : Insn} {r : RegName} (sets : i.sets = some r) (name : r ≠ .rsp)
    (still : i.pushed = 0) : i.flat = true := by
  cases i <;> cases sets <;>
    simp [Insn.flat, Insn.counted, Insn.sets, Insn.ofExpr, Insn.plain, Insn.straight, Insn.quiet,
      Insn.pushed, name] at still ⊢

theorem leveled_one {i : Insn} (flat : i.flat = true) (h : Int) : Leveled level h [i] h := by
  apply leveled_flat
  intro j member
  rw [List.mem_singleton.mp member]
  exact flat

theorem leveled_sets {i : Insn} {r : RegName} (sets : i.sets = some r) (name : r ≠ .rsp)
    (still : i.pushed = 0) (h : Int) : Leveled level h [i] h :=
  leveled_one (flat_of_sets sets name still) h

theorem leveled_gimme (rs : RegisterSet) (h : Int) :
    Leveled level h rs.gimme.2.2 (h + rs.gimme.1.spilled) := by
  unfold RegisterSet.gimme
  cases rs.firstFree with
  | none => exact .one rfl trivial
  | some i =>
    simp only [Reg.spilled, Bool.false_eq_true, if_false, Int.add_zero]
    exact .nil

theorem leveled_takeitback (rs : RegisterSet) {r : Reg} (name : r.name ≠ .rsp) {h : Int}
    (room : r.spilled ≤ h) : Leveled level h (rs.takeitback r).2 (h - r.spilled) := by
  unfold RegisterSet.takeitback
  cases spill : r.needRestore with
  | false =>
    simp only [Reg.spilled, spill, Bool.false_eq_true, if_false, if_true, Int.sub_zero]
    exact .nil
  | true =>
    simp only [Reg.spilled, spill, Bool.true_eq_false, if_false, if_true] at room ⊢
    have popped := @Leveled.pop level (h - 1) _ name (by omega)
    rwa [Int.sub_add_cancel] at popped

theorem leveled_path {lines : RegName → List Insn} (path : PathLines lines) {r : RegName}
    (name : r ≠ .rsp) (h : Int) : Leveled level h (lines r) h := by
  apply leveled_flat
  intro i member
  cases path r i member <;> exact flat_of_sets rfl name rfl

theorem leveled_div {l : RegName} (name : l ≠ .rsp) (r result : RegName) {h : Int} (low : 0 ≤ h) :
    Leveled level h (divCode l r result) h := by
  have middle : Leveled level (h + 1 + 1) [.mov .rax l, .cdq, .idiv r, .mov l result] (h + 1 + 1) := by
    apply leveled_flat
    intro i member
    simp only [List.mem_cons, List.not_mem_nil, or_false] at member
    rcases member with rfl | rfl | rfl | rfl
    · rfl
    · rfl
    · rfl
    · exact flat_of_sets rfl name rfl
  have saved : Leveled level h [.push .rdx, .push .rax] (h + 1 + 1) :=
    (Leveled.push .rdx h).append (Leveled.push .rax _)
  have restored : Leveled level (h + 1 + 1) [.pop .rax, .pop .rdx] h :=
    (Leveled.pop (by decide) (by omega)).append (Leveled.pop (by decide) low)
  exact saved.append (middle.append restored)

theorem leveled_binCode {op : Token} {l r : RegName} {lines : List Insn}
    (print : binCode op l r = .ok lines) (name : l ≠ .rsp) {h : Int} (low : 0 ≤ h) :
    Leveled level h lines h := by
  have relop : ∀ {t : Token}, (do
      let byte ← ihatex86 r.chars
      (.ok [.alu .cmp l r, .set (relopCond t) byte, .movzx l byte] : Except Stop (List Insn))) =
        .ok lines → Leveled level h lines h := by
    intro t print
    obtain ⟨byte, -, same⟩ := except_bind_eq_ok.mp print
    cases same
    apply leveled_flat
    intro i member
    simp only [List.mem_cons, List.not_mem_nil, or_false] at member
    rcases member with rfl | rfl | rfl
    · exact flat_of_sets rfl name rfl
    · rfl
    · exact flat_of_sets rfl name rfl
  cases op with
  | eq => exact @relop .eq print
  | neq => exact @relop .neq print
  | lt => exact @relop .lt print
  | gt => exact @relop .gt print
  | le => exact @relop .le print
  | ge => exact @relop .ge print
  | not => cases print
  | div | slash | mod =>
    cases print
    exact leveled_div name _ _ low
  | _ =>
    cases print
    exact leveled_sets rfl name rfl h

/-! ## Expressions and statements -/

theorem Run.leveled {node : Node} {acx acx' : Acx} {results : List Resu} {code : List Insn}
    (run : Run node acx results acx' code) (callFree : node.Exact fun _ => true) {h : Int}
    (low : 0 ≤ h) : Leveled level h code (h + acx.rs.gimme.1.spilled) := by
  -- an expression without calls leaves a word on the stack if its register was spilled
  induction run generalizing h with
  | @lit s rv acx =>
    exact (leveled_gimme acx.rs h).append (leveled_sets rfl (gimme_ne_rsp acx.rs) rfl _)
  | @path p rv acx _ _ _ path =>
    exact (leveled_gimme acx.rs h).append (leveled_path path.path (gimme_ne_rsp acx.rs) _)
  | @deref p rv acx _ _ _ _ _ path =>
    have name := gimme_ne_rsp acx.rs
    have address := (@leveled_gimme level acx.rs h).append (leveled_path path.path name _)
    exact address.append (leveled_sets rfl name rfl _)
  | idx => simp [Node.Exact, AstExpr.exact] at callFree
  | @bin op left right rv acx acx₁ acx₂ lty rty code₁ code₂ lines first second same print ih₁ ih₂ =>
    simp only [Node.Exact, AstExpr.exact, Bool.and_eq_true] at callFree
    obtain ⟨t₁, here, -⟩ := first.exact (fun _ => rfl) (AstExpr.exact_of_callFree callFree.1)
    obtain ⟨t₂, there, -⟩ := second.exact (fun _ => rfl) (AstExpr.exact_of_callFree callFree.2)
    cases here
    cases there
    have left := acx.rs.gimme.1.spilled_nonneg
    have right := acx₁.rs.gimme.1.spilled_nonneg
    have one := ih₁ callFree.1 low
    have two := ih₂ callFree.2 (Int.add_nonneg low left)
    have three := @leveled_binCode level _ _ _ _ print (gimme_ne_rsp _)
      (h + acx.rs.gimme.1.spilled + acx₁.rs.gimme.1.spilled) (by omega)
    have back := @leveled_takeitback level acx₂.rs _ (gimme_ne_rsp acx₁.rs)
      (h + acx.rs.gimme.1.spilled + acx₁.rs.gimme.1.spilled) (by omega)
    rw [Int.add_sub_cancel] at back
    exact one.append (two.append (three.append back))
  | @un op e rv acx acx₁ ety code operand sign boolean ih =>
    obtain ⟨t, here, -⟩ := operand.exact (fun _ => rfl) (AstExpr.exact_of_callFree callFree)
    cases here
    exact (ih callFree low).append (leveled_sets rfl (gimme_ne_rsp acx.rs) rfl _)
  | app => simp [Node.Exact, AstExpr.exact] at callFree
  | magic => simp [Node.Exact] at callFree
  | call => simp [Node.Exact] at callFree
  | _ => exact callFree.elim

theorem leveled_jump (i : Insn) {l : Label} {h : Int} (jump : i = .jmp l ∨ ∃ cc, i = .jcc cc l)
    (above : level l ≤ h) : Leveled level h [i] h := by
  have still : i.pushed = 0 := by rcases jump with rfl | ⟨cc, rfl⟩ <;> rfl
  have allowed : i.Allowed level h := by rcases jump with rfl | ⟨cc, rfl⟩ <;> exact above
  have counted : i.counted = true := by rcases jump with rfl | ⟨cc, rfl⟩ <;> rfl
  have one := Leveled.one counted allowed
  rwa [still, Int.add_zero] at one

theorem leveled_label {l : Label} {h : Int} (here : level l = h) :
    Leveled level h [.label l] h := by
  have one := @Leveled.one level h (.label l) rfl here
  have still : (Insn.label l).pushed = 0 := rfl
  rwa [still, Int.add_zero] at one

theorem leveled_jump_label {l l' : Label} {h : Int} (here : level l = h) (there : level l' = h) :
    Leveled level h [.jmp l, .label l'] h :=
  (leveled_jump (.jmp l) (.inl rfl) (Int.le_of_eq here)).append (leveled_label there)

theorem leveled_test {e : AstExpr} {acx acx' : Acx} {r : Resu} {code : List Insn} {l : Label}
    (run : Run (.expr e true) acx [r] acx' code) (callFree : e.exact (fun _ => true) = true)
    {h h' : Int} (low : 0 ≤ h) (here : level l = h) {rest : List Insn}
    (after : Leveled level h rest h') : Leveled level h
      (code ++ ([.cmpImm r.reg.name 1, .jcc .ne l] ++ ((acx'.rs.takeitback r.reg).2 ++ rest))) h' := by
  have spill := acx.rs.gimme.1.spilled_nonneg
  have name := gimme_ne_rsp acx.rs
  obtain ⟨t, result, -⟩ := run.exact (fun _ => rfl) (AstExpr.exact_of_callFree callFree)
  cases result
  have value := @Run.leveled level _ _ _ _ _ run callFree h low
  have test : Leveled level (h + acx.rs.gimme.1.spilled)
      ([.cmpImm acx.rs.gimme.1.name 1] ++ [.jcc .ne l]) (h + acx.rs.gimme.1.spilled) := by
    apply (leveled_sets rfl name rfl _).append
    exact leveled_jump _ (.inr ⟨_, rfl⟩) (by omega)
  have back := @leveled_takeitback level acx'.rs _ name (h + acx.rs.gimme.1.spilled) (by omega)
  rw [Int.add_sub_cancel] at back
  exact value.append (test.append (back.append after))

end

def StmtNode.exact (node : StmtNode) (magic : AstPath → Bool) : Bool :=
  match node with
  | .stmt s => s.exact magic
  | .stmts body => AstStmt.allExact magic body

theorem StmtRun.leveled {node : StmtNode} {acx acx' : Acx} {code : List Insn}
    (run : StmtRun node acx acx' code) (callFree : node.exact (fun _ => true) = true) {h : Int}
    (low : 0 ≤ h) : Leveled (fun _ => h) h code h := by
  -- a statement without calls and counting loops keeps the height its labels stand at
  induction run with
  | null => exact .nil
  | @assign lvalue rvalue acx acx₁ acx₂ acx₃ acx₄ acx₅ lty rty code₁ code₂ left target right same first
      second =>
    simp only [StmtNode.exact, AstStmt.exact, Bool.and_eq_true] at callFree
    obtain ⟨t₁, result₁, -⟩ := left.exact (fun _ => rfl) (AstExpr.exact_of_callFree callFree.1)
    obtain ⟨t₂, result₂, -⟩ := right.exact (fun _ => rfl) (AstExpr.exact_of_callFree callFree.2)
    cases result₁
    cases result₂
    have spill₁ := acx.rs.gimme.1.spilled_nonneg
    have spill₂ := acx₂.rs.gimme.1.spilled_nonneg
    have one := @Run.leveled (fun _ => h) _ _ _ _ _ left callFree.1 h low
    have two := @Run.leveled (fun _ => h) _ _ _ _ _ right callFree.2 (h + acx.rs.gimme.1.spilled)
      (by omega)
    have store := @leveled_one (fun _ => h) (.store acx.rs.gimme.1.name acx₂.rs.gimme.1.name) rfl
      (h + acx.rs.gimme.1.spilled + acx₂.rs.gimme.1.spilled)
    have back₂ := @leveled_takeitback (fun _ => h) acx₃.rs _ (gimme_ne_rsp acx₂.rs)
      (h + acx.rs.gimme.1.spilled + acx₂.rs.gimme.1.spilled) (by omega)
    have back₁ := @leveled_takeitback (fun _ => h) acx₄.rs _ (gimme_ne_rsp acx.rs)
      (h + acx.rs.gimme.1.spilled) (by omega)
    rw [Int.add_sub_cancel] at back₁ back₂
    exact one.append (two.append (store.append (back₂.append back₁)))
  | foor => simp [StmtNode.exact, AstStmt.exact] at callFree
  | ite test _ _ _ ih₁ ih₂ =>
    simp only [StmtNode.exact, AstStmt.exact, Bool.and_eq_true] at callFree
    have yes := ih₁ callFree.1.2
    have no := ih₂ callFree.2
    exact leveled_test test callFree.1.1 low rfl (.append yes
      (.append (leveled_jump_label rfl rfl) (.append no (leveled_label rfl))))
  | proc => simp [StmtNode.exact, AstStmt.exact] at callFree
  | stmts _ ih => exact ih callFree
  | wdo test _ _ ih =>
    simp only [StmtNode.exact, AstStmt.exact, Bool.and_eq_true] at callFree
    have loop := ih callFree.2
    exact .append (leveled_label rfl) (leveled_test test callFree.1 low rfl
      (.append loop (leveled_jump_label rfl rfl)))
  | nil => exact .nil
  | cons _ _ ih₁ ih₂ =>
    simp only [StmtNode.exact, AstStmt.allExact, Bool.and_eq_true] at callFree
    exact (ih₁ callFree.1).append (ih₂ callFree.2)

-- The word pushed for the counter is on the stack at the end of a counting loop, below it the
-- register of the counter's address if that was spilled.
theorem StmtRun.leveled_foor {id : Name} {start finish : AstExpr} {body : AstStmt} {acx acx' : Acx}
    {code : List Insn} (run : StmtRun (.stmt (.foor id start finish body)) acx acx' code)
    (starts : start.exact (fun _ => true) = true) (finishes : finish.exact (fun _ => true) = true)
    (callFree : body.exact (fun _ => true) = true) :
    ∃ level h, Leveled level 0 code h ∧ 1 ≤ h := by
  cases run with
  | @foor _ _ _ _ _ acx₁ acx₂ acx₃ acx₄ acx₅ acx₆ sty ety v lines st code₁ code₂ code₃ first last _ _
      path _ loop =>
    obtain ⟨t₁, result₁, -⟩ := first.exact (fun _ => rfl) (AstExpr.exact_of_callFree starts)
    obtain ⟨t₂, result₂, -⟩ := last.exact (fun _ => rfl) (AstExpr.exact_of_callFree finishes)
    cases result₁
    cases result₂
    have spill₁ := acx.rs.gimme.1.spilled_nonneg
    have spill₂ := acx₁.rs.gimme.1.spilled_nonneg
    have spill₃ := acx₂.rs.gimme.1.spilled_nonneg
    have name₁ := gimme_ne_rsp acx.rs
    have name₂ := gimme_ne_rsp acx₁.rs
    generalize s₁ : acx.rs.gimme.1.spilled = a₁ at spill₁
    generalize s₂ : acx₁.rs.gimme.1.spilled = a₂ at spill₂
    generalize s₃ : acx₂.rs.gimme.1.spilled = a₃ at spill₃
    -- the height from the push on, at which both labels stand
    let inside : Int := 0 + a₁ + a₂ + a₃ + 1
    refine ⟨fun _ => inside, inside - a₂ - a₁, ?_, by omega⟩
    have one := @Run.leveled (fun _ => inside) _ _ _ _ _ first starts 0 (Int.le_refl 0)
    have two := @Run.leveled (fun _ => inside) _ _ _ _ _ last finishes (0 + a₁) (by omega)
    have three := (@leveled_gimme (fun _ => inside) acx₂.rs (0 + a₁ + a₂)).append
      (leveled_path path.path (gimme_ne_rsp acx₂.rs) _)
    rw [s₁] at one
    rw [s₂] at two
    rw [s₃] at three
    have counter := @Leveled.push (fun _ => inside) acx.rs.gimme.1.name (0 + a₁ + a₂ + a₃)
    have test : Leveled (fun _ => inside) inside ([.label (.loc acx₃.label)] ++
        ([.alu .cmp acx.rs.gimme.1.name acx₁.rs.gimme.1.name] ++
          [.jcc .e (.loc (acx₃.label + 1))])) inside :=
      .append (leveled_label rfl) (.append (leveled_sets rfl name₁ rfl _)
        (leveled_jump _ (.inr ⟨_, rfl⟩) (Int.le_refl _)))
    have four := @StmtRun.leveled _ _ _ _ loop callFree inside (by omega)
    have again : Leveled (fun _ => inside) inside ([.inc acx.rs.gimme.1.name] ++
        ([.store .rsp acx.rs.gimme.1.name] ++ [.jmp (.loc acx₃.label),
          .label (.loc (acx₃.label + 1))])) inside :=
      .append (leveled_sets rfl name₁ rfl _)
        (.append (leveled_one rfl _) (leveled_jump_label rfl rfl))
    have back₂ := @leveled_takeitback (fun _ => inside) acx₄.rs _ name₂ inside (by omega)
    have back₁ := @leveled_takeitback (fun _ => inside) acx₅.rs _ name₁ (inside - a₂) (by omega)
    rw [s₂] at back₂
    rw [s₁] at back₁
    exact one.append (two.append (three.append (counter.append (test.append (four.append
      (again.append (back₂.append back₁)))))))

/-! ## Counting loops -/

theorem isTest_of_plain {i : Insn} (plain : i.plain = true) : isTest i = false := by
  cases i with
  | jcc => cases plain
  | _ => rfl

theorem StmtRun.foor_parts {id : Name} {start finish : AstExpr} {body : AstStmt} {acx acx' : Acx}
    {code : List Insn} (run : StmtRun (.stmt (.foor id start finish body)) acx acx' code) :
    ∃ before acx₁ acx₂ l bodyCode after, StmtRun (.stmt body) acx₁ acx₂ bodyCode ∧
      code = before ++ (.jcc .e l :: (bodyCode ++ after)) ∧ ∀ i ∈ before, isTest i = false := by
  cases run with
  | @foor _ _ _ _ _ acx₁ acx₂ acx₃ acx₄ acx₅ acx₆ sty ety v lines st code₁ code₂ code₃ first last _ _
      path _ loop =>
    refine ⟨code₁ ++ (code₂ ++ (acx₂.rs.gimme.2.2 ++ lines acx₂.rs.gimme.1.name ++
      [.push sty.reg.name, .label (.loc acx₃.label), .alu .cmp sty.reg.name ety.reg.name])), _, _,
      .loc (acx₃.label + 1), code₃, [.inc sty.reg.name, .store .rsp sty.reg.name,
      .jmp (.loc acx₃.label), .label (.loc (acx₃.label + 1))] ++
        ((acx₄.rs.takeitback ety.reg).2 ++ (acx₅.rs.takeitback sty.reg).2), loop, ?_, ?_⟩
    · simp only [List.append_assoc, List.cons_append, List.nil_append]
    · intro i member
      simp only [List.mem_append, List.mem_cons, List.not_mem_nil, or_false] at member
      rcases member with member | member | (member | member) | rfl | rfl | rfl
      · exact isTest_of_plain (first.plain trivial i member)
      · exact isTest_of_plain (last.plain trivial i member)
      · exact isTest_of_plain (RegisterSet.gimme_plain _ i member)
      · exact isTest_of_plain (path.path.plain _ i member)
      · rfl
      · rfl
      · rfl

theorem StmtRun.loopTest_eq {id : Name} {start finish : AstExpr} {body : AstStmt} {acx acx' : Acx}
    {code : List Insn} (run : StmtRun (.stmt (.foor id start finish body)) acx acx' code) :
    ∃ acx₁ acx₂ bodyCode, StmtRun (.stmt body) acx₁ acx₂ bodyCode ∧
      Located code (loopTest code + 1) bodyCode := by
  obtain ⟨before, acx₁, acx₂, l, bodyCode, after, loop, rfl, none_⟩ := run.foor_parts
  have length := List.findIdx_eq_length.mpr none_
  have test : loopTest (before ++ (.jcc .e l :: (bodyCode ++ after))) = before.length := by
    rw [loopTest, List.findIdx_append, length, if_neg (Nat.lt_irrefl _), List.findIdx_cons]
    exact Nat.zero_add _
  refine ⟨acx₁, acx₂, bodyCode, loop, after, ?_⟩
  rw [test, List.append_cons, List.drop_append_of_le_length (by simp), List.drop_eq_nil_of_le (by simp)]
  rfl

/-- No counting loop counts as it should: at its end the stack is higher than before it. -/
theorem countsTo_never {acx acx' : Acx} {i : Name} {start finish : AstExpr} {body : AstStmt}
    {code : List Insn} (first : Arith acx.st start) (last : Arith acx.st finish)
    (loop : LoopBody acx.st i body)
    (accepted : analyzeStmt (.foor i start finish body) acx = .ok ((), acx', code)) (env : Env)
    (σ : State) (n : Nat) (τ : State) :
    ¬ CountsTo env acx.rs code (σ.frame (offsetOf acx.st i)) (start.value (valuesOf acx.st σ))
      (finish.value (valuesOf acx.st σ)) σ n τ := by
  intro counts
  have run := analyzeStmt_run _ accepted
  obtain ⟨level, h, leveled, high⟩ := run.leveled_foor (first.exact _) (last.exact _) loop.exact
  have lower := leveled.run counts.ends
  rw [counts.rsp] at lower
  omega

-- for i := 1 to 2 do x := i
def copyLoop : AstStmt :=
  .foor "i" (.lit "1") (.lit "2") (.assign (.path (astPath "x")) (.path (astPath "i")))

def copyDecls : List AstDecls := [⟨["i", "x"], .integer⟩]

theorem copyLoop_accepted : ∃ st i x acx' code,
    stabAddAllDecls stabNew true copyDecls 0 = .ok (16, st) ∧ LocalInteger st "i" i ∧
      LocalInteger st "x" x ∧ analyzeStmt copyLoop (topAcx st) = .ok ((), acx', code) := by
  have facts : (stabAddAllDecls stabNew true copyDecls 0).toOption.map (fun r =>
      decide (r.1 = 16 ∧ stabHasLocalVar r.2 "i" = true ∧
        stabVar r.2 (stabResolveVar r.2 "i") = some ⟨0, "i", -1, 0, false⟩ ∧
        stabHasLocalVar r.2 "x" = true ∧
        stabVar r.2 (stabResolveVar r.2 "x") = some ⟨0, "x", -1, 8, false⟩ ∧
        (analyzeStmt copyLoop (topAcx r.2)).isOk = true)) = some true := by
    decide +kernel
  cases result : stabAddAllDecls stabNew true copyDecls 0 with
  | error s => simp [result, Except.toOption] at facts
  | ok r =>
    obtain ⟨off, st⟩ := r
    simp only [result, Except.toOption, Option.map_some, Option.some.injEq, decide_eq_true_eq] at facts
    obtain ⟨rfl, localI, foundI, localX, foundX, accepted⟩ := facts
    cases analysed : analyzeStmt copyLoop (topAcx st) with
    | error s => simp [analysed, Except.isOk, Except.toBool] at accepted
    | ok r =>
      obtain ⟨u, acx', code⟩ := r
      exact ⟨st, _, _, acx', code, rfl, ⟨localI, foundI, rfl⟩, ⟨localX, foundX, rfl⟩, analysed⟩

theorem copyLoop_body {st : Stab} {i x : StabVar} (counter : LocalInteger st "i" i)
    (var : LocalInteger st "x" x) :
    LoopBody st "i" (.assign (.path (astPath "x")) (.path (astPath "i"))) :=
  .assign var (by decide) (.var counter)

theorem arith_one_two (st : Stab) : Arith st (.lit "1") ∧ Arith st (.lit "2") := by
  have one : decimal "1" = some 1 := by decide +kernel
  have two : decimal "2" = some 2 := by decide +kernel
  exact ⟨.lit one (by decide), .lit two (by decide)⟩

theorem copyLoop_countsTo_never : ∃ st acx' code,
    analyzeStmt copyLoop (topAcx st) = .ok ((), acx', code) ∧ ∀ env σ n τ,
      ¬ CountsTo env regInit code (σ.frame (offsetOf st "i")) 1 2 σ n τ := by
  obtain ⟨st, i, x, acx', code, -, counter, var, accepted⟩ := copyLoop_accepted
  refine ⟨st, acx', code, accepted, fun env σ n τ => ?_⟩
  have never := countsTo_never (arith_one_two (topAcx st).st).1 (arith_one_two (topAcx st).st).2
    (copyLoop_body counter var) accepted env σ n τ
  have one : decimal "1" = some 1 := by decide +kernel
  have two : decimal "2" = some 2 := by decide +kernel
  rw [AstExpr.value, AstExpr.value, one, two] at never
  exact never

-- The body of copyLoop is never run as often, and with the values, that the loop asks for.
theorem not_forall_countsTo : ¬ ∀ (acx acx' : Acx) (i : Name) (v : StabVar) (start finish : AstExpr)
    (body : AstStmt) (code : List Insn) (env : Env) (σ : State), LocalInteger acx.st i v →
    Arith acx.st start → Arith acx.st finish → LoopBody acx.st i body →
    analyzeStmt (.foor i start finish body) acx = .ok ((), acx', code) →
    ∃ n τ, CountsTo env acx.rs code (σ.frame (offsetOf acx.st i)) (start.value (valuesOf acx.st σ))
      (finish.value (valuesOf acx.st σ)) σ n τ := by
  intro claim
  obtain ⟨st, i, x, acx', code, -, counter, var, accepted⟩ := copyLoop_accepted
  have parts := arith_one_two st
  obtain ⟨n, τ, counts⟩ := claim (topAcx st) acx' "i" i (.lit "1") (.lit "2") _ code noCalls zeroState
    counter parts.1 parts.2 (copyLoop_body counter var) accepted
  obtain ⟨level, h, leveled, high⟩ := (analyzeStmt_run _ accepted).leveled_foor rfl rfl rfl
  have lower := leveled.run counts.ends
  rw [counts.rsp] at lower
  omega

end Dragon
