import Dragon.Codegen.Subprograms
import Dragon.Machine.Execution

/-! Which lines expressions and statements print.

Expressions print no label and no jump, and read the display but do not save or
set it. Statements print local labels and jumps to local labels besides, and a
return is only printed at the end of a subprogram.
-/

set_option autoImplicit false

namespace Dragon

namespace Insn

/-- A line that control passes through. -/
def straight : Insn → Bool
  | .label _ | .jmp _ | .jcc .. | .ret | .syscall => false
  | _ => true

/-- A line of an expression, which besides gives no place a name. -/
def plain : Insn → Bool
  | .reserve _ => false
  | i => i.straight

/-- A line of a statement. -/
def inner : Insn → Bool
  | .label l | .jmp l | .jcc _ l => l.isLocal
  | .ret | .syscall => false
  | _ => true

/-- A line that neither saves nor sets a word of the display. -/
def quiet : Insn → Bool
  | .pushDisplay _ | .storeDisplay .. | .storeDisplayFrame .. => false
  | _ => true

def ofExpr (i : Insn) : Bool := i.plain && i.quiet

def ofStmt (i : Insn) : Bool := i.inner && i.quiet

theorem plain_of_ofExpr {i : Insn} (here : i.ofExpr = true) : i.plain = true :=
  (Bool.and_eq_true_iff.mp here).1

theorem quiet_of_ofExpr {i : Insn} (here : i.ofExpr = true) : i.quiet = true :=
  (Bool.and_eq_true_iff.mp here).2

theorem inner_of_plain {i : Insn} (plain : i.plain = true) : i.inner = true := by
  cases i <;> first | rfl | cases plain

theorem ofStmt_of_ofExpr {i : Insn} (here : i.ofExpr = true) : i.ofStmt = true :=
  Bool.and_eq_true_iff.mpr ⟨inner_of_plain (plain_of_ofExpr here), quiet_of_ofExpr here⟩

end Insn

theorem isBoundary_of_inner {i : Insn} (inner : i.inner = true) : isBoundary i = false := by
  cases i with
  | label l => exact congrArg (!·) inner
  | _ => rfl

theorem labelsOf_plain {code : List Insn} (plain : ∀ i ∈ code, i.plain = true) :
    labelsOf code = [] := by
  rw [labelsOf, List.filterMap_eq_nil_iff]
  intro i member
  have here := plain i member
  cases i <;> first | rfl | cases here

theorem PathLines.ofExpr {lines : RegName → List Insn} (path : PathLines lines) (r : RegName) :
    ∀ i ∈ lines r, i.ofExpr = true := by
  intro i member
  cases path r i member <;> rfl

theorem PathLines.plain {lines : RegName → List Insn} (path : PathLines lines) (r : RegName) :
    ∀ i ∈ lines r, i.plain = true :=
  fun i member => Insn.plain_of_ofExpr (path.ofExpr r i member)

namespace RegisterSet

theorem gimme_ofExpr (rs : RegisterSet) : ∀ i ∈ rs.gimme.2.2, i.ofExpr = true := by
  unfold gimme
  cases rs.firstFree with
  | none => simp [Insn.ofExpr, Insn.plain, Insn.straight, Insn.quiet]
  | some i => simp

theorem takeitback_ofExpr (rs : RegisterSet) (r : Reg) :
    ∀ i ∈ (rs.takeitback r).2, i.ofExpr = true := by
  unfold takeitback
  split <;> simp [Insn.ofExpr, Insn.plain, Insn.straight, Insn.quiet]

theorem gimme_plain (rs : RegisterSet) : ∀ i ∈ rs.gimme.2.2, i.plain = true :=
  fun i member => Insn.plain_of_ofExpr (rs.gimme_ofExpr i member)

theorem takeitback_plain (rs : RegisterSet) (r : Reg) :
    ∀ i ∈ (rs.takeitback r).2, i.plain = true :=
  fun i member => Insn.plain_of_ofExpr (rs.takeitback_ofExpr r i member)

end RegisterSet

theorem binCode_ofExpr {op : Token} {l r : RegName} {lines : List Insn}
    (print : binCode op l r = .ok lines) : ∀ i ∈ lines, i.ofExpr = true := by
  have relop : ∀ {t : Token}, (do
      let byte ← ihatex86 r.chars
      (.ok [.alu .cmp l r, .set (relopCond t) byte, .movzx l byte] : Except Stop (List Insn))) =
        .ok lines → ∀ i ∈ lines, i.ofExpr = true := by
    intro t print
    obtain ⟨byte, -, same⟩ := except_bind_eq_ok.mp print
    cases same
    simp [Insn.ofExpr, Insn.plain, Insn.straight, Insn.quiet]
  cases op with
  | eq => exact @relop .eq print
  | neq => exact @relop .neq print
  | lt => exact @relop .lt print
  | gt => exact @relop .gt print
  | le => exact @relop .le print
  | ge => exact @relop .ge print
  | not => cases print
  | _ =>
    cases print
    simp [divCode, Insn.ofExpr, Insn.plain, Insn.straight, Insn.quiet]

theorem finishCall_ofExpr (f : Name) (count : Nat) (rs : RegisterSet) :
    ∀ i ∈ finishCall f count rs, i.ofExpr = true := by
  intro i member
  simp only [finishCall, List.mem_append] at member
  rcases member with member | (member | member) | member
  · exact rs.gimme_ofExpr i member
  · simp only [enterCall, List.mem_cons, List.not_mem_nil, or_false] at member
    rcases member with rfl | rfl | rfl | rfl
    · rfl
    · split <;> rfl
    · rfl
    · rfl
  · simp only [List.mem_cons, List.not_mem_nil, or_false] at member
    rcases member with rfl | rfl <;> rfl
  · obtain ⟨j, -, rfl⟩ := List.mem_map.mp member
    rfl

/-- The newline of a read is a call. -/
def Node.newlineOfExpr : Node → Prop
  | .reads newline _ => ∀ i ∈ newline, i.ofExpr = true
  | _ => True

theorem Run.ofExpr {node : Node} {acx acx' : Acx} {results : List Resu} {code : List Insn}
    (run : Run node acx results acx' code) (newline : node.newlineOfExpr) :
    ∀ i ∈ code, i.ofExpr = true := by
  have app : ∀ {a b : List Insn}, (∀ i ∈ a, i.ofExpr = true) → (∀ i ∈ b, i.ofExpr = true) →
      ∀ i ∈ a ++ b, i.ofExpr = true := by
    intro a b one two i member
    rcases List.mem_append.mp member with member | member
    · exact one i member
    · exact two i member
  induction run with
  | lit => exact app (RegisterSet.gimme_ofExpr _) (by simp [Insn.ofExpr, Insn.plain, Insn.straight, Insn.quiet])
  | path path => exact app (RegisterSet.gimme_ofExpr _) (path.path.ofExpr _)
  | deref path =>
    exact app (app (RegisterSet.gimme_ofExpr _) (path.path.ofExpr _))
      (by simp [Insn.ofExpr, Insn.plain, Insn.straight, Insn.quiet])
  | @idx _ _ rv _ _ _ _ _ _ _ _ _ _ _ path _ _ _ _ ih =>
    refine app (app (RegisterSet.gimme_ofExpr _) (path.path.ofExpr _)) (app (ih trivial) ?_)
    cases rv <;> simp [Insn.ofExpr, Insn.plain, Insn.straight, Insn.quiet]
  | bin _ _ _ print ih₁ ih₂ =>
    exact app (ih₁ trivial) (app (ih₂ trivial) (app (binCode_ofExpr print)
      (RegisterSet.takeitback_ofExpr _ _)))
  | un _ _ _ ih =>
    exact app (ih trivial) (by simp [Insn.ofExpr, Insn.plain, Insn.straight, Insn.quiet])
  | app _ ih => exact ih trivial
  | @magic _ _ _ which _ _ _ _ _ _ _ ih =>
    refine app (ih ?_) ?_
    · cases which <;>
        simp [Magic.node, Node.newlineOfExpr, Insn.ofExpr, Insn.plain, Insn.straight, Insn.quiet]
    · cases which <;> simp [Magic.finish, Insn.ofExpr, Insn.plain, Insn.straight, Insn.quiet]
  | call _ _ _ _ ih =>
    refine app ?_ (app (ih trivial) (finishCall_ofExpr _ _ _))
    intro i member
    obtain ⟨j, -, rfl⟩ := List.mem_map.mp member
    rfl
  | noActuals => simp
  | actual _ _ _ _ ih₁ ih₂ =>
    refine app (ih₁ trivial) ?_
    intro i member
    rcases List.mem_cons.mp member with rfl | member
    · rfl
    · exact ih₂ trivial i member
  | wrote => simp
  | write _ _ _ ih₁ ih₂ =>
    exact app (ih₁ trivial) (app (by simp [Insn.ofExpr, Insn.plain, Insn.straight, Insn.quiet])
      (app (RegisterSet.takeitback_ofExpr _ _) (ih₂ trivial)))
  | read_ => simp
  | read _ _ _ _ ih₁ ih₂ =>
    refine app (ih₁ trivial) (app (app ?_ newline) (app (RegisterSet.takeitback_ofExpr _ _) (ih₂ newline)))
    simp [Insn.ofExpr, Insn.plain, Insn.straight, Insn.quiet]

theorem Run.plain {node : Node} {acx acx' : Acx} {results : List Resu} {code : List Insn}
    (run : Run node acx results acx' code) (newline : node.newlineOfExpr) :
    ∀ i ∈ code, i.plain = true :=
  fun i member => Insn.plain_of_ofExpr (run.ofExpr newline i member)

theorem StmtRun.ofStmt {node : StmtNode} {acx acx' : Acx} {code : List Insn}
    (run : StmtRun node acx acx' code) : ∀ i ∈ code, i.ofStmt = true := by
  have app : ∀ {a b : List Insn}, (∀ i ∈ a, i.ofStmt = true) → (∀ i ∈ b, i.ofStmt = true) →
      ∀ i ∈ a ++ b, i.ofStmt = true := by
    intro a b one two i member
    rcases List.mem_append.mp member with member | member
    · exact one i member
    · exact two i member
  have pass : ∀ {a : List Insn}, (∀ i ∈ a, i.ofExpr = true) → ∀ i ∈ a, i.ofStmt = true :=
    fun expr i member => Insn.ofStmt_of_ofExpr (expr i member)
  have back : ∀ (rs : RegisterSet) (r : Reg), ∀ i ∈ (rs.takeitback r).2, i.ofStmt = true :=
    fun rs r => pass (rs.takeitback_ofExpr r)
  induction run with
  | null => simp
  | assign left _ right =>
    exact app (pass (left.ofExpr trivial)) (app (pass (right.ofExpr trivial))
      (app (by simp [Insn.ofStmt, Insn.inner, Insn.quiet]) (app (back _ _) (back _ _))))
  | foor first last _ _ path _ _ _ _ _ ih =>
    exact app (pass (first.ofExpr trivial)) (app (pass (last.ofExpr trivial))
      (app (app (pass (RegisterSet.gimme_ofExpr _)) (pass (path.path.ofExpr _)))
        (app (by simp [Insn.ofStmt, Insn.inner, Insn.quiet])
          (app (by simp [Insn.ofStmt, Insn.inner, Insn.quiet, Label.isLocal])
            (app ih (app (by simp [Insn.ofStmt, Insn.inner, Insn.quiet, Label.isLocal])
              (app (back _ _) (back _ _))))))))
  | ite test _ _ _ ih₁ ih₂ =>
    exact app (pass (test.ofExpr trivial))
      (app (by simp [Insn.ofStmt, Insn.inner, Insn.quiet, Label.isLocal])
        (app (back _ _) (app ih₁ (app (by simp [Insn.ofStmt, Insn.inner, Insn.quiet, Label.isLocal])
          (app ih₂ (by simp [Insn.ofStmt, Insn.inner, Insn.quiet, Label.isLocal]))))))
  | proc call => exact app (pass (call.ofExpr trivial)) (back _ _)
  | stmts _ ih => exact ih
  | wdo test _ _ ih =>
    exact app (by simp [Insn.ofStmt, Insn.inner, Insn.quiet, Label.isLocal])
      (app (pass (test.ofExpr trivial))
        (app (by simp [Insn.ofStmt, Insn.inner, Insn.quiet, Label.isLocal]) (app (back _ _)
          (app ih (by simp [Insn.ofStmt, Insn.inner, Insn.quiet, Label.isLocal])))))
  | nil => simp
  | cons _ _ ih₁ ih₂ => exact app ih₁ ih₂

theorem StmtRun.inner {node : StmtNode} {acx acx' : Acx} {code : List Insn}
    (run : StmtRun node acx acx' code) : ∀ i ∈ code, i.inner = true :=
  fun i member => (Bool.and_eq_true_iff.mp (run.ofStmt i member)).1

theorem StmtRun.quiet {node : StmtNode} {acx acx' : Acx} {code : List Insn}
    (run : StmtRun node acx acx' code) : ∀ i ∈ code, i.quiet = true :=
  fun i member => (Bool.and_eq_true_iff.mp (run.ofStmt i member)).2

end Dragon
