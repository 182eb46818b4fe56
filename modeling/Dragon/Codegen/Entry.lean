import Dragon.Codegen.Lines
import Dragon.Codegen.Visits
import Dragon.Machine.Execution

/-! Where control goes from the label of a subprogram.

The own code of a subprogram is closed: its last line is its only return, and
every jump in it goes to a label in it. The code of nested subprograms is
printed between the label and the own code.
-/

set_option autoImplicit false

namespace Dragon

open Analysis PartialStep

/-! ## Jumps stay in the code they are printed in -/

def Insn.target : Insn → Option Label
  | .jmp l | .jcc _ l => some l
  | _ => none

/-- All labels the lines jump to have a property. -/
structure Targets (code : List Insn) (P : Label → Prop) : Prop where
  target : ∀ i ∈ code, ∀ l, i.target = some l → P l

theorem Targets.append {first second : List Insn} {P : Label → Prop} (one : Targets first P)
    (two : Targets second P) : Targets (first ++ second) P := by
  constructor
  intro i member
  rcases List.mem_append.mp member with member | member
  · exact one.target i member
  · exact two.target i member

theorem Targets.imp {code : List Insn} {P Q : Label → Prop} (targets : Targets code P)
    (weaker : ∀ l, P l → Q l) : Targets code Q :=
  ⟨fun i member l jumps => weaker l (targets.target i member l jumps)⟩

theorem targets_of_plain {code : List Insn} {P : Label → Prop}
    (plain : ∀ i ∈ code, i.plain = true) : Targets code P := by
  constructor
  intro i member l jumps
  have here := plain i member
  cases i with
  | jmp => cases here
  | jcc => cases here
  | _ => cases jumps

theorem targets_of_all {code : List Insn} {P : Label → Prop}
    (all : ∀ i ∈ code, ∀ l, i.target = some l → P l) : Targets code P := ⟨all⟩

/-- Every jump goes to a label of the same lines. -/
def ClosedJumps (code : List Insn) : Prop := Targets code fun l => Insn.label l ∈ code

theorem StmtRun.closed {node : StmtNode} {acx acx' : Acx} {code : List Insn}
    (run : StmtRun node acx acx' code) : ClosedJumps code := by
  have back : ∀ (rs : RegisterSet) (r : Reg) {P : Label → Prop}, Targets (rs.takeitback r).2 P :=
    fun rs r _ => targets_of_plain (rs.takeitback_plain r)
  have value : ∀ {node : Node} {acx acx' : Acx} {results : List Resu} {code : List Insn}
      {P : Label → Prop}, Run node acx results acx' code → node.newlineOfExpr → Targets code P :=
    fun run newline => targets_of_plain (run.plain newline)
  -- the only jumps are those of for, if and while, to labels printed with them
  induction run with
  | null => exact targets_of_plain (by simp)
  | assign left _ right =>
    apply Targets.append (value left trivial)
    apply Targets.append (value right trivial)
    apply Targets.append (targets_of_plain (by simp [Insn.plain, Insn.straight]))
    exact (back _ _).append (back _ _)
  | foor first last _ _ path _ _ _ _ _ ih =>
    apply Targets.append (value first trivial)
    apply Targets.append (value last trivial)
    apply Targets.append
    · apply Targets.append (targets_of_plain (RegisterSet.gimme_plain _))
      exact targets_of_plain (path.path.plain _)
    apply Targets.append (targets_of_plain (by simp [Insn.plain, Insn.straight]))
    apply Targets.append
    · exact targets_of_all (by simp [Insn.target])
    apply Targets.append
    · apply ih.imp
      intro l member
      simp [member]
    apply Targets.append
    · exact targets_of_all (by simp [Insn.target])
    exact (back _ _).append (back _ _)
  | ite test _ _ _ ih₁ ih₂ =>
    apply Targets.append (value test trivial)
    apply Targets.append
    · exact targets_of_all (by simp [Insn.target])
    apply Targets.append (back _ _)
    apply Targets.append
    · apply ih₁.imp
      intro l member
      simp [member]
    apply Targets.append
    · exact targets_of_all (by simp [Insn.target])
    apply Targets.append
    · apply ih₂.imp
      intro l member
      simp [member]
    · exact targets_of_all (by simp [Insn.target])
  | proc call => exact (value call trivial).append (back _ _)
  | stmts _ ih => exact ih
  | wdo test _ _ ih =>
    apply Targets.append
    · exact targets_of_all (by simp [Insn.target])
    apply Targets.append (value test trivial)
    apply Targets.append
    · exact targets_of_all (by simp [Insn.target])
    apply Targets.append (back _ _)
    apply Targets.append
    · apply ih.imp
      intro l member
      simp [member]
    · exact targets_of_all (by simp [Insn.target])
  | nil => exact targets_of_plain (by simp)
  | cons _ _ ih₁ ih₂ =>
    apply Targets.append
    · exact ih₁.imp fun l member => List.mem_append_left _ member
    · exact ih₂.imp fun l member => List.mem_append_right _ member

/-! ## The own code of a subprogram -/

/-- Lines of statements that end in the only return and jump among themselves. -/
structure ReturnsLast (own : List Insn) : Prop where
  split : ∃ lines, own = lines ++ [.ret] ∧ (∀ i ∈ lines, i.inner = true) ∧ ClosedJumps lines

theorem saveLines_plain (captured : List StabVar) :
    ∀ i ∈ captured.flatMap saveLines, i.plain = true := by
  intro i member
  obtain ⟨v, -, member⟩ := List.mem_flatMap.mp member
  simp only [saveLines, List.mem_cons, List.not_mem_nil, or_false] at member
  rcases member with rfl | rfl <;> rfl

theorem restoreDisplay_plain (captured : List StabVar) (r : Reg) :
    ∀ i ∈ restoreDisplay captured r, i.plain = true := by
  intro i member
  obtain ⟨v, -, member⟩ := List.mem_flatMap.mp member
  simp only [List.mem_cons, List.not_mem_nil, or_false] at member
  rcases member with rfl | rfl <;> rfl

theorem copyLines_plain (type : Subprogs) (slot : StabVar) (rs : RegisterSet) :
    ∀ i ∈ copyLines type slot rs, i.plain = true := by
  intro i member
  unfold copyLines at member
  split at member
  · simp only [List.mem_append, List.mem_cons, List.not_mem_nil, or_false] at member
    rcases member with member | (rfl | rfl) | member
    · exact rs.gimme_plain i member
    · rfl
    · rfl
    · exact RegisterSet.takeitback_plain _ _ i member
  · cases member

def epilogueOpen (rs : RegisterSet) (type : Subprogs) (slot : StabVar) (off : Int)
    (captured : List StabVar) : List Insn :=
  rs.gimme.2.2 ++ (restoreDisplay captured rs.gimme.1 ++ ((rs.gimme.2.1.takeitback rs.gimme.1).2 ++
    (copyLines type slot rs ++ [.addImm .rsp (off - abiPointerSize)])))

theorem epilogueLines_eq (rs : RegisterSet) (type : Subprogs) (slot : StabVar) (off : Int)
    (captured : List StabVar) :
    epilogueLines rs type slot off captured = epilogueOpen rs type slot off captured ++ [.ret] := by
  simp only [epilogueLines, epilogueOpen, List.append_assoc, List.cons_append, List.nil_append]

theorem epilogueOpen_plain (rs : RegisterSet) (type : Subprogs) (slot : StabVar) (off : Int)
    (captured : List StabVar) : ∀ i ∈ epilogueOpen rs type slot off captured, i.plain = true := by
  intro i member
  simp only [epilogueOpen, List.mem_append] at member
  rcases member with member | member | member | member | member
  · exact rs.gimme_plain i member
  · exact restoreDisplay_plain captured _ i member
  · exact RegisterSet.takeitback_plain _ _ i member
  · exact copyLines_plain type slot rs i member
  · rw [List.mem_singleton.mp member]
    rfl

theorem OwnRun.returnsLast {retslot : Index} {off : Int} {body : AstStmt} {acx acx' : Acx}
    {captured : List StabVar} {bodyCode : List Insn} {slot : StabVar} {own : List Insn}
    (run : OwnRun retslot off body acx acx' captured bodyCode slot own) : ReturnsLast own := by
  have epilogue := epilogueOpen_plain acx'.rs acx'.currentFuncType slot off captured
  refine ⟨⟨.subImm .rsp (off - abiPointerSize) :: (captured.flatMap saveLines ++
    (bodyCode ++ epilogueOpen acx'.rs acx'.currentFuncType slot off captured)), ?_, ?_, ?_⟩⟩
  · rw [run.code_eq, epilogueLines_eq]
    simp only [List.cons_append, List.append_assoc]
  · intro i member
    simp only [List.mem_cons, List.mem_append] at member
    rcases member with rfl | member | member | member
    · rfl
    · exact Insn.inner_of_plain (saveLines_plain captured i member)
    · exact run.run.inner i member
    · exact Insn.inner_of_plain (epilogue i member)
  · have prologue : Targets (.subImm .rsp (off - abiPointerSize) :: captured.flatMap saveLines)
        fun l => Insn.label l ∈ .subImm .rsp (off - abiPointerSize) :: (captured.flatMap saveLines ++
          (bodyCode ++ epilogueOpen acx'.rs acx'.currentFuncType slot off captured)) := by
      apply targets_of_plain
      intro i member
      rcases List.mem_cons.mp member with rfl | member
      · rfl
      · exact saveLines_plain captured i member
    apply Targets.append prologue
    apply Targets.append
    · apply run.run.closed.imp
      intro l member
      simp [member]
    · exact targets_of_plain epilogue

theorem Parts.returnsLast {d : AstSubdecl} {start inner : Acx} {retslot : Index} {off : Int}
    {nested own : List Insn} (parts : Parts d start inner retslot off nested own) :
    ReturnsLast own := by
  obtain ⟨acx, printed⟩ := parts.own
  obtain ⟨captured, bodyCode, slot, run⟩ := ownCode_run printed
  exact run.returnsLast

/-! ## Control between the label and the return -/

/-- From the label at k on, only the lines from first to last are executed, starting with the
first one. A call is one step, and a return ends the run. -/
structure Enters (code : List Insn) (k first last : Nat) : Prop where
  enters : ∀ (env : Env) (σ : State), step env code (k, σ) = some (first, σ)
  stays : ∀ (env : Env) (σ τ : State) (n q : Nat),
    runFor (step env code) (n + 1) (k, σ) = some (q, τ) → first ≤ q ∧ q < last

theorem step_label {env : Env} {code : List Insn} {k : Nat} {l : Label} (σ : State)
    (here : code[k]? = some (.label l)) : step env code (k, σ) = some (k + 1, σ) :=
  step_of_exec here rfl

theorem step_inner {env : Env} {code : List Insn} {p q : Nat} {i : Insn} {σ τ : State}
    (here : code[p]? = some i) (next : step env code (p, σ) = some (q, τ)) :
    q = p + 1 ∨ ∃ l, i.target = some l ∧ resolveLabel code p l = some q := by
  unfold step at next
  rw [here] at next
  cases i with
  | jmp l =>
    obtain ⟨_, found, same⟩ := Option.map_eq_some_iff.mp next
    cases same
    exact .inr ⟨l, rfl, found⟩
  | jcc cc l =>
    obtain ⟨f, -, next⟩ := Option.bind_eq_some_iff.mp next
    split at next
    · obtain ⟨_, found, same⟩ := Option.map_eq_some_iff.mp next
      cases same
      exact .inr ⟨l, rfl, found⟩
    · cases next
      exact .inl rfl
  | _ =>
    obtain ⟨_, -, same⟩ := Option.map_eq_some_iff.mp next
    cases same
    exact .inl rfl

theorem enters_of_returnsLast {before own after : List Insn} {g : Insn} {f : Name}
    (returns : ReturnsLast own) :
    Enters (before ++ (g :: .label (.sub f) :: (own ++ after))) (before.length + 1)
      (before.length + 2) (before.length + 2 + own.length) := by
  obtain ⟨lines, rfl, inner, closed⟩ := returns.split
  generalize whole : before ++ (g :: .label (.sub f) :: (lines ++ [.ret] ++ after)) = code
  have boundary : code[before.length + 1]? = some (.label (.sub f)) := by
    rw [← whole, List.getElem?_append_right (Nat.le_add_right _ 1), Nat.add_sub_cancel_left]
    rfl
  have line : ∀ k (small : k < lines.length), code[before.length + 2 + k]? = some lines[k] := by
    intro k small
    rw [← whole, List.getElem?_append_right (by omega), Nat.add_assoc, Nat.add_sub_cancel_left,
      Nat.add_comm 2 k]
    change (lines ++ [Insn.ret] ++ after)[k]? = some lines[k]
    rw [List.append_assoc, List.getElem?_append_left small, List.getElem?_eq_getElem small]
  have last : code[before.length + 2 + lines.length]? = some .ret := by
    rw [← whole, List.getElem?_append_right (by omega), Nat.add_assoc, Nat.add_sub_cancel_left,
      Nat.add_comm 2]
    simp
  have isInner : ∀ k (small : k < lines.length), lines[k].inner = true :=
    fun k small => inner _ (List.getElem_mem small)
  -- the label is the only boundary up to the return
  have region_own : ∀ k, k < lines.length →
      region code (before.length + 2 + k) = region code (before.length + 1) := by
    intro k
    induction k with
    | zero => exact fun small => region_succ (line 0 small) (isBoundary_of_inner (isInner 0 small))
    | succ k ih =>
      intro small
      have next := region_succ (line (k + 1) small) (isBoundary_of_inner (isInner (k + 1) small))
      exact next.trans (ih (Nat.lt_of_succ_lt small))
  have stay : ∀ (env : Env) (s t : Nat × State),
      (before.length + 2 ≤ s.1 ∧ s.1 < before.length + 2 + (lines ++ [Insn.ret]).length) →
      step env code s = some t →
      (before.length + 2 ≤ t.1 ∧ t.1 < before.length + 2 + (lines ++ [Insn.ret]).length) := by
    rintro env ⟨p, σ⟩ ⟨q, τ⟩ ⟨low, high⟩ next
    rw [List.length_append, List.length_singleton] at high ⊢
    obtain ⟨k, rfl⟩ := Nat.exists_eq_add_of_le low
    rcases Nat.lt_or_eq_of_le (show k ≤ lines.length by omega) with small | rfl
    · rcases step_inner (line k small) next with rfl | ⟨l, jumps, found⟩
      · constructor <;> simp only <;> omega
      · -- the label of the jump is one of the own lines, so the search stops there or earlier
        obtain ⟨j, inside, there⟩ := List.mem_iff_getElem.mp
          (closed.target _ (List.getElem_mem small) l jumps)
        have isLocal : l.isLocal = true := by
          have same := isInner j inside
          rw [there] at same
          exact same
        have here := line j inside
        rw [there] at here
        have between := resolveLabel_between boundary rfl isLocal (by omega) here
          ((region_own j inside).trans (region_own k small).symm) found
        constructor <;> simp only <;> omega
    · unfold step at next
      rw [last] at next
      cases next
  constructor
  · exact fun env σ => step_label σ boundary
  · intro env σ τ n q run
    have entered : step env code (before.length + 1, σ) = some (before.length + 1 + 1, σ) :=
      step_label σ boundary
    have rest := (runFor_succ entered).mp run
    apply runFor_inside (stay env) _ rest
    rw [List.length_append, List.length_singleton]
    constructor <;> simp only <;> omega

theorem analyzeSubprogs_ne_nil {d : AstSubdecl} {subprogs : List AstSubdecl} {acx acx' : Acx}
    {u : Unit} {code : List Insn} (run : analyzeSubprogs (d :: subprogs) acx = .ok (u, acx', code)) :
    code ≠ [] := by
  obtain ⟨st, acx₁, code₁, code₂, -, first, -, rfl⟩ := analyzeSubprogs_cons run
  obtain ⟨inner, retslot, off, nested, own, -, rfl⟩ := analyzeSubprog_parts first
  simp

theorem Parts.ownCode_iff {d : AstSubdecl} {start inner : Acx} {retslot : Index} {off : Int}
    {before nested own after : List Insn}
    (parts : Parts d start inner retslot off nested own) :
    Enters (before ++ ([.global (.sub d.name), .label (.sub d.name)] ++ (nested ++ own) ++ after))
      (before.length + 1) (before.length + 2 + nested.length)
      (before.length + 2 + nested.length + own.length) ↔ d.subprogs = [] := by
  obtain ⟨acx, -, ran⟩ := parts.nested
  constructor
  · intro enters
    cases shape : d.subprogs with
    | nil => rfl
    | cons e subprogs =>
      -- the line after the label belongs to the first nested subprogram
      rw [shape] at ran
      have some_ := List.length_pos_iff.mpr (analyzeSubprogs_ne_nil ran)
      have here : (before ++ ([.global (.sub d.name), .label (.sub d.name)] ++ (nested ++ own) ++
          after))[before.length + 1]? = some (.label (.sub d.name)) := by
        rw [List.getElem?_append_right (Nat.le_add_right _ 1), Nat.add_sub_cancel_left]
        rfl
      have first := (step_label zeroState here).symm.trans (enters.enters noCalls zeroState)
      simp only [Option.some.injEq, Prod.mk.injEq] at first
      omega
  · intro none_
    rw [none_] at ran
    have empty : nested = [] := by
      simp only [analyzeSubprogs, pure_eq_ok] at ran
      exact ran.2.2
    subst empty
    exact enters_of_returnsLast parts.returnsLast

/-- For every subprogram of an accepted program, control that arrives at its label executes its
own code, up to the return, just when the subprogram declares no subprograms. -/
theorem enters_iff (prog : AstProgram) (acx : Acx) (code : List Insn)
    (accepted : analyze prog = .ok (acx, code)) (path : List Nat) (d : AstSubdecl)
    (declared : prog.subprogAt path = some d) :
    ∃ start before inner retslot off nested own after, prog.Visits path d start before ∧
      Parts d start inner retslot off nested own ∧
      code = before ++ ([.global (.sub d.name), .label (.sub d.name)] ++ (nested ++ own) ++ after) ∧
      (Enters code (before.length + 1) (before.length + 2 + nested.length)
        (before.length + 2 + nested.length + own.length) ↔ d.subprogs = []) := by
  obtain ⟨start, before, inner, retslot, off, nested, own, after, visits, parts, rfl⟩ :=
    analyze_visits accepted declared
  exact ⟨start, before, inner, retslot, off, nested, own, after, visits, parts, rfl,
    parts.ownCode_iff⟩

-- procedure boo; procedure foo; begin end; begin foo end; begin boo end
def nestedProcedures : AstProgram where
  args := ["input", "output"]
  decls := []
  subprogs := [.mk ⟨.procedure, [], none⟩ "boo" []
    [.mk ⟨.procedure, [], none⟩ "foo" [] [] [] .null] [] (.stmts [.proc (astPath "foo") []])]
  types := []
  body := .stmts [.proc (astPath "boo") []]

theorem nestedProcedures_accepted : ∃ acx code, analyze nestedProcedures = .ok (acx, code) := by
  have accepted : (analyze nestedProcedures).toBool = true := by decide +kernel
  cases result : analyze nestedProcedures with
  | error s =>
    rw [result] at accepted
    cases accepted
  | ok r => exact ⟨r.1, r.2, rfl⟩

theorem nestedProcedures_enters : ∃ acx code, analyze nestedProcedures = .ok (acx, code) ∧
    ∃ start before inner retslot off nested own after,
      nestedProcedures.Visits [0, 0] (.mk ⟨.procedure, [], none⟩ "foo" [] [] [] .null) start before ∧
      Parts (.mk ⟨.procedure, [], none⟩ "foo" [] [] [] .null) start inner retslot off nested own ∧
      code = before ++ ([.global (.sub "foo"), .label (.sub "foo")] ++ (nested ++ own) ++ after) ∧
      (Enters code (before.length + 1) (before.length + 2 + nested.length)
        (before.length + 2 + nested.length + own.length) ↔ ([] : List AstSubdecl) = []) := by
  obtain ⟨acx, code, accepted⟩ := nestedProcedures_accepted
  exact ⟨acx, code, accepted, enters_iff nestedProcedures acx code accepted [0, 0] _ rfl⟩

-- The label of the outer procedure does not lead to its own code.
theorem not_forall_enters : ¬ ∀ (prog : AstProgram) (acx : Acx) (code : List Insn),
    analyze prog = .ok (acx, code) → ∀ (path : List Nat) (d : AstSubdecl),
      prog.subprogAt path = some d → ∀ start before inner retslot off nested own after,
        prog.Visits path d start before → Parts d start inner retslot off nested own →
        code = before ++ ([.global (.sub d.name), .label (.sub d.name)] ++ (nested ++ own) ++ after) →
          Enters code (before.length + 1) (before.length + 2 + nested.length)
            (before.length + 2 + nested.length + own.length) := by
  intro all
  obtain ⟨acx, code, accepted⟩ := nestedProcedures_accepted
  have declared : nestedProcedures.subprogAt [0] = some (.mk ⟨.procedure, [], none⟩ "boo" []
    [.mk ⟨.procedure, [], none⟩ "foo" [] [] [] .null] [] (.stmts [.proc (astPath "foo") []])) := rfl
  obtain ⟨start, before, inner, retslot, off, nested, own, after, visits, parts, rfl⟩ :=
    analyze_visits accepted declared
  have enters := all _ _ _ accepted _ _ declared _ _ _ _ _ _ _ after visits parts rfl
  cases parts.ownCode_iff.mp enters

end Dragon
