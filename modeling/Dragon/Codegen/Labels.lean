import Dragon.Codegen.Entry
import Dragon.Codegen.Printing

/-! Labels of the emitted file, with local labels attached as NASM does.

A local label belongs to the nearest non-local label before it. The code of the
subprograms nested in a subprogram stands between its label and its own code,
so the own code's labels are attached to the label of the last of them.
-/

set_option autoImplicit false

namespace Dragon

open Analysis Listings

/-! ## Definitions -/

/-- The name a label stands for: display@ is also the label of a subprogram called display. -/
def Label.symbol : Label → Label
  | .sub f => if f = "display" then .display else .sub f
  | l => l

/-- The non-local label that the lines after a line are attached to. -/
def scopeAfter (scope : Option Label) : Insn → Option Label
  | .label l => if l.isLocal then scope else some l.symbol
  | .reserve _ => some .display
  | _ => scope

def attached : Option Label → List Insn → List (Option Label × Insn)
  | _, [] => []
  | scope, i :: code => (scope, i) :: attached (scopeAfter scope i) code

def scopeEnd (scope : Option Label) (code : List Insn) : Option Label := code.foldl scopeAfter scope

/-- The label a line defines; a local one together with the label it is attached to. -/
def defines : Option Label × Insn → Option (Option Label × Label)
  | (scope, .label l) => some (if l.isLocal then scope else none, l.symbol)
  | (_, .reserve _) => some (none, .display)
  | _ => none

def definitions (scope : Option Label) (code : List Insn) : List (Option Label × Label) :=
  (attached scope code).filterMap defines

theorem attached_append (scope : Option Label) (first second : List Insn) :
    attached scope (first ++ second) = attached scope first ++ attached (scopeEnd scope first) second := by
  induction first generalizing scope with
  | nil => rfl
  | cons i first ih =>
    rw [List.cons_append, attached, attached, ih, List.cons_append]
    rfl

theorem scopeEnd_append (scope : Option Label) (first second : List Insn) :
    scopeEnd scope (first ++ second) = scopeEnd (scopeEnd scope first) second := List.foldl_append ..

theorem definitions_append (scope : Option Label) (first second : List Insn) :
    definitions scope (first ++ second) =
      definitions scope first ++ definitions (scopeEnd scope first) second := by
  rw [definitions, attached_append, List.filterMap_append]
  rfl

theorem attached_length (scope : Option Label) (code : List Insn) :
    (attached scope code).length = code.length := by
  induction code generalizing scope with
  | nil => rfl
  | cons i code ih => rw [attached, List.length_cons, List.length_cons, ih]

/-- A line that leaves what labels are attached to as it is. -/
def Insn.keepsScope : Insn → Bool
  | .label l => l.isLocal
  | .reserve _ => false
  | _ => true

theorem Insn.keepsScope_of_plain {i : Insn} (plain : i.plain = true) : i.keepsScope = true := by
  cases i <;> first | rfl | cases plain

theorem scopeAfter_of_keeps {i : Insn} (keeps : i.keepsScope = true) (scope : Option Label) :
    scopeAfter scope i = scope := by
  cases i with
  | label l =>
    have isLocal : l.isLocal = true := keeps
    simp [scopeAfter, isLocal]
  | reserve => cases keeps
  | _ => rfl

section
variable {code : List Insn} (keeps : ∀ i ∈ code, i.keepsScope = true) (scope : Option Label)
include keeps

theorem scopeEnd_of_keeps : scopeEnd scope code = scope := by
  induction code with
  | nil => rfl
  | cons i code ih =>
    rw [scopeEnd, List.foldl_cons, scopeAfter_of_keeps (keeps i List.mem_cons_self)]
    exact ih fun j member => keeps j (List.mem_cons_of_mem _ member)

theorem attached_of_keeps : attached scope code = code.map (scope, ·) := by
  induction code with
  | nil => rfl
  | cons i code ih =>
    rw [attached, scopeAfter_of_keeps (keeps i List.mem_cons_self), List.map_cons]
    rw [ih fun j member => keeps j (List.mem_cons_of_mem _ member)]

theorem definitions_of_keeps : definitions scope code = (labelsOf code).map (scope, ·) := by
  rw [definitions, attached_of_keeps keeps, labelsOf]
  induction code with
  | nil => rfl
  | cons i code ih =>
    have rest := ih fun j member => keeps j (List.mem_cons_of_mem _ member)
    have here := keeps i List.mem_cons_self
    rw [List.map_cons, List.filterMap_cons, List.filterMap_cons]
    cases i with
    | label l =>
      have isLocal : l.isLocal = true := here
      have symbol : l.symbol = l := by
        cases l <;> first | rfl | cases isLocal
      simp only [defines, isLocal, symbol, if_true, List.map_cons]
      rw [rest]
    | reserve => cases here
    | _ => exact rest

end

theorem line_of_definition {lines : List (Option Label × Insn)}
    (nodup : (lines.filterMap defines).Nodup) {p q : Nat} {a b : Option Label × Insn}
    {x : Option Label × Label} (here : lines[p]? = some a) (there : lines[q]? = some b)
    (first : defines a = some x) (second : defines b = some x) : p = q := by
  induction lines generalizing p q with
  | nil => simp at here
  | cons c lines ih =>
    have later : (lines.filterMap defines).Nodup :=
      nodup.sublist ((List.sublist_cons_self c lines).filterMap _)
    have fresh : ∀ (k : Nat) (d : Option Label × Insn), lines[k]? = some d → defines d = some x →
        defines c ≠ some x := by
      intro k d found again same
      rw [List.filterMap_cons, same] at nodup
      apply (List.nodup_cons.mp nodup).1
      exact List.mem_filterMap.mpr ⟨d, List.mem_of_getElem? found, again⟩
    cases p with
    | zero =>
      cases q with
      | zero => rfl
      | succ q =>
        cases here
        exact absurd first (fresh q b there second)
    | succ p =>
      cases q with
      | zero =>
        cases there
        exact absurd second (fresh p a here first)
      | succ q => exact congrArg (· + 1) (ih later here there)

/-! ## Statements -/

/-- The local labels of some lines: each once, with numbers from lo up to hi, and the first number
if there are any. -/
structure Numbered (labels : List Label) (lo hi : Nat) (any : Bool) : Prop where
  le : lo ≤ hi
  nodup : labels.Nodup
  between : ∀ l ∈ labels, ∃ k, l = .loc k ∧ lo ≤ k ∧ k < hi
  first : any = true → .loc lo ∈ labels
  none_ : any = false → labels = [] ∧ hi = lo

namespace Numbered

theorem nil (lo : Nat) : Numbered [] lo lo false :=
  ⟨Nat.le_refl lo, List.nodup_nil, fun _ member => (nomatch member), fun any => (nomatch any),
    fun _ => ⟨rfl, rfl⟩⟩

theorem append {labels labels' : List Label} {lo mid hi : Nat} {any any' : Bool}
    (one : Numbered labels lo mid any) (two : Numbered labels' mid hi any') :
    Numbered (labels ++ labels') lo hi (any || any') := by
  refine ⟨Nat.le_trans one.le two.le, ?_, ?_, ?_, ?_⟩
  · rw [List.nodup_append]
    refine ⟨one.nodup, two.nodup, ?_⟩
    rintro l member m member' rfl
    obtain ⟨k, rfl, -, below⟩ := one.between l member
    obtain ⟨k', same, above, -⟩ := two.between _ member'
    cases same
    omega
  · intro l member
    have le₁ := one.le
    have le₂ := two.le
    rcases List.mem_append.mp member with member | member
    · obtain ⟨k, same, low, high⟩ := one.between l member
      exact ⟨k, same, low, by omega⟩
    · obtain ⟨k, same, low, high⟩ := two.between l member
      exact ⟨k, same, by omega, high⟩
  · intro either
    cases any with
    | true => exact List.mem_append_left _ (one.first rfl)
    | false =>
      obtain ⟨rfl, rfl⟩ := one.none_ rfl
      exact two.first either
  · intro neither
    rw [Bool.or_eq_false_iff] at neither
    obtain ⟨rfl, rfl⟩ := one.none_ neither.1
    exact two.none_ neither.2

theorem pair {labels all : List Label} {lo hi : Nat} {any : Bool}
    (inside : Numbered labels (lo + 2) hi any) (perm : all.Perm (.loc lo :: .loc (lo + 1) :: labels)) :
    Numbered all lo hi true := by
  have le := inside.le
  have above : ∀ k, Label.loc k ∈ labels → lo + 2 ≤ k := by
    intro k member
    obtain ⟨k', same, low, -⟩ := inside.between _ member
    cases same
    exact low
  refine ⟨by omega, ?_, ?_, ?_, fun any => (nomatch any)⟩
  · rw [perm.nodup_iff, List.nodup_cons, List.nodup_cons]
    refine ⟨?_, ?_, inside.nodup⟩
    · intro member
      rcases List.mem_cons.mp member with same | member
      · have := Label.loc.inj same
        omega
      · have := above lo member
        omega
    · intro member
      have := above (lo + 1) member
      omega
  · intro l member
    rw [perm.mem_iff, List.mem_cons, List.mem_cons] at member
    rcases member with rfl | rfl | member
    · exact ⟨lo, rfl, by omega, by omega⟩
    · exact ⟨lo + 1, rfl, by omega, by omega⟩
    · obtain ⟨k, same, low, high⟩ := inside.between l member
      exact ⟨k, same, by omega, high⟩
  · intro _
    rw [perm.mem_iff]
    exact List.mem_cons_self

end Numbered

/-- A part's jumps go to its own labels, and there is no non-local label in the lines of a part that
jumps. -/
structure ClosedPart (part : Listing Insn) : Prop where
  closed : ∀ i ∈ part.own, ∀ l, i.target = some l → Insn.label l ∈ part.own
  kept : ∀ i ∈ part.own, i.target ≠ none → ∀ j ∈ part.text, j.keepsScope = true

mutual

/-- Whether a statement contains an if, a while or a for, the ones that print labels. -/
def AstStmt.labelled : AstStmt → Bool
  | .null | .assign .. | .proc .. => false
  | .foor .. | .ite .. | .wdo .. => true
  | .stmts body => anyLabelled body

def anyLabelled : List AstStmt → Bool
  | [] => false
  | s :: body => s.labelled || anyLabelled body

end

def StmtNode.labelled : StmtNode → Bool
  | .stmt s => s.labelled
  | .stmts body => anyLabelled body

/-- What is printed for statements. -/
structure StmtListing (all : Listing Insn) (lo hi : Nat) (any : Bool) : Prop where
  keeps : ∀ i ∈ all.text, i.keepsScope = true
  numbered : Numbered (labelsOf all.text) lo hi any
  parts : all.All ClosedPart

theorem ClosedPart.of_keeps {part : Listing Insn} (keeps : ∀ i ∈ part.text, i.keepsScope = true)
    (closed : ∀ i ∈ part.own, ∀ l, i.target = some l → Insn.label l ∈ part.own) : ClosedPart part :=
  ⟨closed, fun _ _ _ => keeps⟩

theorem target_of_plain {i : Insn} (plain : i.plain = true) : i.target = none := by
  cases i <;> first | rfl | cases plain

theorem StmtListing.of_plain {code : List Insn} (plain : ∀ i ∈ code, i.plain = true) (lo : Nat) :
    StmtListing (.last code) lo lo false := by
  have keeps : ∀ i ∈ code, i.keepsScope = true := fun i member => Insn.keepsScope_of_plain (plain i member)
  refine ⟨keeps, ?_, ⟨.of_keeps keeps ?_, trivial⟩⟩
  · have none_ : labelsOf (Listing.last code).text = [] := labelsOf_plain plain
    rw [none_]
    exact .nil lo
  · intro i member l jumps
    rw [target_of_plain (plain i member)] at jumps
    cases jumps

theorem StmtListing.cons {one rest : Listing Insn} {lo mid hi : Nat} {any any' : Bool}
    (first : StmtListing one lo mid any) (later : StmtListing rest mid hi any') :
    StmtListing (.step [] one rest) lo hi (any || any') := by
  have text : (Listing.step [] one rest).text = one.text ++ rest.text := List.nil_append _
  have keeps : ∀ i ∈ (Listing.step [] one rest).text, i.keepsScope = true := by
    rw [text, List.forall_mem_append]
    exact ⟨first.keeps, later.keeps⟩
  refine ⟨keeps, ?_, ?_⟩
  · rw [text, labelsOf_append]
    exact first.numbered.append later.numbered
  · exact ⟨.of_keeps keeps later.parts.self.closed,
      ⟨⟨first.parts.self, first.parts.inside⟩, later.parts.inside⟩⟩

theorem StmtListing.pair {all : Listing Insn} {labels : List Label} {lo hi : Nat} {any : Bool}
    (inside : Numbered labels (lo + 2) hi any) (parts : all.AllInside ClosedPart)
    (keeps : ∀ i ∈ all.text, i.keepsScope = true)
    (text : (labelsOf all.text).Perm (labelsOf all.own ++ labels))
    (own : (labelsOf all.own).Perm [.loc lo, .loc (lo + 1)])
    (targets : ∀ i ∈ all.own, ∀ l, i.target = some l → l ∈ [Label.loc lo, .loc (lo + 1)]) :
    StmtListing all lo hi true := by
  refine ⟨keeps, inside.pair (text.trans (own.append_right labels)), ⟨.of_keeps keeps ?_, parts⟩⟩
  intro i member l jumps
  apply mem_labelsOf.mp
  exact own.mem_iff.mpr (targets i member l jumps)

theorem keeps_of_plain {code : List Insn} (plain : ∀ i ∈ code, i.plain = true) :
    ∀ i ∈ code, i.keepsScope = true := fun i member => Insn.keepsScope_of_plain (plain i member)

theorem no_target_of_plain {code : List Insn} {labels : List Label}
    (plain : ∀ i ∈ code, i.plain = true) : ∀ i ∈ code, ∀ l, i.target = some l → l ∈ labels := by
  intro i member l jumps
  rw [target_of_plain (plain i member)] at jumps
  cases jumps

theorem analyzeStmt_assign_plain {lvalue rvalue : AstExpr} {acx acx' : Acx} {code : List Insn}
    (run : analyzeStmt (.assign lvalue rvalue) acx = .ok ((), acx', code)) :
    acx'.label = acx.label ∧ ∀ i ∈ code, i.plain = true := by
  cases analyzeStmt_run _ run with
  | assign left target right _ first second =>
    subst first second
    obtain ⟨b, rfl⟩ := target.assigned
    refine ⟨right.label.trans left.label, ?_⟩
    intro i member
    simp only [List.mem_append, List.mem_singleton] at member
    rcases member with member | member | rfl | member | member
    · exact left.plain trivial i member
    · exact right.plain trivial i member
    · rfl
    · exact RegisterSet.takeitback_plain _ _ i member
    · exact RegisterSet.takeitback_plain _ _ i member

theorem analyzeStmt_proc_plain {p : AstPath} {args : List AstExpr} {acx acx' : Acx} {code : List Insn}
    (run : analyzeStmt (.proc p args) acx = .ok ((), acx', code)) :
    acx'.label = acx.label ∧ ∀ i ∈ code, i.plain = true := by
  cases analyzeStmt_run _ run with
  | proc call =>
    refine ⟨call.label, ?_⟩
    intro i member
    rcases List.mem_append.mp member with member | member
    · exact call.plain trivial i member
    · exact RegisterSet.takeitback_plain _ _ i member

theorem typeOfPath_plain {p : AstPath} {rv : Bool} {acx acx' : Acx} {r : Resu} {code : List Insn}
    (path : typeOfPath p rv acx = .ok (r, acx', code)) :
    acx'.label = acx.label ∧ ∀ i ∈ code, i.plain = true := by
  obtain ⟨v, acx₁, lines, run, -, rfl, rfl⟩ := typeOfPath_run path
  refine ⟨congrArg (fun f => f.2.2) run.fixed, ?_⟩
  intro i member
  rcases List.mem_append.mp member with member | member
  · exact RegisterSet.gimme_plain _ i member
  · exact run.path.plain _ i member

theorem Prints.listing {node : StmtNode} {acx acx' : Acx} {all : Listing Insn}
    (prints : Prints node acx acx' all) : StmtListing all acx.label acx'.label node.labelled := by
  induction prints with
  | null => exact .of_plain (by simp) _
  | assign run =>
    obtain ⟨same, plain⟩ := analyzeStmt_assign_plain run
    rw [same]
    exact .of_plain plain _
  | proc run =>
    obtain ⟨same, plain⟩ := analyzeStmt_proc_plain run
    rw [same]
    exact .of_plain plain _
  | stmts _ ih => exact ih
  | nil => exact .of_plain (by simp) _
  | cons _ _ ih₁ ih₂ => exact ih₁.cons ih₂
  | @foor id start finish body acx acx₁ acx₂ acx₃ acx₄ acx₅ acx₆ sty ety ity st code₁ code₂ code₃ inside
      first last path _ back back' _ ih =>
    have plain₁ := (analyzeExpr_run _ first).plain trivial
    have plain₂ := (analyzeExpr_run _ last).plain trivial
    obtain ⟨label, plain₃⟩ := typeOfPath_plain path
    have plain₄ := RegisterSet.takeitback_plain acx₄.rs ety.reg
    have plain₅ := RegisterSet.takeitback_plain acx₅.rs sty.reg
    have number : acx.label = acx₃.label :=
      (label.trans ((analyzeExpr_run _ last).label.trans (analyzeExpr_run _ first).label)).symm
    subst back back'
    have numbered : Numbered (labelsOf inside.text) (acx₃.label + 2) acx₄.label body.labelled :=
      ih.numbered
    rw [number]
    apply StmtListing.pair numbered
    · exact ⟨⟨ih.parts.self, ih.parts.inside⟩, trivial⟩
    · simp only [Listing.text, List.forall_mem_append]
      refine ⟨⟨keeps_of_plain plain₁, keeps_of_plain plain₂, keeps_of_plain plain₃, ?_⟩, ih.keeps, ?_,
        keeps_of_plain plain₄, keeps_of_plain plain₅⟩
      · simp [Insn.keepsScope, Label.isLocal]
      · simp [Insn.keepsScope, Label.isLocal]
    · simp only [Listing.text, Listing.own, labelsOf_append, List.append_assoc]
      rw [List.perm_iff_count]
      intro l
      simp only [List.count_append]
      omega
    · simp only [Listing.own, labelsOf_append, labelsOf_plain plain₁, labelsOf_plain plain₂,
        labelsOf_plain plain₃, labelsOf_plain plain₄, labelsOf_plain plain₅]
      exact List.Perm.refl _
    · simp only [Listing.own, List.forall_mem_append]
      refine ⟨⟨no_target_of_plain plain₁, no_target_of_plain plain₂, no_target_of_plain plain₃, ?_⟩, ?_,
        no_target_of_plain plain₄, no_target_of_plain plain₅⟩
      · simp [Insn.target]
      · simp [Insn.target]
  | @ite cond thenn elze acx acx₁ acx₂ acx₃ cty code yes no test _ _ ih₁ ih₂ =>
    have plain := (analyzeExpr_run _ test).plain trivial
    have back := RegisterSet.takeitback_plain acx₁.rs cty.reg
    have number : acx.label = acx₁.label := (analyzeExpr_run _ test).label.symm
    rw [number]
    apply StmtListing.pair (ih₁.numbered.append ih₂.numbered)
    · exact ⟨⟨ih₁.parts.self, ih₁.parts.inside⟩, ⟨ih₂.parts.self, ih₂.parts.inside⟩, trivial⟩
    · simp only [Listing.text, List.forall_mem_append]
      refine ⟨⟨keeps_of_plain plain, ?_, keeps_of_plain back⟩, ih₁.keeps, ?_, ih₂.keeps, ?_⟩
      · simp [Insn.keepsScope]
      · simp [Insn.keepsScope, Label.isLocal]
      · simp [Insn.keepsScope, Label.isLocal]
    · simp only [Listing.text, Listing.own, labelsOf_append, List.append_assoc]
      rw [List.perm_iff_count]
      intro l
      simp only [List.count_append]
      omega
    · simp only [Listing.own, labelsOf_append, labelsOf_plain plain, labelsOf_plain back]
      exact List.Perm.refl _
    · simp only [Listing.own, List.forall_mem_append]
      refine ⟨⟨no_target_of_plain plain, ?_, no_target_of_plain back⟩, ?_, ?_⟩
      · simp [Insn.target]
      · simp [Insn.target]
      · simp [Insn.target]
  | @wdo cond body acx acx₁ acx₂ cty code inside test _ ih =>
    have plain := (analyzeExpr_run _ test).plain trivial
    have back := RegisterSet.takeitback_plain acx₁.rs cty.reg
    have number : acx₁.label = acx.label + 2 := (analyzeExpr_run _ test).label
    have numbered : Numbered (labelsOf inside.text) (acx.label + 2) acx₂.label body.labelled :=
      number ▸ ih.numbered
    apply StmtListing.pair numbered
    · exact ⟨⟨ih.parts.self, ih.parts.inside⟩, trivial⟩
    · simp only [Listing.text, List.forall_mem_append]
      refine ⟨⟨?_, keeps_of_plain plain, ?_, keeps_of_plain back⟩, ih.keeps, ?_⟩
      · simp [Insn.keepsScope, Label.isLocal]
      · simp [Insn.keepsScope]
      · simp [Insn.keepsScope, Label.isLocal]
    · simp only [Listing.text, Listing.own, labelsOf_append, List.append_assoc]
      rw [List.perm_iff_count]
      intro l
      simp only [List.count_append]
      omega
    · simp only [Listing.own, labelsOf_append, labelsOf_plain plain, labelsOf_plain back]
      exact List.Perm.refl _
    · simp only [Listing.own, List.forall_mem_append]
      refine ⟨⟨?_, no_target_of_plain plain, ?_, no_target_of_plain back⟩, ?_⟩
      · simp [Insn.target]
      · simp [Insn.target]
      · simp [Insn.target]

/-! ## Subprograms -/

mutual

def AstSubdecl.names : AstSubdecl → List Name
  | .mk _ name _ subprogs _ _ => name :: subprogNames subprogs

def subprogNames : List AstSubdecl → List Name
  | [] => []
  | d :: subprogs => d.names ++ subprogNames subprogs

end

mutual

/-- Whether local labels are printed after the last non-local label of a subprogram's code: its own,
or those there in the code of the last subprogram nested in it. -/
def AstSubdecl.tail : AstSubdecl → Bool
  | .mk _ _ _ subprogs _ body => body.labelled || tailLabelled subprogs

def tailLabelled : List AstSubdecl → Bool
  | [] => false
  | d :: subprogs => if subprogs.isEmpty then d.tail else tailLabelled subprogs

end

mutual

/-- No body with labels follows, after the same non-local label, another one. -/
def AstSubdecl.regionsApart : AstSubdecl → Bool
  | .mk _ _ _ subprogs _ body => !(body.labelled && tailLabelled subprogs) && allRegionsApart subprogs

def allRegionsApart : List AstSubdecl → Bool
  | [] => true
  | d :: subprogs => d.regionsApart && allRegionsApart subprogs

end

namespace SubNode

def names : SubNode → List Name
  | sub d => d.names
  | subs subprogs => subprogNames subprogs

def tail : SubNode → Bool
  | sub d => d.tail
  | subs subprogs => tailLabelled subprogs

def regionsApart : SubNode → Bool
  | sub d => d.regionsApart
  | subs subprogs => allRegionsApart subprogs

end SubNode

def subSymbol (f : Name) : Label := (Label.sub f).symbol

theorem subSymbol_injective {f g : Name} (same : subSymbol f = subSymbol g) : f = g := by
  unfold subSymbol at same
  simp only [Label.symbol] at same
  by_cases first : f = "display"
  · by_cases second : g = "display"
    · rw [first, second]
    · rw [if_pos first, if_neg second] at same
      cases same
  · by_cases second : g = "display"
    · rw [if_neg first, if_pos second] at same
      cases same
    · rw [if_neg first, if_neg second] at same
      exact Label.sub.inj same

/-- What the code of subprograms defines, after a non-local label. -/
structure SubDefinitions (node : SubNode) (scope : Option Label) (code : List Insn) : Prop where
  globals : ∀ l, (none, l) ∈ definitions scope code ↔ ∃ f ∈ node.names, l = subSymbol f
  locals : ∀ s l, (some s, l) ∈ definitions scope code → ∃ f ∈ node.names, s = subSymbol f
  ending : (definitions scope code = [] ∧ scopeEnd scope code = scope) ∨
    ∃ f ∈ node.names, scopeEnd scope code = some (subSymbol f)
  tail : node.tail = true → (scopeEnd scope code, .loc 0) ∈ definitions scope code
  tail_of : node.names.Nodup → ∀ k, (scopeEnd scope code, Label.loc k) ∈ definitions scope code →
    node.tail = true
  nodup : (definitions scope code).Nodup ↔ node.names.Nodup ∧ node.regionsApart = true

theorem SubDefinitions.nil (scope : Option Label) : SubDefinitions (.subs []) scope [] where
  globals := by simp [definitions, attached, SubNode.names, subprogNames]
  locals := by simp [definitions, attached]
  ending := .inl ⟨rfl, rfl⟩
  tail := by simp [SubNode.tail, tailLabelled]
  tail_of := by simp [definitions, attached]
  nodup := by simp [definitions, attached, SubNode.names, subprogNames, SubNode.regionsApart, allRegionsApart]

theorem SubDefinitions.sub {head : AstSig} {name : Name} {decls : List AstDecls}
    {subprogs : List AstSubdecl} {types : List AstTypeDecl} {body : AstStmt} {scope : Option Label}
    {code nested : List Insn} {labels : List Label} {hi : Nat}
    (inside : SubDefinitions (.subs subprogs) (some (subSymbol name)) nested)
    (numbered : Numbered labels 0 hi body.labelled)
    (ends : scopeEnd scope code = scopeEnd (some (subSymbol name)) nested)
    (defs : definitions scope code = (none, subSymbol name) ::
      (definitions (some (subSymbol name)) nested ++
        labels.map (scopeEnd (some (subSymbol name)) nested, ·))) :
    SubDefinitions (.sub (.mk head name decls subprogs types body)) scope code := by
  have ending : ∃ f ∈ name :: subprogNames subprogs,
      scopeEnd (some (subSymbol name)) nested = some (subSymbol f) := by
    rcases inside.ending with ⟨-, same⟩ | ⟨f, member, same⟩
    · exact ⟨name, List.mem_cons_self, same⟩
    · exact ⟨f, List.mem_cons_of_mem _ member, same⟩
  obtain ⟨last, lastMember, lastScope⟩ := ending
  have own : ∀ {s : Option Label} {l : Label},
      (s, l) ∈ labels.map (scopeEnd (some (subSymbol name)) nested, ·) ↔
        s = some (subSymbol last) ∧ l ∈ labels := by
    intro s l
    rw [lastScope, List.mem_map]
    constructor
    · rintro ⟨m, member, same⟩
      cases same
      exact ⟨rfl, member⟩
    · rintro ⟨rfl, member⟩
      exact ⟨l, member, rfl⟩
  -- a label of the body in the region of nested code means labels on both sides
  have meets : subprogNames subprogs |>.Nodup → ∀ k, Label.loc k ∈ labels →
      (some (subSymbol last), Label.loc k) ∈ definitions (some (subSymbol name)) nested →
        (body.labelled && tailLabelled subprogs) = true := by
    intro distinct k member again
    rw [Bool.and_eq_true]
    constructor
    · by_contra unlabelled
      rw [(numbered.none_ (by simpa using unlabelled)).1] at member
      cases member
    · exact inside.tail_of distinct k (lastScope ▸ again)
  refine ⟨?_, ?_, .inr ⟨last, lastMember, ends.trans lastScope⟩, ?_, ?_, ?_⟩
  · intro l
    rw [defs, List.mem_cons, List.mem_append, inside.globals, own]
    simp only [SubNode.names, AstSubdecl.names, List.mem_cons, Prod.mk.injEq, true_and, reduceCtorEq,
      false_and, or_false]
    constructor
    · rintro (rfl | ⟨f, member, rfl⟩)
      · exact ⟨name, .inl rfl, rfl⟩
      · exact ⟨f, .inr member, rfl⟩
    · rintro ⟨f, rfl | member, rfl⟩
      · exact .inl rfl
      · exact .inr ⟨f, member, rfl⟩
  · intro s l member
    rw [defs, List.mem_cons, List.mem_append, own] at member
    rcases member with same | member | ⟨same, -⟩
    · cases same
    · obtain ⟨f, inner, rfl⟩ := inside.locals s l member
      exact ⟨f, List.mem_cons_of_mem _ inner, rfl⟩
    · cases same
      exact ⟨last, lastMember, rfl⟩
  · intro labelled
    rw [ends, defs, List.mem_cons, List.mem_append, own]
    simp only [SubNode.tail, AstSubdecl.tail, Bool.or_eq_true] at labelled
    rcases labelled with labelled | labelled
    · exact .inr (.inr ⟨lastScope, numbered.first labelled⟩)
    · exact .inr (.inl (inside.tail labelled))
  · intro distinct k member
    rw [ends, defs, List.mem_cons, List.mem_append, own] at member
    simp only [SubNode.tail, AstSubdecl.tail, Bool.or_eq_true]
    simp only [SubNode.names, AstSubdecl.names, List.nodup_cons] at distinct
    rcases member with same | member | ⟨-, member⟩
    · cases lastScope.symm.trans (congrArg Prod.fst same)
    · exact .inr (inside.tail_of distinct.2 k member)
    · left
      by_contra unlabelled
      rw [(numbered.none_ (by simpa using unlabelled)).1] at member
      cases member
  · have mapNodup : (labels.map (scopeEnd (some (subSymbol name)) nested, ·)).Nodup :=
      numbered.nodup.map fun a b same => congrArg Prod.snd same
    have first : (none, subSymbol name) ∉ definitions (some (subSymbol name)) nested ++
        labels.map (scopeEnd (some (subSymbol name)) nested, ·) ↔ name ∉ subprogNames subprogs := by
      rw [List.mem_append, inside.globals, own]
      simp only [reduceCtorEq, false_and, or_false, SubNode.names, not_iff_not]
      constructor
      · rintro ⟨f, member, same⟩
        rwa [subSymbol_injective same]
      · intro member
        exact ⟨name, member, rfl⟩
    rw [defs, List.nodup_cons, first, List.nodup_append, inside.nodup]
    simp only [SubNode.names, AstSubdecl.names, SubNode.regionsApart, AstSubdecl.regionsApart,
      List.nodup_cons, Bool.and_eq_true, Bool.not_eq_true']
    constructor
    · rintro ⟨fresh, ⟨distinct, inner⟩, -, disjoint⟩
      refine ⟨⟨fresh, distinct⟩, ?_, inner⟩
      by_contra both
      rw [Bool.not_eq_false, Bool.and_eq_true] at both
      have one := inside.tail both.2
      have two := own.mpr ⟨lastScope, numbered.first both.1⟩
      exact disjoint _ one _ two rfl
    · rintro ⟨⟨fresh, distinct⟩, apart, inner⟩
      refine ⟨fresh, ⟨distinct, inner⟩, mapNodup, ?_⟩
      rintro ⟨s, l⟩ member x member' rfl
      obtain ⟨rfl, inLabels⟩ := own.mp member'
      obtain ⟨k, rfl, -, -⟩ := numbered.between l inLabels
      rw [meets distinct k inLabels member] at apart
      cases apart

theorem exists_subprogName {subprogs : List AstSubdecl} (some_ : subprogs ≠ []) :
    ∃ f, f ∈ subprogNames subprogs := by
  cases subprogs with
  | nil => exact absurd rfl some_
  | cons d subprogs =>
    cases d with
    | mk _ name _ _ _ _ => exact ⟨name, by simp [subprogNames, AstSubdecl.names]⟩

theorem SubDefinitions.cons {d : AstSubdecl} {subprogs : List AstSubdecl} {scope : Option Label}
    {code rest : List Insn} (one : SubDefinitions (.sub d) scope code)
    (later : SubDefinitions (.subs subprogs) (scopeEnd scope code) rest) :
    SubDefinitions (.subs (d :: subprogs)) scope (code ++ rest) := by
  have names : SubNode.names (.subs (d :: subprogs)) = d.names ++ subprogNames subprogs := by
    simp [SubNode.names, subprogNames]
  have inFirst : ∀ {s : Option Label} {l : Label}, (s, l) ∈ definitions scope code →
      ∃ f ∈ d.names, s = none ∧ l = subSymbol f ∨ s = some (subSymbol f) := by
    intro s l member
    cases s with
    | none =>
      obtain ⟨f, inside, same⟩ := (one.globals l).mp member
      exact ⟨f, inside, .inl ⟨rfl, same⟩⟩
    | some s =>
      obtain ⟨f, inside, same⟩ := one.locals s l member
      exact ⟨f, inside, .inr (congrArg some same)⟩
  have inLater : ∀ {s : Option Label} {l : Label}, (s, l) ∈ definitions (scopeEnd scope code) rest →
      ∃ f ∈ subprogNames subprogs, s = none ∧ l = subSymbol f ∨ s = some (subSymbol f) := by
    intro s l member
    cases s with
    | none =>
      obtain ⟨f, inside, same⟩ := (later.globals l).mp member
      exact ⟨f, inside, .inl ⟨rfl, same⟩⟩
    | some s =>
      obtain ⟨f, inside, same⟩ := later.locals s l member
      exact ⟨f, inside, .inr (congrArg some same)⟩
  refine ⟨?_, ?_, ?_, ?_, ?_, ?_⟩
  · intro l
    rw [definitions_append, List.mem_append, one.globals, later.globals, names]
    simp only [SubNode.names, List.mem_append, or_and_right, exists_or]
  · intro s l member
    rw [definitions_append, List.mem_append] at member
    rw [names]
    rcases member with member | member
    · obtain ⟨f, inside, same⟩ := one.locals s l member
      exact ⟨f, List.mem_append_left _ inside, same⟩
    · obtain ⟨f, inside, same⟩ := later.locals s l member
      exact ⟨f, List.mem_append_right _ inside, same⟩
  · rw [definitions_append, scopeEnd_append, names]
    rcases later.ending with ⟨none_, same⟩ | ⟨f, inside, same⟩
    · rw [none_, same, List.append_nil]
      rcases one.ending with still | ⟨f, inside, same⟩
      · exact .inl still
      · exact .inr ⟨f, List.mem_append_left _ inside, same⟩
    · exact .inr ⟨f, List.mem_append_right _ inside, same⟩
  · intro labelled
    rw [definitions_append, scopeEnd_append, List.mem_append]
    cases subprogs with
    | nil =>
      rcases later.ending with ⟨-, same⟩ | ⟨f, inside, -⟩
      · rw [same]
        exact .inl (one.tail (by simpa [SubNode.tail, tailLabelled] using labelled))
      · cases inside
    | cons e subprogs =>
      exact .inr (later.tail (by simpa [SubNode.tail, tailLabelled] using labelled))
  · intro distinct k member
    rw [names, List.nodup_append] at distinct
    rw [definitions_append, scopeEnd_append, List.mem_append] at member
    cases subprogs with
    | nil =>
      rcases later.ending with ⟨none_, same⟩ | ⟨f, inside, -⟩
      · rw [none_, same] at member
        have tail := one.tail_of distinct.1 k (member.resolve_right List.not_mem_nil)
        simpa [SubNode.tail, tailLabelled] using tail
      · cases inside
    | cons e subprogs =>
      have tail : SubNode.tail (.subs (e :: subprogs)) = true := by
        rcases member with member | member
        · rcases later.ending with ⟨none_, -⟩ | ⟨f, inside, same⟩
          · obtain ⟨f, inside⟩ := exists_subprogName (List.cons_ne_nil e subprogs)
            have defined := (later.globals _).mpr ⟨f, inside, rfl⟩
            rw [none_] at defined
            cases defined
          · -- the two subprograms would have the same name
            rw [same] at member
            obtain ⟨g, inside', same'⟩ := one.locals _ _ member
            exact absurd (subSymbol_injective same').symm (distinct.2.2 g inside' f inside)
        · exact later.tail_of distinct.2.1 k member
      simpa [SubNode.tail, tailLabelled] using tail
  · rw [definitions_append, List.nodup_append, one.nodup, later.nodup, names, List.nodup_append]
    simp only [SubNode.names, SubNode.regionsApart, allRegionsApart, Bool.and_eq_true]
    constructor
    · rintro ⟨⟨distinct₁, apart₁⟩, ⟨distinct₂, apart₂⟩, disjoint⟩
      refine ⟨⟨distinct₁, distinct₂, ?_⟩, apart₁, apart₂⟩
      rintro f first g second rfl
      exact disjoint _ ((one.globals _).mpr ⟨f, first, rfl⟩) _ ((later.globals _).mpr ⟨f, second, rfl⟩) rfl
    · rintro ⟨⟨distinct₁, distinct₂, disjoint⟩, apart₁, apart₂⟩
      refine ⟨⟨distinct₁, apart₁⟩, ⟨distinct₂, apart₂⟩, ?_⟩
      rintro ⟨s, l⟩ first x second rfl
      obtain ⟨f, inside, one_⟩ := inFirst first
      obtain ⟨g, inside', two_⟩ := inLater second
      apply disjoint f inside g inside'
      apply subSymbol_injective
      rcases one_ with ⟨rfl, rfl⟩ | rfl
      · rcases two_ with ⟨-, same⟩ | same
        · exact same
        · cases same
      · rcases two_ with ⟨same, -⟩ | same
        · cases same
        · exact Option.some.inj same

theorem prologue_lines {off : Int} {acx acx' : Acx} {captured : List StabVar} {code : List Insn}
    (run : prologue off acx = .ok (captured, acx', code)) :
    acx' = acx ∧ labelsOf code = [] ∧ ∀ i ∈ code, i.keepsScope = true ∧ i.target = none := by
  -- the lines around a subprogram's body name nothing and jump nowhere
  obtain ⟨rfl, -, rfl⟩ := prologue_run run
  have plain : ∀ i ∈ Insn.subImm .rsp (off - abiPointerSize) :: captured.flatMap saveLines,
      i.plain = true := by
    intro i member
    rcases List.mem_cons.mp member with rfl | member
    · rfl
    · exact saveLines_plain captured i member
  exact ⟨rfl, labelsOf_plain plain, fun i member =>
    ⟨Insn.keepsScope_of_plain (plain i member), target_of_plain (plain i member)⟩⟩

theorem epilogue_lines {retslot : Index} {off : Int} {captured : List StabVar} {acx acx' : Acx}
    {code : List Insn} (run : epilogue retslot off captured acx = .ok ((), acx', code)) :
    acx' = acx ∧ labelsOf code = [] ∧ ∀ i ∈ code, i.keepsScope = true ∧ i.target = none := by
  obtain ⟨slot, rfl, -, rfl⟩ := epilogue_run run
  have plain := epilogueOpen_plain acx'.rs acx'.currentFuncType slot off captured
  rw [epilogueLines_eq]
  refine ⟨rfl, ?_, ?_⟩
  · rw [labelsOf_append, labelsOf_plain plain]
    rfl
  · intro i member
    rcases List.mem_append.mp member with member | member
    · exact ⟨Insn.keepsScope_of_plain (plain i member), target_of_plain (plain i member)⟩
    · rw [List.mem_singleton.mp member]
      exact ⟨rfl, rfl⟩

theorem ClosedPart.of_no_target {part : Listing Insn} (none_ : ∀ i ∈ part.own, i.target = none) :
    ClosedPart part := by
  constructor
  · intro i member l jumps
    rw [none_ i member] at jumps
    cases jumps
  · intro i member jumps
    exact absurd (none_ i member) jumps

theorem SubPrints.listing {node : SubNode} {acx acx' : Acx} {all : Listing Insn}
    (prints : SubPrints node acx acx' all) :
    acx'.label = acx.label ∧ all.All ClosedPart ∧
      (match node with | .subs _ => ∀ i ∈ all.own, i.target = none | .sub _ => True) ∧
      ∀ scope, SubDefinitions node scope all.text := by
  induction prints with
  | nil => exact ⟨rfl, ⟨.of_no_target (by simp [Listing.own]), trivial⟩, by simp [Listing.own], .nil⟩
  | cons added first later ih₁ ih₂ =>
    obtain ⟨label₁, parts₁, -, defs₁⟩ := ih₁
    obtain ⟨label₂, parts₂, quiet, defs₂⟩ := ih₂
    refine ⟨label₂.trans label₁, ⟨.of_no_target quiet, ⟨⟨parts₁.self, parts₁.inside⟩, parts₂.inside⟩⟩,
      quiet, fun scope => ?_⟩
    exact (defs₁ scope).cons (defs₂ _)
  | @sub head name decls subprogs types body acx acx₁ acx₂ acx₃ acx₄ acx₅ acx₆ retslot off captured opening
      code₁ code₂ nested inside opened subs saved run assigned restored closed ih =>
    obtain ⟨label, parts, quiet, defs⟩ := ih
    have listing := run.listing
    obtain ⟨st, -, rfl, rfl⟩ := openSubprog_eq_ok.mp opened
    obtain ⟨rfl, noLabels₁, lines₁⟩ := prologue_lines saved
    obtain ⟨rfl, noLabels₂, lines₂⟩ := epilogue_lines restored
    obtain ⟨st', -, rfl, -⟩ := closeSubprog_eq_ok.mp closed
    have zero : acx₃.label = 0 := label
    rw [zero] at listing
    -- the own code stands after the label the nested code ends with
    have ownKeeps : ∀ i ∈ code₁ ++ (inside.text ++ code₂), i.keepsScope = true := by
      simp only [List.forall_mem_append]
      exact ⟨fun i member => (lines₁ i member).1, listing.keeps, fun i member => (lines₂ i member).1⟩
    have ownLabels : labelsOf (code₁ ++ (inside.text ++ code₂)) = labelsOf inside.text := by
      rw [labelsOf_append, labelsOf_append, noLabels₁, noLabels₂, List.nil_append, List.append_nil]
    refine ⟨rfl, ⟨.of_no_target ?_, ⟨⟨parts.self, parts.inside⟩, ⟨listing.parts.self,
      listing.parts.inside⟩, trivial⟩⟩, trivial, fun scope => ?_⟩
    · simp only [Listing.own, List.forall_mem_append]
      refine ⟨by simp [Insn.target], fun i member => (lines₁ i member).2,
        fun i member => (lines₂ i member).2⟩
    · refine .sub (defs (some (subSymbol name))) listing.numbered ?_ ?_
      · simp only [Listing.text]
        rw [scopeEnd_append, scopeEnd_append, scopeEnd_of_keeps ownKeeps]
        rfl
      · simp only [Listing.text]
        rw [definitions_append, definitions_append, definitions_of_keeps ownKeeps, ownLabels]
        rfl

/-! ## Programs -/

/-- In the file no label is defined twice, and every jump goes to the one definition of its label,
which is a line of the statement the jump is a line of. -/
structure LabelsRight (file : Listing Insn) : Prop where
  unique : (definitions none file.text).Nodup
  jumps : ∀ (p : Nat) tag i l, (file.tagged [] 0)[p]? = some (tag, i) → i.target = some l →
    ∃ (q : Nat) (scope : Option Label), (file.tagged [] 0)[q]? = some (tag, .label l) ∧
      (attached none file.text)[p]? = some (scope, i) ∧
      ∀ r : Nat, (attached none file.text)[r]? = some (scope, .label l) ↔ r = q

/-- The subprograms have different names, none of them is called display, and no body with an if, a
while or a for stands after the same non-local label as another one. -/
structure LabelsApart (prog : AstProgram) : Prop where
  names : (subprogNames prog.subprogs).Nodup
  display : "display" ∉ subprogNames prog.subprogs
  regions : allRegionsApart prog.subprogs = true

theorem ProgramPrints.listing {prog : AstProgram} {file : Listing Insn}
    (prints : ProgramPrints prog file) :
    file.All ClosedPart ∧ ∃ (labels : List Label) (lo hi : Nat) (any : Bool) (subs : List Insn),
      Numbered labels lo hi any ∧ SubDefinitions (.subs prog.subprogs) (some .display) subs ∧
      definitions none file.text = (none, .display) :: (definitions (some .display) subs ++
        (none, .main) :: labels.map (some .main, ·)) := by
  cases prints with
  | @program acx acx₁ acx₂ acx₃ off opening stores subs inside opened nested stored run =>
    obtain ⟨-, parts, -, defs⟩ := nested.listing
    have listing := run.listing
    have header_ : opening = header := by
      simp only [openProgram, emit_bind_eq_ok, withStab_bind_eq_ok, withStab_eq_ok] at opened
      obtain ⟨_, ⟨_, _, -, _, _, -, _, -, -, rfl⟩, same⟩ := opened
      rw [same, List.append_nil]
    subst header_
    obtain ⟨rfl, stores_⟩ := storeGlobals_run stored
    have plain : ∀ i ∈ stores, i.plain = true := by
      rw [stores_]
      intro i member
      obtain ⟨v, -, member⟩ := List.mem_flatMap.mp member
      simp only [storeLines, List.mem_append, List.mem_cons, List.not_mem_nil, or_false] at member
      rcases member with member | (rfl | rfl) | member
      · exact RegisterSet.gimme_plain _ i member
      · rfl
      · rfl
      · exact RegisterSet.takeitback_plain _ _ i member
    refine ⟨⟨.of_no_target ?_, ⟨⟨parts.self, parts.inside⟩, ⟨listing.parts.self, listing.parts.inside⟩,
      trivial⟩⟩, labelsOf inside.text, _, _, _, subs.text, listing.numbered, defs (some .display), ?_⟩
    · simp only [Listing.own, List.forall_mem_append]
      refine ⟨by simp [header, Insn.target], ⟨by simp [mainOpen, Insn.target],
        fun i member => target_of_plain (plain i member)⟩, by simp [exitCode, Insn.target]⟩
    · have mainKeeps : ∀ i ∈ stores ++ (inside.text ++ exitCode), i.keepsScope = true := by
        simp only [List.forall_mem_append]
        exact ⟨keeps_of_plain plain, listing.keeps, by simp [exitCode, Insn.keepsScope]⟩
      have labels : labelsOf (stores ++ (inside.text ++ exitCode)) = labelsOf inside.text := by
        have exit_ : labelsOf exitCode = [] := rfl
        rw [labelsOf_append, labelsOf_append, labelsOf_plain plain, exit_, List.nil_append,
          List.append_nil]
      have main : ∀ scope, definitions scope (mainOpen off) = [(none, .main)] ∧
          scopeEnd scope (mainOpen off) = some .main := fun _ => ⟨rfl, rfl⟩
      simp only [Listing.text, List.append_assoc]
      rw [definitions_append none header, definitions_append _ subs.text,
        definitions_append _ (mainOpen off), (main _).1, (main _).2, definitions_of_keeps mainKeeps,
        labels]
      rfl

theorem ProgramPrints.unique_iff {prog : AstProgram} {file : Listing Insn}
    (prints : ProgramPrints prog file) : (definitions none file.text).Nodup ↔ LabelsApart prog := by
  obtain ⟨-, labels, lo, hi, any, subs, numbered, defs, same⟩ := prints.listing
  have mains : (labels.map fun l => (some Label.main, l)).Nodup :=
    numbered.nodup.map fun a b same => congrArg Prod.snd same
  have display : ∀ f, Label.display = subSymbol f ↔ f = "display" := by
    intro f
    simp only [subSymbol, Label.symbol]
    split <;> simp_all
  have notMain : ∀ f, Label.main ≠ subSymbol f := by
    intro f
    simp only [subSymbol, Label.symbol]
    split <;> simp
  have fresh : (none, Label.display) ∉ definitions (some .display) subs ++
      (none, .main) :: labels.map (some .main, ·) ↔ "display" ∉ subprogNames prog.subprogs := by
    rw [List.mem_append, defs.globals, not_iff_not]
    simp only [display, SubNode.names, exists_eq_right, List.mem_cons, Prod.mk.injEq, reduceCtorEq,
      and_false, List.mem_map, false_and, exists_false, or_false]
  rw [same, List.nodup_cons, fresh, List.nodup_append, defs.nodup]
  constructor
  · rintro ⟨noDisplay, ⟨distinct, apart⟩, -, -⟩
    exact ⟨distinct, noDisplay, apart⟩
  · intro apart
    refine ⟨apart.display, ⟨apart.names, apart.regions⟩, ?_, ?_⟩
    · rw [List.nodup_cons]
      exact ⟨by simp, mains⟩
    · rintro ⟨s, l⟩ inside x main rfl
      rcases List.mem_cons.mp main with here | member
      · cases here
        obtain ⟨f, -, is⟩ := (defs.globals _).mp inside
        exact notMain f is
      · obtain ⟨m, -, is⟩ := List.mem_map.mp member
        cases is
        obtain ⟨f, -, is⟩ := defs.locals _ _ inside
        exact notMain f is

theorem attached_part {text before part after : List Insn} (split : text = before ++ (part ++ after))
    (keeps : ∀ i ∈ part, i.keepsScope = true) {p : Nat} {i : Insn} (low : before.length ≤ p)
    (high : p < before.length + part.length) (here : text[p]? = some i) :
    (attached none text)[p]? = some (scopeEnd none before, i) := by
  -- the lines of a part without non-local labels are all attached to the same label
  obtain ⟨k, rfl⟩ := Nat.exists_eq_add_of_le low
  have inside : k < part.length := by omega
  have line : part[k]? = some i := by
    rw [split, List.getElem?_append_right (by omega), Nat.add_sub_cancel_left,
      List.getElem?_append_left inside] at here
    exact here
  have small : k < (part.map fun j => (scopeEnd none before, j)).length := by
    rw [List.length_map]
    exact inside
  rw [split, attached_append, attached_append, attached_of_keeps keeps,
    List.getElem?_append_right (by rw [attached_length]; omega), attached_length,
    Nat.add_sub_cancel_left, List.getElem?_append_left small, List.getElem?_map, line]
  rfl

theorem ProgramPrints.jumps {prog : AstProgram} {file : Listing Insn}
    (prints : ProgramPrints prog file) (unique : (definitions none file.text).Nodup) :
    LabelsRight file := by
  refine ⟨unique, ?_⟩
  intro p tag i l here jumps
  obtain ⟨before, after, part, owner⟩ := prints.listing.1.owner here
  have split : file.text = before ++ (part.text ++ after) := by
    rw [← Listing.tagged_text file [] 0, owner.split]
  have keeps := owner.holds.kept i owner.line (by rw [jumps]; exact Option.some_ne_none l)
  have line : ∀ {q : Nat} {t : List Nat} {j : Insn}, (file.tagged [] 0)[q]? = some (t, j) →
      file.text[q]? = some j := by
    intro q t j found
    rw [← Listing.tagged_text file [] 0, List.getElem?_map, found]
    rfl
  obtain ⟨q, low, high, label⟩ := owner.others _ (owner.holds.closed i owner.line l jumps)
  have there := attached_part split keeps low high (line label)
  refine ⟨q, scopeEnd none before, label,
    attached_part split keeps owner.low owner.high (line here), fun r => ⟨?_, ?_⟩⟩
  · intro found
    exact line_of_definition unique found there rfl rfl
  · rintro rfl
    exact there

/-- The labels of an accepted program are right exactly when the names of its subprograms and the
regions of their bodies are apart. -/
theorem labelsRight_iff (prog : AstProgram) (acx : Acx) (code : List Insn)
    (accepted : analyze prog = .ok (acx, code)) :
    (∃ file, ProgramPrints prog file ∧ file.text = code) ∧
      ∀ file, ProgramPrints prog file → file.text = code →
        (LabelsRight file ↔ LabelsApart prog) := by
  refine ⟨analyze_prints accepted, ?_⟩
  intro file prints _
  constructor
  · intro right
    exact prints.unique_iff.mp right.unique
  · intro apart
    exact prints.jumps (prints.unique_iff.mpr apart)

-- Two procedures f, g in f: both with a loop in the body.
def loopsProgram : AstProgram where
  args := []
  decls := [⟨["x"], .boolean⟩]
  subprogs := [.mk ⟨.procedure, [], none⟩ "f" []
    [.mk ⟨.procedure, [], none⟩ "g" [] [] [] (.wdo (.path ⟨"x", []⟩) .null)] []
    (.wdo (.path ⟨"x", []⟩) .null)]
  types := []
  body := .null

theorem loopsProgram_accepted : ∃ acx code, analyze loopsProgram = .ok (acx, code) := by
  have accepted : (analyze loopsProgram).toOption.isSome = true := by decide +kernel
  obtain ⟨⟨acx, code⟩, result⟩ := exists_ok_of_isSome accepted
  exact ⟨acx, code, result⟩

theorem loopsProgram_labelsRight_iff : ∃ acx code, analyze loopsProgram = .ok (acx, code) ∧
    (∃ file, ProgramPrints loopsProgram file ∧ file.text = code) ∧
      ∀ file, ProgramPrints loopsProgram file → file.text = code →
        (LabelsRight file ↔ LabelsApart loopsProgram) := by
  obtain ⟨acx, code, accepted⟩ := loopsProgram_accepted
  exact ⟨acx, code, accepted, labelsRight_iff loopsProgram acx code accepted⟩

-- Not every accepted program has unique labels.
theorem not_forall_labelsRight : ¬ ∀ (prog : AstProgram) (acx : Acx) (code : List Insn),
    analyze prog = .ok (acx, code) →
      ∀ file, ProgramPrints prog file → file.text = code → LabelsRight file := by
  intro claim
  obtain ⟨acx, code, accepted⟩ := loopsProgram_accepted
  obtain ⟨file, prints, text⟩ := analyze_prints accepted
  have apart := prints.unique_iff.mp (claim _ _ _ accepted file prints text).unique
  exact absurd apart.regions (by decide)

end Dragon
