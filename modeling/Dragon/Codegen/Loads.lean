import Dragon.Codegen.Tables
import Dragon.Codegen.Lines
import Dragon.Symbol.Slots

/-! Where the display is read.

A load from the display is printed exactly when a variable is accessed through
its slot: a run prints a load for each slot it gives out, and loads only slots of
captured variables.
-/

set_option autoImplicit false

namespace Dragon

open Analysis

def displayLoads (code : List Insn) : List Int :=
  code.filterMap fun
    | .loadDisplay _ d => some d
    | _ => none

/-- The word of the display that a line names. -/
def Insn.displayed : Insn → Option Int
  | .loadDisplay _ d | .pushDisplay d | .storeDisplay d _ | .storeDisplayFrame d _ => some d
  | _ => none

def displayed (code : List Insn) : List Int := code.filterMap Insn.displayed

@[simp] theorem displayed_nil : displayed [] = [] := rfl

@[simp] theorem displayed_append (first second : List Insn) :
    displayed (first ++ second) = displayed first ++ displayed second := List.filterMap_append ..

@[simp] theorem displayLoads_nil : displayLoads [] = [] := rfl

theorem displayLoads_eq_nil {code : List Insn} (silent : displayed code = []) :
    displayLoads code = [] := by
  unfold displayed at silent
  unfold displayLoads
  rw [List.filterMap_eq_nil_iff] at silent ⊢
  intro i member
  have none_ := silent i member
  cases i <;> first | rfl | cases none_

@[simp] theorem displayLoads_append (first second : List Insn) :
    displayLoads (first ++ second) = displayLoads first ++ displayLoads second :=
  List.filterMap_append ..

/-- A run from one table to another, with the lines it prints. -/
structure Loaded (s t : Stab × Int) (code : List Insn) : Prop where
  steps : StabSteps s t
  fresh : ∀ k, s.2 ≤ k → k < t.2 → k * abiPointerAlign ∈ displayLoads code
  known : ∀ d ∈ displayLoads code,
    ∃ i v, stabVar t.1 i = some v ∧ v.captured = true ∧ d = v.dispOffset * abiPointerAlign

namespace Loaded

variable {s t u : Stab × Int} {code first second : List Insn}

theorem refl (s : Stab × Int) (silent : displayLoads code = []) : Loaded s s code := by
  refine ⟨.refl, fun k low high => absurd low (Int.not_le.mpr high), ?_⟩
  rw [silent]
  exact fun d member => absurd member List.not_mem_nil

theorem of_steps (steps : StabSteps s t) (same : s.2 = t.2) (silent : displayLoads code = []) :
    Loaded s t code := by
  refine ⟨steps, fun k low high => absurd low (Int.not_le.mpr (same ▸ high)), ?_⟩
  rw [silent]
  exact fun d member => absurd member List.not_mem_nil

theorem trans (one : Loaded s t first) (two : Loaded t u second) : Loaded s u (first ++ second) := by
  refine ⟨one.steps.trans two.steps, ?_, ?_⟩
  · intro k low high
    rw [displayLoads_append, List.mem_append]
    by_cases early : k < t.2
    · exact .inl (one.fresh k low early)
    · exact .inr (two.fresh k (Int.not_lt.mp early) high)
  · intro d member
    rw [displayLoads_append] at member
    rcases List.mem_append.mp member with member | member
    · obtain ⟨i, v, found, captured, same⟩ := one.known d member
      exact ⟨i, v, two.steps.kept found captured, captured, same⟩
    · exact two.known d member

theorem silent (one : Loaded s t first) (quiet : displayLoads second = []) :
    Loaded s t (first ++ second) := one.trans (.refl t quiet)

theorem after (one : Loaded s t second) (quiet : displayLoads first = []) :
    Loaded s t (first ++ second) := (refl s quiet).trans one

end Loaded

/-! ## Lines without the display -/

@[simp] theorem displayed_gimme (rs : RegisterSet) : displayed rs.gimme.2.2 = [] := by
  unfold RegisterSet.gimme
  cases rs.firstFree <;> rfl

@[simp] theorem displayLoads_gimme (rs : RegisterSet) : displayLoads rs.gimme.2.2 = [] :=
  displayLoads_eq_nil (displayed_gimme rs)

@[simp] theorem displayed_takeitback (rs : RegisterSet) (r : Reg) :
    displayed (rs.takeitback r).2 = [] := by
  unfold RegisterSet.takeitback
  split <;> rfl

@[simp] theorem displayLoads_takeitback (rs : RegisterSet) (r : Reg) :
    displayLoads (rs.takeitback r).2 = [] := displayLoads_eq_nil (displayed_takeitback rs r)

theorem displayed_map {line : Fin numRegs → Insn} (silent : ∀ i, (line i).displayed = none)
    (regs : List (Fin numRegs)) : displayed (regs.map line) = [] := by
  rw [displayed, List.filterMap_map]
  exact List.filterMap_eq_nil_iff.mpr fun i _ => silent i

theorem displayLoads_push (regs : List (Fin numRegs)) :
    displayLoads (regs.map fun i => .push (REGS i)) = [] :=
  displayLoads_eq_nil (displayed_map (fun _ => rfl) regs)

theorem displayed_binCode {op : Token} {l r : RegName} {lines : List Insn}
    (print : binCode op l r = .ok lines) : displayed lines = [] := by
  have relop : ∀ {t : Token}, (do
      let byte ← ihatex86 r.chars
      (.ok [.alu .cmp l r, .set (relopCond t) byte, .movzx l byte] : Except Stop (List Insn))) =
        .ok lines → displayed lines = [] := by
    intro t print
    obtain ⟨byte, -, same⟩ := except_bind_eq_ok.mp print
    cases same
    rfl
  cases op with
  | eq => exact @relop .eq print
  | neq => exact @relop .neq print
  | lt => exact @relop .lt print
  | gt => exact @relop .gt print
  | le => exact @relop .le print
  | ge => exact @relop .ge print
  | not => cases print
  | _ =>
    cases print
    rfl

@[simp] theorem displayed_finishCall (f : Name) (count : Nat) (rs : RegisterSet) :
    displayed (finishCall f count rs) = [] := by
  have entered : displayed (enterCall f count) = [] := by
    unfold enterCall
    split <;> rfl
  have pops := @displayed_map (fun i => .pop (REGS i)) fun _ => rfl
  unfold finishCall
  simp only [displayed_append, displayed_gimme, entered, pops]
  rfl

theorem displayed_findField {reg : Reg} {n : Name} {fields : List (Name × Index)} {offset : Int}
    {acx acx' : Acx} {ty : StabResolvedType} {code : List Insn}
    (run : findField reg n fields offset acx = .ok (ty, acx', code)) : displayed code = [] := by
  induction fields generalizing offset code with
  | nil => simp [findField] at run
  | cons field fields ih =>
    simp only [findField, get_bind_eq_ok, ofOption_bind_eq_ok] at run
    obtain ⟨t, -, run⟩ := run
    split at run
    · cases shape : t.ty <;>
        simp only [shape, ofOption_bind_eq_ok, emit_bind_eq_ok, pure_eq_ok] at run
      case pointer target =>
        obtain ⟨u, -, _, ⟨-, -, rfl⟩, rfl⟩ := run
        rfl
      all_goals
        obtain ⟨_, ⟨-, -, rfl⟩, rfl⟩ := run
        rfl
    · exact ih run

theorem displayed_fieldLoop {reg : Reg} {count : Nat} {first : Bool} {temp : List Name}
    {ty : StabResolvedType} {acx acx' : Acx} {u : Unit} {code : List Insn}
    (run : fieldLoop reg count first temp ty acx = .ok (u, acx', code)) :
    displayed code = [] := by
  induction count generalizing first temp ty acx code with
  | zero =>
    simp only [fieldLoop, pure_eq_ok] at run
    rw [run.2.2]
    rfl
  | succ count ih =>
    cases first with
    | true => exact ih run
    | false =>
      cases temp with
      | nil => simp [fieldLoop] at run
      | cons n next =>
        simp only [fieldLoop] at run
        split at run
        · exact ih run
        · cases ty <;> try simp at run
          rw [bind_eq_ok] at run
          obtain ⟨ty, acx₁, code₁, code₂, found, rest, rfl⟩ := run
          rw [displayed_append, displayed_findField found, ih rest]
          rfl

/-! ## Paths -/

theorem pathAddress_nonlocal {name : Name} {idx : Index} {reg : Reg} {acx acx' : Acx} {v : StabVar}
    {code : List Insn} (run : pathAddress name idx reg acx = .ok (v, acx', code))
    (nonlocal : stabHasLocalVar acx.st name = false) :
    stabVar acx'.st idx = some v ∧ v.captured = true ∧
      code = [.loadDisplay reg.name (v.dispOffset * abiPointerAlign)] ∧
        ∀ k, acx.dispOffset ≤ k → k < acx'.dispOffset → k = v.dispOffset := by
  simp only [pathAddress, get_bind_eq_ok, ofOption_bind_eq_ok] at run
  obtain ⟨w, found, run⟩ := run
  rw [if_pos nonlocal, bind_eq_ok] at run
  simp only [emit_bind_eq_ok, pure_eq_ok] at run
  obtain ⟨w', acx₁, code₁, _, captured, ⟨_, ⟨rfl, rfl, rfl⟩, rfl⟩, rfl⟩ := run
  unfold capture at captured
  split at captured
  next already =>
    cases captured
    exact ⟨found, already, rfl, fun k low high => absurd low (Int.not_le.mpr high)⟩
  next fresh =>
    cases captured
    refine ⟨?_, rfl, rfl, fun k low high => by simp only at high ⊢; omega⟩
    rw [stabVar_setVar (arenaGet_lt found).1 found, if_pos rfl]

theorem pathAddress_local {name : Name} {idx : Index} {reg : Reg} {acx acx' : Acx} {v : StabVar}
    {code : List Insn} (run : pathAddress name idx reg acx = .ok (v, acx', code))
    (isLocal : ¬ stabHasLocalVar acx.st name = false) :
    acx' = acx ∧ code = [.lea reg.name v.stackBaseOffset] := by
  simp only [pathAddress, get_bind_eq_ok, ofOption_bind_eq_ok] at run
  obtain ⟨w, found, run⟩ := run
  rw [if_neg isLocal] at run
  simp only [emit_bind_eq_ok, pure_eq_ok] at run
  obtain ⟨_, ⟨rfl, rfl, rfl⟩, rfl⟩ := run
  exact ⟨rfl, rfl⟩

theorem pathAddress_loaded {name : Name} {idx : Index} {reg : Reg} {acx acx' : Acx} {v : StabVar}
    {code : List Insn} (run : pathAddress name idx reg acx = .ok (v, acx', code)) :
    Loaded acx.table acx'.table code := by
  obtain ⟨v₀, found, used, -⟩ := pathAddress_run run
  have steps : StabSteps acx.table acx'.table := used ▸ Acx.use_steps found
  by_cases nonlocal : stabHasLocalVar acx.st name = false
  · obtain ⟨after, captured, rfl, only⟩ := pathAddress_nonlocal run nonlocal
    refine ⟨steps, ?_, ?_⟩
    · intro k low high
      rw [only k low high]
      exact List.mem_singleton_self _
    · intro d member
      exact ⟨idx, v, after, captured, List.mem_singleton.mp member⟩
  · obtain ⟨rfl, rfl⟩ := pathAddress_local run nonlocal
    exact .of_steps steps rfl rfl

theorem typeOfPath_loaded {p : AstPath} {rv : Bool} {acx acx' : Acx} {res : Resu}
    {code : List Insn} (run : typeOfPath p rv acx = .ok (res, acx', code)) :
    Loaded acx.table acx'.table code := by
  simp only [typeOfPath, get_bind_eq_ok] at run
  split at run
  · simp at run
  · rw [regGimme_bind_eq_ok] at run
    obtain ⟨_, run, rfl⟩ := run
    rw [bind_eq_ok] at run
    obtain ⟨v, acx₁, lines, _, address, run, rfl⟩ := run
    rw [ofOption_bind_eq_ok] at run
    obtain ⟨t, -, run⟩ := run
    rw [bind_eq_ok] at run
    obtain ⟨_, acx₂, lines₂, _, loop, run, rfl⟩ := run
    simp only [emit_bind_eq_ok, pure_eq_ok] at run
    obtain ⟨_, ⟨-, rfl, rfl⟩, rfl⟩ := run
    obtain ⟨rfl, -⟩ := fieldLoop_run loop
    have addressed : Loaded (acx.setRs acx.rs.gimme.2.1).table _ lines := pathAddress_loaded address
    apply Loaded.after _ (displayLoads_gimme _)
    apply addressed.silent
    rw [displayLoads_append, displayLoads_eq_nil (displayed_fieldLoop loop)]
    cases rv <;> rfl

theorem PathRun.loaded {p : AstPath} {rv : Bool} {acx acx' : Acx} {v : StabVar}
    {lines : RegName → List Insn} (path : PathRun p rv acx v acx' lines) :
    Loaded acx.table acx'.table (acx.rs.gimme.2.2 ++ lines acx.rs.gimme.1.name) :=
  @typeOfPath_loaded p rv acx (acx'.setRs acx.rs.gimme.2.1) _ _ path.accepted

/-! ## Expressions and statements -/

/-- The newline of a read is a call. -/
def Node.newlineSilent : Node → Prop
  | .reads newline _ => displayLoads newline = []
  | _ => True

theorem Run.loaded {node : Node} {acx acx' : Acx} {results : List Resu} {code : List Insn}
    (run : Run node acx results acx' code) (newline : node.newlineSilent) :
    Loaded acx.table acx'.table code := by
  induction run with
  | lit => exact .refl _ (by rw [displayLoads_append, displayLoads_gimme]; rfl)
  | path path => exact path.loaded
  | deref path _ _ => exact path.loaded.silent rfl
  | @idx _ _ rv _ _ _ _ _ _ _ _ _ _ _ path _ _ _ _ ih =>
    apply path.loaded.trans
    apply (ih trivial).silent
    cases rv <;> rfl
  | bin _ _ _ print ih₁ ih₂ =>
    apply (ih₁ trivial).trans
    apply (ih₂ trivial).silent
    rw [displayLoads_append, displayLoads_eq_nil (displayed_binCode print), displayLoads_takeitback]
    rfl
  | un _ _ _ ih => exact (ih trivial).silent rfl
  | app _ ih => exact ih trivial
  | @magic _ _ _ which _ _ _ _ _ _ _ ih =>
    apply (ih _).silent
    · cases which <;> rfl
    · cases which <;> trivial
  | call _ _ _ _ ih =>
    apply Loaded.after _ (displayLoads_push _)
    exact (ih trivial).silent (displayLoads_eq_nil (displayed_finishCall _ _ _))
  | noActuals => exact .refl _ rfl
  | @actual _ _ _ _ _ _ _ _ _ _ _ _ code₂ _ _ _ _ ih₁ ih₂ =>
    apply (ih₁ trivial).trans
    exact @Loaded.after _ _ [_] _ (ih₂ trivial) rfl
  | wrote => exact .refl _ rfl
  | write _ _ _ ih₁ ih₂ =>
    apply (ih₁ trivial).trans
    apply Loaded.after _ rfl
    exact Loaded.after (ih₂ trivial) (displayLoads_takeitback _ _)
  | read_ => exact .refl _ rfl
  | read _ _ _ _ ih₁ ih₂ =>
    apply (ih₁ trivial).trans
    apply Loaded.after
    · exact Loaded.after (ih₂ newline) (displayLoads_takeitback _ _)
    · rw [displayLoads_append, newline]
      rfl

theorem StmtRun.loaded {node : StmtNode} {acx acx' : Acx} {code : List Insn}
    (run : StmtRun node acx acx' code) : Loaded acx.table acx'.table code := by
  induction run with
  | null => exact .refl _ rfl
  | assign left target right _ first second =>
    subst first second
    apply (left.loaded trivial).trans
    have value := right.loaded trivial
    rw [target.table] at value
    apply value.silent
    rw [displayLoads_append, displayLoads_append, displayLoads_takeitback, displayLoads_takeitback]
    rfl
  | foor first last _ _ path _ _ back back' leave ih =>
    subst back back'
    apply (first.loaded trivial).trans
    apply (last.loaded trivial).trans
    apply path.loaded.trans
    apply Loaded.after _ rfl
    apply Loaded.after _ rfl
    have entered := (@Loaded.of_steps _ _ [] (.single .enter) rfl rfl).trans ih
    have left := entered.trans (@Loaded.of_steps _ _ [] (.single (.leave leave)) rfl rfl)
    rw [List.append_nil, List.nil_append] at left
    apply left.silent
    rw [displayLoads_append, displayLoads_append, displayLoads_takeitback, displayLoads_takeitback]
    rfl
  | ite test _ _ _ ih₁ ih₂ =>
    apply (test.loaded trivial).trans
    apply Loaded.after _ rfl
    apply Loaded.after _ (displayLoads_takeitback _ _)
    apply ih₁.trans
    apply Loaded.after _ rfl
    exact ih₂.silent rfl
  | proc call => exact (call.loaded trivial).silent (displayLoads_takeitback _ _)
  | stmts _ ih => exact ih
  | wdo test _ _ ih =>
    apply Loaded.after _ rfl
    apply (test.loaded trivial).trans
    apply Loaded.after _ rfl
    apply Loaded.after _ (displayLoads_takeitback _ _)
    exact ih.silent rfl
  | nil => exact .refl _ rfl
  | cons _ _ ih₁ ih₂ => exact ih₁.trans ih₂

/-! ## Subprograms -/

@[simp] theorem displayLoads_saveLines (captured : List StabVar) :
    displayLoads (captured.flatMap saveLines) = [] := by
  induction captured with
  | nil => rfl
  | cons v captured ih =>
    rw [List.flatMap_cons, displayLoads_append, ih]
    rfl

@[simp] theorem displayLoads_epilogue (rs : RegisterSet) (type : Subprogs) (slot : StabVar) (off : Int)
    (captured : List StabVar) : displayLoads (epilogueLines rs type slot off captured) = [] := by
  have restored : ∀ r, displayLoads (restoreDisplay captured r) = [] := by
    intro r
    unfold restoreDisplay
    induction (captured.drop 1).reverse with
    | nil => rfl
    | cons v rest ih =>
      rw [List.flatMap_cons, displayLoads_append, ih]
      rfl
  have copied : displayLoads (copyLines type slot rs) = [] := by
    unfold copyLines
    split
    · simp only [displayLoads_append, displayLoads_gimme, displayLoads_takeitback]
      rfl
    · rfl
  unfold epilogueLines
  simp only [displayLoads_append, displayLoads_gimme, displayLoads_takeitback, restored, copied]
  rfl

theorem OwnRun.loaded {retslot : Index} {off : Int} {body : AstStmt} {acx acx' : Acx}
    {captured : List StabVar} {bodyCode code : List Insn} {slot : StabVar}
    (own : OwnRun retslot off body acx acx' captured bodyCode slot code) :
    Loaded acx.table acx'.table code := by
  rw [own.code_eq]
  apply @Loaded.after _ _ [_] _ _ rfl
  apply Loaded.after _ (displayLoads_saveLines captured)
  exact own.run.loaded.silent (displayLoads_epilogue _ _ _ _ _)

theorem SubRun.loaded {node : SubNode} {acx acx' : Acx} {code : List Insn}
    (run : SubRun node acx acx' code) (sound : acx.st.Sound) : Loaded acx.table acx'.table code := by
  induction run with
  | @sub head name decls subprogs types body acx acx₁ acx₂ st st' _ _ _ _ _ _ _ opened _ own leave
      ih =>
    have steps : StabSteps acx.table (st, acx.dispOffset) := opened.table acx.dispOffset sound
    apply (Loaded.of_steps steps rfl rfl).trans
    apply (ih (steps.sound sound)).trans
    have left := own.loaded.trans (@Loaded.of_steps _ _ [] (.single (.leave leave)) rfl rfl)
    rw [List.append_nil] at left
    exact left
  | nil => exact .refl _ rfl
  | @cons d subprogs acx acx₁ acx₂ st code₁ _ added first _ ih₁ ih₂ =>
    have steps : StabSteps acx.table (st, acx.dispOffset) := stabAddFunc_steps acx.dispOffset sound added
    have one : Loaded acx.table acx₁.table code₁ :=
      (@Loaded.of_steps _ _ [] steps rfl rfl).trans (ih₁ (steps.sound sound))
    exact one.trans (ih₂ (one.steps.sound sound))

end Dragon
