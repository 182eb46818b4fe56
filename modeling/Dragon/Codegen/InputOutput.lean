import Dragon.Codegen.Procedures
import Dragon.Codegen.Subprograms

/-! The code of the input and output statements, and the routines of rt.s they call.

readln calls for a newline after each of its arguments, and none when it has no
argument. The header of the file declares two of the routines.
-/

set_option autoImplicit false

namespace Dragon

open Analysis Stab

namespace Magic

def verb : Magic → Name
  | .write | .writeln => "write"
  | .read | .readln => "read"

def byValue : Magic → Bool
  | .write | .writeln => true
  | .read | .readln => false

def newline : Magic → List Name
  | .writeln => ["write_newline"]
  | .readln => ["read_newline"]
  | .write | .read => []

def inLoop : Magic → List Insn
  | .readln => [.call "read_newline"]
  | .read | .write | .writeln => []

end Magic

/-- The lines for arguments in order: each is computed, pushed, passed to the routine for its type
and removed, then some lines follow, and its register is given back. The names are those of the
routines called. -/
inductive Visited (which : Magic) (inLoop : List Insn) :
    List AstExpr → Acx → List Insn → List Name → Acx → Prop where
  | nil {acx : Acx} : Visited which inLoop [] acx [] [] acx
  | cons {e : AstExpr} {args : List AstExpr} {acx acx₁ acx₂ : Acx} {r : Resu} {f : Name}
      {value code : List Insn} {fs : List Name}
      (run : analyzeExpr e which.byValue acx = .ok (r, acx₁, value))
      (callit : routine which.verb r.type = some f)
      (rest : Visited which inLoop args (acx₁.setRs (acx₁.rs.takeitback r.reg).1) code fs acx₂) :
      Visited which inLoop (e :: args) acx
        (value ++ ([.push r.reg.name, .call f, .addImm .rsp 8] ++ inLoop ++
          ((acx₁.rs.takeitback r.reg).2 ++ code))) (f :: fs) acx₂

theorem Run.visited_writes {node : Node} {acx acx' : Acx} {results : List Resu} {code : List Insn}
    (run : Run node acx results acx' code) :
    ∀ which args, Magic.byValue which = true → node = .writes args →
      ∃ fs, Visited which [] args acx code fs acx' := by
  induction run with
  | wrote =>
    intro which args value same
    cases same
    exact ⟨[], .nil⟩
  | @write e args acx acx₁ acx₂ r f results code₁ code₂ value callit _ _ ih =>
    intro which args' byValue same
    cases same
    obtain ⟨fs, rest⟩ := ih which args byValue rfl
    have run : analyzeExpr e which.byValue acx = .ok (r, acx₁, code₁) := byValue ▸ value.expr_accepted
    have verb : which.verb = "write" := by
      cases which with
      | write | writeln => rfl
      | read | readln => cases byValue
    have visited : Visited which [] (e :: args) acx _ (f :: fs) acx₂ := .cons run (verb ▸ callit) rest
    rw [List.append_nil] at visited
    exact ⟨f :: fs, visited⟩
  | _ =>
    intro which args value same
    cases same

theorem Run.visited_reads {node : Node} {acx acx' : Acx} {results : List Resu} {code : List Insn}
    (run : Run node acx results acx' code) :
    ∀ which args newline, Magic.byValue which = false → node = .reads newline args →
      ∃ fs, Visited which newline args acx code fs acx' := by
  induction run with
  | read_ =>
    intro which args newline value same
    cases same
    exact ⟨[], .nil⟩
  | @read newline e args acx acx₁ acx₂ r f results code₁ code₂ _ value callit _ _ ih =>
    intro which args' newline' byValue same
    cases same
    obtain ⟨fs, rest⟩ := ih which args newline byValue rfl
    have run : analyzeExpr e which.byValue acx = .ok (r, acx₁, code₁) := byValue ▸ value.expr_accepted
    have verb : which.verb = "read" := by
      cases which with
      | write | writeln => cases byValue
      | read | readln => rfl
    exact ⟨f :: fs, .cons run (verb ▸ callit) rest⟩
  | _ =>
    intro which args newline value same
    cases same

theorem Run.visited {which : Magic} {args : List AstExpr} {acx acx' : Acx} {results : List Resu}
    {code : List Insn} (run : Run (which.node args) acx results acx' code) :
    ∃ fs, Visited which which.inLoop args acx code fs acx' := by
  cases which with
  | write => exact run.visited_writes .write args rfl rfl
  | writeln => exact run.visited_writes .writeln args rfl rfl
  | read => exact run.visited_reads .read args _ rfl rfl
  | readln => exact run.visited_reads .readln args _ rfl rfl

section

variable {which : Magic} {inLoop inLoop' : List Insn} {args : List AstExpr} {acx acx' acx'' : Acx}
  {code code' : List Insn} {fs fs' : List Name}

theorem Visited.lengths (first : Visited which inLoop args acx code fs acx')
    (second : Visited which inLoop' args acx code' fs' acx'') :
    fs = fs' ∧ code.length + args.length * inLoop'.length =
      code'.length + args.length * inLoop.length := by
  -- the lines in the loop change nothing else
  induction first generalizing code' fs' with
  | nil =>
    cases second
    exact ⟨rfl, by simp⟩
  | cons run callit rest ih =>
    cases second with
    | cons run' callit' rest' =>
      cases run.symm.trans run'
      cases callit.symm.trans callit'
      obtain ⟨rfl, lengths⟩ := ih rest'
      refine ⟨rfl, ?_⟩
      simp only [List.length_append, List.length_cons, List.length_nil, Nat.add_mul, Nat.one_mul]
      omega

theorem takeitback_pops (rs : RegisterSet) (reg : Reg) :
    ∀ i ∈ (rs.takeitback reg).2, ∃ r, i = .pop r := by
  unfold RegisterSet.takeitback
  split
  · exact fun i member => absurd member List.not_mem_nil
  · intro i member
    exact ⟨reg.name, List.mem_singleton.mp member⟩

/-- The arguments are visited in order, and after the last one the newline routine is called once,
before or after its register is given back. -/
def ShapedAs (which : Magic) (args : List AstExpr) (acx : Acx) (code : List Insn) (fs : List Name)
    (acx' : Acx) : Prop :=
  ∃ before back, Visited which [] args acx (before ++ back) fs acx' ∧
    (∀ i ∈ back, ∃ r, i = .pop r) ∧ code = before ++ (which.newline.map .call ++ back)

theorem shaped_iff (visited : Visited which which.inLoop args acx code fs acx') :
    ShapedAs which args acx (code ++ which.finish) fs acx' ↔ (which = .readln → args.length = 1) := by
  constructor
  · rintro ⟨before, back, ordered, -, same⟩ readln
    subst readln
    obtain ⟨-, lengths⟩ := visited.lengths ordered
    have length := congrArg List.length same
    simp only [Magic.finish, Magic.newline, Magic.inLoop, List.length_append, List.length_cons,
      List.length_nil, List.map_cons, List.map_nil] at length lengths
    omega
  · intro one
    cases which with
    | write | read =>
      have silent : ∀ i ∈ ([] : List Insn), ∃ r, i = .pop r := fun i member =>
        absurd member List.not_mem_nil
      refine ⟨code, [], ?_, silent, rfl⟩
      rw [List.append_nil]
      exact visited
    | writeln =>
      refine ⟨code, [], ?_, fun i member => absurd member List.not_mem_nil, rfl⟩
      rw [List.append_nil]
      exact visited
    | readln =>
      cases visited with
      | nil => cases one rfl
      | @cons e args acx acx₁ acx₂ r f value code fs run callit rest =>
        have none_ : args = [] := List.eq_nil_of_length_eq_zero (Nat.succ.inj (one rfl))
        subst none_
        cases rest
        refine ⟨value ++ [.push r.reg.name, .call f, .addImm .rsp 8], (acx₁.rs.takeitback r.reg).2, ?_,
          takeitback_pops _ _, ?_⟩
        · have ordered : Visited .readln [] [e] acx _ _ _ := .cons run callit .nil
          rw [List.append_nil, List.append_nil, ← List.append_assoc] at ordered
          exact ordered
        · simp [Magic.finish, Magic.newline, Magic.inLoop]

end

/-! ## The header -/

def fileHeader (file : List Insn) : List Insn :=
  file.takeWhile fun i => match i with
    | .section _ => false
    | _ => true

theorem analyze_fileHeader {prog : AstProgram} {acx : Acx} {file : List Insn}
    (accepted : analyze prog = .ok (acx, file)) :
    fileHeader file = [.comment " vim: ft=nasm", .externSub "write_integer", .externSub "write_newline"] := by
  obtain ⟨off, st, acx₁, subsCode, bodyCode, run⟩ := analyze_run accepted
  rw [run.code_eq]
  rfl

/-- The routines that the header of an accepted program declares. -/
def InHeader (f : Name) : Prop := f = "write_integer" ∨ f = "write_newline"

theorem declared_iff {prog : AstProgram} {acx : Acx} {file : List Insn}
    (accepted : analyze prog = .ok (acx, file)) (f : Name) :
    .externSub f ∈ fileHeader file ↔ InHeader f := by
  rw [analyze_fileHeader accepted]
  simp [InHeader]

instance (f : Name) : Decidable (InHeader f) := inferInstanceAs (Decidable (_ ∨ _))

def suffixes : List Name := ["_integer", "_real", "_string", "_bool", "_char", "_void"]

theorem routine_eq_some {verb f : Name} {t : Index} (callit : routine verb t = some f) :
    ∃ suffix ∈ suffixes, f = verb ++ suffix ∧ (suffix = "_integer" ↔ t = integerTypeIdx) := by
  unfold routine at callit
  split at callit
  next integer =>
    cases callit
    exact ⟨"_integer", by decide, rfl, iff_of_true rfl integer⟩
  next other =>
    have rest : ∃ suffix ∈ suffixes.tail, f = verb ++ suffix := by
      repeat' split at callit
      · exact ⟨"_real", by decide, (Option.some.inj callit).symm⟩
      · exact ⟨"_string", by decide, (Option.some.inj callit).symm⟩
      · exact ⟨"_bool", by decide, (Option.some.inj callit).symm⟩
      · exact ⟨"_char", by decide, (Option.some.inj callit).symm⟩
      · exact ⟨"_void", by decide, (Option.some.inj callit).symm⟩
      · cases callit
    obtain ⟨suffix, member, named⟩ := rest
    have apart : ∀ s ∈ suffixes.tail, s ≠ "_integer" := by decide
    exact ⟨suffix, List.mem_of_mem_tail member, named, iff_of_false (apart suffix member) other⟩

theorem declared_write_iff {t : Index} {f : Name} (callit : routine "write" t = some f) :
    InHeader f ↔ t = integerTypeIdx := by
  obtain ⟨suffix, member, rfl, integer⟩ := routine_eq_some callit
  have names : ∀ s ∈ suffixes, InHeader ("write" ++ s) ↔ s = "_integer" := by decide
  exact (names suffix member).trans integer

theorem not_declared_read {t : Index} {f : Name} (callit : routine "read" t = some f) :
    ¬ InHeader f := by
  obtain ⟨suffix, member, rfl, -⟩ := routine_eq_some callit
  have names : ∀ s ∈ suffixes, ¬ InHeader ("read" ++ s) := by decide
  exact names suffix member

/-! ## Statements -/

/-- An input or output statement has the right lines and calls routines that the file declares. -/
def InputOutputRight (which : Magic) (args : List AstExpr) (acx : Acx) (code : List Insn)
    (acx' : Acx) (file : List Insn) : Prop :=
  ∃ fs, ShapedAs which args acx code fs acx' ∧ ∀ f ∈ fs ++ which.newline, .externSub f ∈ fileHeader file

/-- Integers are written, nothing is read, and readln is not called. -/
def Magic.Plain (which : Magic) (st : Stab) (args : List AstExpr) : Prop :=
  match which with
  | .write | .writeln => ∀ e ∈ args, exprType st e = some integerTypeIdx
  | .read => args = []
  | .readln => False

theorem Visited.written_declared_iff {which : Magic} {inLoop : List Insn} {args : List AstExpr}
    {acx acx' : Acx} {code : List Insn} {fs : List Name} (verb : which.verb = "write")
    (visited : Visited which inLoop args acx code fs acx') :
    (∀ f ∈ fs, InHeader f) ↔ ∀ e ∈ args, exprType acx.st e = some integerTypeIdx := by
  induction visited with
  | nil => simp
  | @cons e args acx acx₁ acx₂ r f value code fs run callit _ ih =>
    have run := analyzeExpr_run e run
    have same : ∀ e', exprType (acx₁.setRs (acx₁.rs.takeitback r.reg).1).st e' = exprType acx.st e' :=
      run.sameTypes.exprType
    rw [List.forall_mem_cons, List.forall_mem_cons, ih, declared_write_iff (verb ▸ callit), run.typed,
      Option.some.injEq]
    simp only [same]

theorem Visited.read_declared_iff {which : Magic} {inLoop : List Insn} {args : List AstExpr}
    {acx acx' : Acx} {code : List Insn} {fs : List Name} (verb : which.verb = "read")
    (visited : Visited which inLoop args acx code fs acx') : (∀ f ∈ fs, InHeader f) ↔ args = [] := by
  cases visited with
  | nil => simp
  | cons run callit rest =>
    apply iff_of_false
    · intro declared
      exact not_declared_read (verb ▸ callit) (declared _ List.mem_cons_self)
    · exact List.cons_ne_nil _ _

theorem declared_write_newline : InHeader "write_newline" := .inr rfl

theorem not_declared_read_newline : ¬ InHeader "read_newline" := by decide

theorem inputOutputRight_iff {prog : AstProgram} {last : Acx} {file : List Insn}
    (accepted : analyze prog = .ok (last, file)) {which : Magic} {args : List AstExpr}
    {acx acx' : Acx} {code : List Insn} {fs : List Name}
    (visited : Visited which which.inLoop args acx code fs acx') :
    InputOutputRight which args acx (code ++ which.finish) acx' file ↔ which.Plain acx.st args := by
  have names : ∀ {fs' : List Name}, ShapedAs which args acx (code ++ which.finish) fs' acx' → fs' = fs := by
    rintro fs' ⟨before, back, ordered, -⟩
    exact (ordered.lengths visited).1
  unfold InputOutputRight
  simp only [declared_iff accepted]
  cases which with
  | write =>
    have written := visited.written_declared_iff rfl
    constructor
    · rintro ⟨fs', shaped, declared⟩
      obtain rfl := names shaped
      exact written.mp fun f member => declared f (List.mem_append_left _ member)
    · intro integers
      refine ⟨fs, (shaped_iff visited).mpr (fun readln => by cases readln), ?_⟩
      rw [Magic.newline, List.append_nil]
      exact written.mpr integers
  | writeln =>
    have written := visited.written_declared_iff rfl
    constructor
    · rintro ⟨fs', shaped, declared⟩
      obtain rfl := names shaped
      exact written.mp fun f member => declared f (List.mem_append_left _ member)
    · intro integers
      refine ⟨fs, (shaped_iff visited).mpr (fun readln => by cases readln), ?_⟩
      rw [Magic.newline, List.forall_mem_append, List.forall_mem_singleton]
      exact ⟨written.mpr integers, declared_write_newline⟩
  | read =>
    have read := visited.read_declared_iff rfl
    constructor
    · rintro ⟨fs', shaped, declared⟩
      obtain rfl := names shaped
      exact read.mp fun f member => declared f (List.mem_append_left _ member)
    · intro nothing
      refine ⟨fs, (shaped_iff visited).mpr (fun readln => by cases readln), ?_⟩
      rw [Magic.newline, List.append_nil]
      exact read.mpr nothing
  | readln =>
    apply iff_of_false _ id
    rintro ⟨fs', shaped, declared⟩
    exact not_declared_read_newline (declared _ (List.mem_append_right _ (List.mem_singleton_self _)))

def magicOf (st : Stab) (p : AstPath) : Option Magic := (calleeOf st p).bind StabType.magic

namespace Moment

/-- The input or output statement at a moment, if one is there, is right. -/
def InputOutputRight (m : Moment) (file : List Insn) : Prop :=
  ∀ p args which, m.call = .call p args → magicOf m.acx.st p = some which →
    ∀ r acx' code, analyzeCall p (analyzeArgs args) m.acx = .ok (r, acx', code) →
      Dragon.InputOutputRight which args m.acx code acx' file

/-- It writes integers, or reads nothing and is no readln. -/
def Plain (m : Moment) : Prop :=
  match m.call with
  | .call p args => ∀ which ∈ magicOf m.acx.st p, which.Plain m.acx.st args
  | _ => True

end Moment

theorem momentRight_iff {prog : AstProgram} {last : Acx} {file : List Insn}
    (accepted : analyze prog = .ok (last, file)) {m : Moment} (member : m ∈ prog.trace) :
    m.InputOutputRight file ↔ m.Plain := by
  have returned : m.Returned := (ends_of_accepted accepted).returned m member
  have one : ∀ {p args which}, magicOf m.acx.st p = some which → ∀ {r acx' code},
      analyzeCall p (analyzeArgs args) m.acx = .ok (r, acx', code) →
        (InputOutputRight which args m.acx code acx' file ↔ which.Plain m.acx.st args) := by
    intro p args which magic r acx' code run
    obtain ⟨actuals, writes, reads⟩ := analyzeArgs_run args
    have run := analyzeCall_run actuals writes reads (analyzeArgs_length args) run
    unfold magicOf at magic
    cases run with
    | magic callee kind body =>
      rw [callee, Option.bind_some, kind] at magic
      cases magic
      obtain ⟨fs, visited⟩ := body.visited
      exact inputOutputRight_iff accepted visited
    | call callee kind =>
      rw [callee, Option.bind_some, kind] at magic
      cases magic
  unfold Moment.Plain
  constructor
  · intro right
    split
    next p args called =>
      intro which magic
      rw [Moment.Returned, called] at returned
      obtain ⟨⟨r, acx', code⟩, run⟩ := returned
      exact (one magic run).mp (right p args which called magic r acx' code run)
    next => exact trivial
  · intro plain p args which called magic r acx' code run
    rw [called] at plain
    exact (one magic run).mpr (plain which magic)

/-- An accepted program has its input and output right exactly when it writes integers only, reads
nothing and does not call readln. -/
theorem inputOutput_iff (prog : AstProgram) (acx : Acx) (file : List Insn)
    (accepted : analyze prog = .ok (acx, file)) :
    (∀ m ∈ prog.trace, m.InputOutputRight file) ↔ ∀ m ∈ prog.trace, m.Plain :=
  forall₂_congr fun _ member => momentRight_iff accepted member

instance (which : Magic) (st : Stab) (args : List AstExpr) : Decidable (which.Plain st args) :=
  match which with
  | .write | .writeln => inferInstanceAs (Decidable (∀ e ∈ args, exprType st e = some integerTypeIdx))
  | .read => inferInstanceAs (Decidable (args = []))
  | .readln => inferInstanceAs (Decidable False)

instance (m : Moment) : Decidable m.Plain :=
  match m with
  | ⟨.call p args, acx⟩ =>
      inferInstanceAs (Decidable (∀ which ∈ magicOf acx.st p, which.Plain acx.st args))
  | ⟨.program _, _⟩ | ⟨.sub _, _⟩ | ⟨.declare _, _⟩ | ⟨.prologue _, _⟩ | ⟨.epilogue .., _⟩
  | ⟨.globals, _⟩ | ⟨.stmt _, _⟩ | ⟨.expr .., _⟩ | ⟨.path .., _⟩ | ⟨.address .., _⟩
  | ⟨.target _, _⟩ | ⟨.typesEq .., _⟩ | ⟨.finished, _⟩ => inferInstanceAs (Decidable True)

-- program (output); begin writeln(1, 2) end.
def writesTwo : AstProgram :=
  ⟨["output"], [], [], [], .proc (astPath "writeln") [.lit "1", .lit "2"]⟩

theorem writesTwo_right : ∃ acx file, analyze writesTwo = .ok (acx, file) ∧
    ∀ m ∈ writesTwo.trace, m.InputOutputRight file := by
  have accepts : (analyze writesTwo).toOption.isSome = true := by
    decide +kernel
  obtain ⟨⟨acx, file⟩, result⟩ := exists_ok_of_isSome accepts
  refine ⟨acx, file, result, (inputOutput_iff writesTwo acx file result).mpr ?_⟩
  decide +kernel

-- program (input); var x: integer; begin readln(x, x) end.
def readsTwo : AstProgram :=
  ⟨["input"], [⟨["x"], .integer⟩], [], [],
    .proc (astPath "readln") [.path (astPath "x"), .path (astPath "x")]⟩

-- Two newlines are read, and no routine is declared.
theorem not_forall_inputOutput : ¬ ∀ prog acx file, analyze prog = .ok (acx, file) →
    ∀ m ∈ prog.trace, m.InputOutputRight file := by
  intro always
  have accepts : (analyze readsTwo).toOption.isSome = true := by
    decide +kernel
  have reads : ∃ m ∈ readsTwo.trace, ¬ m.Plain := by
    decide +kernel
  obtain ⟨m, member, calls⟩ := reads
  obtain ⟨⟨acx, file⟩, result⟩ := exists_ok_of_isSome accepts
  exact calls ((momentRight_iff result member).mp (always readsTwo acx file result m member))

end Dragon
