import Dragon.Codegen.CallFrames
import Dragon.Codegen.InputOutput
import Dragon.Codegen.Labels
import Dragon.Codegen.Loops
import Dragon.Machine.Output

/-! The code of statements that write.

The machine is the one that keeps what it has shown. A value to be written is
pushed below the frame, so the cells of the variables are among the words above
the argument that the routine keeps. No register is in use at a call.
-/

set_option autoImplicit false

namespace Dragon

open Analysis ByteMemory PartialStep StructuredCode

/-! ## Frames -/

/-- The frame holds the values of a store, the stack ends below it, and the machine has shown what
has been written. -/
structure Shows (st : Stab) (off : Int) (base : BitVec 64) (c : State × List Output)
    (t : Transcript) : Prop where
  stores : Stores st base c.1 t.1
  rsp : c.1.reg .rsp = base - BitVec.ofInt 64 off
  log : c.2 = t.2

/-- The cells of the variables are apart from the word below the frame, and among the words that a
routine keeps, whether or not it is passed one. -/
structure Headroom (st : Stab) (off : Int) (words : Nat) : Prop where
  clear : ∀ base x v, LocalInteger st x v →
    Apart (cell base v) (below (base - BitVec.ofInt 64 off) 0)
  kept : ∀ base x v, LocalInteger st x v → ∃ k, k + 1 < words ∧
    cell base v = base - BitVec.ofInt 64 off + BitVec.ofNat 64 (8 * k)

/-- Lines that keep the height of the stack and do to the frame what a store says. -/
structure Quietly (st : Stab) (code : List Insn) (effect : Store → Store) : Prop where
  level : ∃ level, Leveled level 0 code 0
  runs : ∀ (env : Env) (base : BitVec 64) (σ : State) (s : Store), Stores st base σ s →
    ∃ τ, runBlock env code σ = some τ ∧ Stores st base τ (effect s)

section

variable {st : Stab} {off : Int} {words : Nat} {base : BitVec 64} {env : Env} {whole : List Insn}
  {p q exit : Nat}

theorem Quietly.moves {code : List Insn} {effect : Store → Store} (quiet : Quietly st code effect)
    (located : Located whole p code) (inside : p + code.length ≤ exit) :
    Moves (outputStep env whole) (Shows st off base) exit p (p + code.length)
      (fun t => (effect t.1, t.2)) := by
  rintro ⟨σ, log⟩ t ⟨stores, rsp, same⟩
  obtain ⟨level, leveled⟩ := quiet.level
  obtain ⟨_, silent, _⟩ := quiet.runs noCalls base σ t.1 stores
  obtain ⟨τ, ran, there⟩ := quiet.runs env base σ t.1 stores
  have still := leveled.runBlock_rsp ran
  refine ⟨_, (τ, log), located.leads_silent log (silent_of_noCalls silent) ran inside, there, ?_, same⟩
  simpa using still.trans (congrArg (· - BitVec.ofInt 64 (8 * (0 - 0))) rsp)

theorem shows_label {l : Label} (line : whole[p]? = some (.label l)) (inside : p < exit) :
    Moves (outputStep env whole) (Shows st off base) exit p (p + 1) id := by
  rintro ⟨σ, log⟩ t here
  have next : exec env (.label l) σ = some σ := rfl
  exact ⟨1, (σ, log), .one inside (outputStep_silent log line rfl (step_of_exec line next)), here⟩

theorem shows_jmp {l : Label} (line : whole[p]? = some (.jmp l))
    (label : resolveLabel whole p l = some q) (inside : p < exit) :
    Moves (outputStep env whole) (Shows st off base) exit p q id := by
  rintro ⟨σ, log⟩ t here
  exact ⟨1, (σ, log), .one inside (outputStep_silent log line rfl (step_jmp line label)), here⟩

structure CondShows (st : Stab) (cond : AstExpr) (code : List Insn) : Prop where
  level : ∃ level, Leveled level 0 (code ++ [.cmpImm .rbx 1]) 0
  runs : Emitted.CondRuns st cond code

theorem CondShows.tests {cond : AstExpr} {code : List Insn} {l : Label}
    (shows_ : CondShows st cond code)
    (located : Located whole p (code ++ [.cmpImm .rbx 1, .jcc .ne l]))
    (inside : p + code.length + 1 < exit) (label : resolveLabel whole (p + code.length + 1) l = some q)
    (line : whole[q]? = some (.label l)) (inside' : q < exit) :
    Tests AstExpr.holdsAfter (outputStep env whole) (Shows st off base) exit cond p
      (p + code.length + 2) (q + 1) := by
  rintro ⟨σ, log⟩ t ⟨stores, rsp, same⟩
  obtain ⟨level, leveled⟩ := shows_.level
  obtain ⟨_, _, quiet, _⟩ := shows_.runs noCalls base σ t.1 stores
  obtain ⟨τ, f, ran, there, flags, zf⟩ := shows_.runs env base σ t.1 stores
  have still := (leveled.runBlock_rsp ran).trans (congrArg (· - BitVec.ofInt 64 (8 * (0 - 0))) rsp)
  have here : Shows st off base (τ, log) t := ⟨there, by simpa using still, same⟩
  have split : code ++ [.cmpImm .rbx 1, .jcc .ne l] = (code ++ [.cmpImm .rbx 1]) ++ [.jcc .ne l] := by
    rw [List.append_assoc]
    rfl
  rw [split] at located
  have size : (code ++ [Insn.cmpImm .rbx 1]).length = code.length + 1 := List.length_append
  have leads := located.left.leads_silent log (silent_of_noCalls quiet) ran
    (show p + (code ++ [Insn.cmpImm .rbx 1]).length ≤ exit by rw [size]; omega)
  have jump := located.right.head
  rw [size, ← Nat.add_assoc] at leads jump
  have next := outputStep_silent log jump rfl (@step_jcc env _ _ _ _ _ _ _ jump label flags)
  have tested := leads.trans (.one inside next)
  rw [Cond.holds, zf] at tested
  cases holds : cond.holds t.1 with
  | true =>
    rw [holds] at tested
    simp only [AstExpr.holdsAfter, holds, if_true]
    exact ⟨_, (τ, log), tested, here⟩
  | false =>
    rw [holds] at tested
    have pass : exec env (.label l) τ = some τ := rfl
    have passed : Leads (outputStep env whole) (Inside exit) 1 (q, τ, log) (q + 1, τ, log) :=
      .one inside' (outputStep_silent log line rfl (step_of_exec line pass))
    simp only [AstExpr.holdsAfter, holds, Bool.false_eq_true, if_false]
    exact ⟨_, (τ, log), tested.trans passed, here⟩

end

/-! ## Conditions and assignments -/

theorem CoreCond.callFree {st : Stab} {cond : AstExpr} (core : CoreCond st cond) :
    cond.exact (fun _ => true) = true := by
  cases core with
  | compare _ first second _ => rw [AstExpr.exact, first.exact, second.exact, Bool.and_self]

theorem CoreCond.shows {st : Stab} {cond : AstExpr} (core : CoreCond st cond) {t : StabType}
    (known : stabType st integerTypeIdx = some t) (acx : Acx) (same : acx.st = st)
    (start : acx.rs = regInit) :
    ∃ code, Run (.expr cond true) acx [⟨booleanTypeIdx, ⟨.rbx, 0, false⟩⟩] (acx.setRs oneTaken) code ∧
      CondShows st cond code := by
  obtain ⟨code, run, runs⟩ := core.runs known acx same start
  refine ⟨code, run, ⟨⟨fun _ => 0, ?_⟩, runs⟩⟩
  have leveled := @Run.leveled (fun _ => 0) _ _ _ _ _ run core.callFree 0 (Int.le_refl 0)
  rw [start, gimme_regInit] at leveled
  exact leveled.append (leveled_sets rfl (by decide) rfl 0)

theorem assign_quietly {st : Stab} (known : stabType st integerTypeIdx = some ⟨.integer, 8, none⟩)
    (apart : CellsApart st) {x : Name} {v : StabVar} {e : AstExpr} (var : LocalInteger st x v)
    (arith : Arith st e) (enough : e.need ≤ 13) {acx : Acx} (here : AtTop st acx) :
    ∃ code, StmtRun (.stmt (.assign (.path (astPath x)) e)) acx acx code ∧
      Quietly st code (assignTo (x, e)) := by
  obtain ⟨code, run, -, runs⟩ := assign_runs known apart var arith enough here
  refine ⟨code, run, ⟨⟨fun _ => 0, run.leveled ?_ (Int.le_refl 0)⟩, runs⟩⟩
  rw [StmtNode.exact, AstStmt.exact, AstExpr.exact, arith.exact, Bool.and_self]

/-! ## Output -/

/-- The lines that hand a word to a routine and remove it again. -/
def handover (f : Name) : List Insn := [.push .rbx, .call f, .addImm .rsp 8]

theorem shows_writeInteger (σ : State) :
    Dragon.shows "write_integer" σ = [.integer (readWord σ.mem (σ.reg .rsp))] := if_pos rfl

theorem shows_writeNewline (σ : State) : Dragon.shows "write_newline" σ = [.newline] := rfl

section

variable {st : Stab} {off : Int} {words : Nat} {base : BitVec 64} {env : Env} {whole : List Insn}
  {p exit : Nat}

theorem Stores.of_cells {σ τ : State} {s : Store} (stores : Stores st base σ s)
    (rbp : τ.reg .rbp = σ.reg .rbp)
    (cells : ∀ x v, LocalInteger st x v → readWord τ.mem (cell base v) = readWord σ.mem (cell base v)) :
    Stores st base τ s :=
  ⟨rbp.trans stores.rbp, fun x v var => (cells x v var).trans (stores.cells x v var)⟩

theorem shows_newline (writes : Writes env words) (room : Headroom st off words)
    (line : whole[p]? = some (.call "write_newline")) (inside : p < exit) :
    Moves (outputStep env whole) (Shows st off base) exit p (p + 1)
      (fun t => (t.1, t.2 ++ [.newline])) := by
  rintro ⟨σ, log⟩ t ⟨stores, rsp, same⟩
  obtain ⟨τ, returns, kept⟩ := writes.run "write_newline" (by decide) σ
  have next := outputStep_call log line returns
  rw [shows_writeNewline] at next
  refine ⟨1, _, .one inside next, ?_, (kept.rsp (by decide)).trans rsp, congrArg (· ++ _) same⟩
  refine stores.of_cells (kept.reg .rbp (by decide) (by decide)) ?_
  intro x v var
  obtain ⟨k, less, here⟩ := room.kept base x v var
  rw [here, ← rsp]
  exact kept.word k (Nat.lt_of_succ_lt less)

theorem shows_handover (writes : Writes env words) (room : Headroom st off words)
    (located : Located whole p (handover "write_integer")) (inside : p + 3 ≤ exit) {σ : State}
    {log : List Output} {s : Store} (stores : Stores st base σ s)
    (rsp : σ.reg .rsp = base - BitVec.ofInt 64 off) :
    ∃ τ, Leads (outputStep env whole) (Inside exit) 3 (p, σ, log)
        (p + 3, τ, log ++ [.integer (σ.reg .rbx)]) ∧
      Stores st base τ s ∧ τ.reg .rsp = base - BitVec.ofInt 64 off := by
  let σ₁ := σ.push (σ.reg .rbx)
  have pushes : exec env (.push .rbx) σ = some σ₁ := rfl
  obtain ⟨τ, returns, kept⟩ := writes.run "write_integer" (by decide) σ₁
  let τ₁ := τ.alu .add .rsp 8
  have removes : exec env (.addImm .rsp 8) τ = some τ₁ := rfl
  have top : readWord σ₁.mem (σ₁.reg .rsp) = σ.reg .rbx := readWord_writeWord ..
  have first := outputStep_silent log located.head rfl (step_of_exec located.head pushes)
  have second := outputStep_call log located.tail.head returns
  rw [shows_writeInteger, top] at second
  have third := outputStep_silent (log ++ [.integer (σ.reg .rbx)]) located.tail.tail.head rfl
    (step_of_exec located.tail.tail.head removes)
  have within : ∀ k (c : State × List Output), k < 3 → Inside exit (p + k, c) := fun k _ less =>
    Nat.lt_of_lt_of_le (Nat.add_lt_add_left less p) inside
  refine ⟨τ₁, ?_, ?_, ?_⟩
  · exact ⟨within 0 _ (by decide), _, first, within 1 _ (by decide), _, second,
      within 2 _ (by decide), _, third, rfl⟩
  · have rbp : τ₁.reg .rbp = σ.reg .rbp := by
      rw [State.alu_reg_of_ne _ _ _ (by decide), kept.reg .rbp (by decide) (by decide)]
      exact State.push_reg _ (by decide)
    refine stores.of_cells rbp ?_
    intro x v var
    obtain ⟨k, less, here⟩ := room.kept base x v var
    have word := kept.word (k + 1) less
    rw [State.push_rsp, below_add_word, rsp, ← here] at word
    have clear := room.clear base x v var
    rw [← rsp] at clear
    rw [State.alu_mem, word]
    exact readWord_writeWord_apart _ _ clear
  · have back : τ₁.reg .rsp = τ.reg .rsp + 8 := State.alu_reg_self rfl
    rw [back, kept.rsp (by decide), State.push_rsp, below_zero_add, rsp]

theorem shows_value (writes : Writes env words) (room : Headroom st off words) {code : List Insn}
    {e : AstExpr} (arith : Arith st e)
    (exec : ∀ (env : Env) (σ : State), ∃ τ, runBlock env code σ = some τ ∧
      τ.reg .rbx = e.value (valuesOf st σ) ∧
      (∀ r, r ∉ regInit.freeList.map REGS → τ.reg r = σ.reg r) ∧
      ∀ a, readWord τ.mem a = readWord σ.mem a)
    (located : Located whole p (code ++ handover "write_integer"))
    (inside : p + (code ++ handover "write_integer").length ≤ exit) :
    Moves (outputStep env whole) (Shows st off base) exit p
      (p + (code ++ handover "write_integer").length)
      (fun t => (t.1, t.2 ++ [.integer (e.value t.1)])) := by
  rintro ⟨σ, log⟩ t ⟨stores, rsp, same⟩
  obtain ⟨_, silent, -⟩ := exec noCalls σ
  obtain ⟨τ, ran, value, others, mem⟩ := exec env σ
  have outside : ∀ r, (∀ i, REGS i ≠ r) → τ.reg r = σ.reg r := fun r out =>
    others r (not_mem_REGS out _)
  have there : Stores st base τ t.1 := stores.congr (outside .rbp fun i => (REGS_ne i).2.1) mem
  have sp := (outside .rsp fun i => (REGS_ne i).1).trans rsp
  have size : (code ++ handover "write_integer").length = code.length + 3 := List.length_append
  rw [size] at inside ⊢
  have leads := located.left.leads_silent log (silent_of_noCalls silent) ran
    (show p + code.length ≤ exit by omega)
  obtain ⟨υ, shown, last, back⟩ := shows_handover writes room located.right
    (by omega) there sp
  rw [value, stores.value arith] at shown
  exact ⟨_, _, leads.trans shown, last, back, congrArg (· ++ _) same⟩

end

/-- The code of the arguments shows their values in order, wherever it is placed. -/
def WritesAll (st : Stab) (off : Int) (words : Nat) (args : List AstExpr) (code : List Insn) : Prop :=
  ∀ (env : Env) (whole : List Insn) (p exit : Nat) (base : BitVec 64), Writes env words →
    Located whole p code → p + code.length ≤ exit →
    Moves (outputStep env whole) (Shows st off base) exit p (p + code.length)
      (fun t => (t.1, t.2 ++ Command.written args t.1))

theorem writesAll_run {st : Stab} {off : Int} {words : Nat}
    (known : stabType st integerTypeIdx = some ⟨.integer, 8, none⟩) (room : Headroom st off words)
    {acx : Acx} (here : AtTop st acx) {args : List AstExpr}
    (ariths : ∀ e ∈ args, Arith st e ∧ e.need ≤ 14) :
    ∃ results code, Run (.writes args) acx results acx code ∧ WritesAll st off words args code := by
  induction args with
  | nil =>
    refine ⟨[], [], .wrote, ?_⟩
    rintro env whole p exit base - - - ⟨σ, log⟩ t shown
    refine ⟨0, (σ, log), .refl _, ?_⟩
    simpa [Command.written] using shown
  | cons e args ih =>
    obtain ⟨arith, enough⟩ := ariths e List.mem_cons_self
    obtain ⟨results, code, run, writesAll⟩ := ih fun e' member =>
      ariths e' (List.mem_cons_of_mem _ member)
    obtain ⟨value, first, exec⟩ := arith.runs known acx here.table (by
      rw [here.start]
      exact enough)
    rw [here.start, gimme_regInit] at first exec
    have callit : routine "write" integerTypeIdx = some "write_integer" := rfl
    have whole : (acx.setRs oneTaken).setRs
        ((acx.setRs oneTaken).rs.takeitback ⟨.rbx, 0, false⟩).1 = acx := by
      rw [Acx.setRs_rs, takeitback_oneTaken.1, Acx.setRs_setRs, ← here.start, Acx.setRs_self]
    have rest : Run (.writes args) ((acx.setRs oneTaken).setRs
        ((acx.setRs oneTaken).rs.takeitback ⟨.rbx, 0, false⟩).1) results acx code := by
      rw [whole]
      exact run
    have lines : (acx.setRs oneTaken).rs.takeitback ⟨.rbx, 0, false⟩ =
        (regInit, []) := Prod.ext takeitback_oneTaken.1 takeitback_oneTaken.2
    have both := Run.write first callit rest
    rw [lines, List.nil_append, ← List.append_assoc] at both
    refine ⟨_, _, both, ?_⟩
    intro env whole p exit base writes located inside
    rw [List.length_append] at inside
    have one : Moves _ (Shows st off base) _ _ _ _ := shows_value writes room arith exec located.left
      (show p + (value ++ handover "write_integer").length ≤ exit by
        exact Nat.le_trans (Nat.add_le_add_left (Nat.le_add_right _ _) p) inside)
    have two := writesAll env whole _ exit base writes located.right
      (by rw [Nat.add_assoc]; exact inside)
    rintro c t shown
    obtain ⟨n, d, leads₁, between⟩ := one c t shown
    obtain ⟨k, u, leads₂, last⟩ := two d _ between
    rw [Nat.add_assoc, ← List.length_append] at leads₂
    refine ⟨n + k, u, leads₁.trans leads₂, ?_⟩
    simpa [Command.written] using last

/-! ## Statements -/

/-- The statements of the core, and calls that write arithmetic expressions. -/
inductive InPrinting (st : Stab) : AstStmt → Prop where
  | null : InPrinting st .null
  | assign {x : Name} {v : StabVar} {e : AstExpr} (var : LocalInteger st x v) (arith : Arith st e)
      (enough : e.need ≤ 13) : InPrinting st (.assign (.path (astPath x)) e)
  | ite {cond : AstExpr} {thenn elze : AstStmt} (test : CoreCond st cond) (yes : InPrinting st thenn)
      (no : InPrinting st elze) : InPrinting st (.ite cond thenn elze)
  | stmts {body : List AstStmt} (all : ∀ s ∈ body, InPrinting st s) : InPrinting st (.stmts body)
  | wdo {cond : AstExpr} {body : AstStmt} (test : CoreCond st cond) (loop : InPrinting st body) :
      InPrinting st (.wdo cond body)
  | write {p : AstPath} {args : List AstExpr} {which : Magic} (magic : magicOf st p = some which)
      (byValue : which.byValue = true) (ariths : ∀ e ∈ args, Arith st e ∧ e.need ≤ 14) :
      InPrinting st (.proc p args)

/-- The code does what a structured program says, wherever it is placed. -/
def ShowsAs (st : Stab) (off : Int) (words : Nat) (prog : Prog Command AstExpr)
    (code : List Insn) : Prop :=
  ∀ (env : Env) (whole : List Insn) (p exit low : Nat) (base : BitVec 64), Writes env words →
    Located whole p code → p + code.length ≤ exit → low ≤ p → Jumps whole low →
    Placed Command.run AstExpr.holdsAfter (outputStep env whole) (Shows st off base) exit prog p
      (p + code.length)

namespace ShowsAs

variable {st : Stab} {off : Int} {words : Nat}

theorem skip : ShowsAs st off words .skip [] := by
  intro env whole p exit low base _ _ _ _ _
  exact .skip

theorem seq {first second : Prog Command AstExpr} {code₁ code₂ : List Insn}
    (one : ShowsAs st off words first code₁) (two : ShowsAs st off words second code₂) :
    ShowsAs st off words (.seq first second) (code₁ ++ code₂) := by
  intro env whole p exit low base writes located inside above jumps
  rw [List.length_append] at inside ⊢
  have first := one env whole p exit low base writes located.left (by omega) above jumps
  have second := two env whole _ exit low base writes located.right (by omega) (by omega) jumps
  rw [Nat.add_assoc] at second
  exact .seq first second

theorem ite {cond : AstExpr} {yes no : Prog Command AstExpr} {a : Nat} {code₁ code₂ code₃ : List Insn}
    (test : CondShows st cond code₁) (one : ShowsAs st off words yes code₂)
    (two : ShowsAs st off words no code₃) :
    ShowsAs st off words (.ite cond yes no)
      (code₁ ++ ([.cmpImm .rbx 1, .jcc .ne (.loc a)] ++ (code₂ ++
        ([.jmp (.loc (a + 1)), .label (.loc a)] ++ (code₃ ++ [.label (.loc (a + 1))]))))) := by
  intro env whole p exit low base writes located inside above jumps
  simp only [List.length_append, List.length_cons, List.length_nil] at inside
  have test_ : Located whole p (code₁ ++ [.cmpImm .rbx 1, .jcc .ne (.loc a)]) := by
    rw [← List.append_assoc] at located
    exact located.left
  have yes_ : Located whole (p + code₁.length + 2) _ := located.right.right
  have skip_ : Located whole (p + code₁.length + 2 + code₂.length) _ := yes_.right
  have no_ : Located whole (p + code₁.length + 2 + code₂.length + 2) _ := skip_.right
  have join_ : Located whole (p + code₁.length + 2 + code₂.length + 2 + code₃.length) _ := no_.right
  have label₀ := skip_.tail.head
  have label₁ := join_.head
  have jump₀ := jumps (p + code₁.length + 1) _ a (by omega) (by omega) label₀
  have jump₁ := jumps (p + code₁.length + 2 + code₂.length) _ (a + 1) (by omega) (by omega) label₁
  have tests : Tests AstExpr.holdsAfter (outputStep env whole) (Shows st off base) exit cond _ _ _ :=
    test.tests test_ (by omega) jump₀ label₀ (by omega)
  have first := one env whole _ exit low base writes yes_.left (by omega) (by omega) jumps
  have second := two env whole _ exit low base writes no_.left (by omega) (by omega) jumps
  have join : Moves (outputStep env whole) (Shows st off base) exit _ _ id :=
    shows_label label₁ (by omega)
  have skip : Moves (outputStep env whole) (Shows st off base) exit _ _ id :=
    shows_jmp skip_.head jump₁ (by omega)
  have placed := Placed.ite tests first (Moves.andThen skip join) second join
  convert placed using 1
  simp only [List.length_append, List.length_cons, List.length_nil]
  omega

theorem wdo {cond : AstExpr} {body : Prog Command AstExpr} {a : Nat} {code₁ code₂ : List Insn}
    (test : CondShows st cond code₁) (loop : ShowsAs st off words body code₂) :
    ShowsAs st off words (.loop cond body)
      ([.label (.loc a)] ++ (code₁ ++ ([.cmpImm .rbx 1, .jcc .ne (.loc (a + 1))] ++ (code₂ ++
        [.jmp (.loc a), .label (.loc (a + 1))])))) := by
  intro env whole p exit low base writes located inside above jumps
  simp only [List.length_append, List.length_cons, List.length_nil] at inside
  have test_ : Located whole (p + 1) (code₁ ++ [.cmpImm .rbx 1, .jcc .ne (.loc (a + 1))]) := by
    have later := located.right
    rw [← List.append_assoc] at later
    exact later.left
  have body_ : Located whole (p + 1 + code₁.length + 2) _ := located.right.right.right
  have back_ : Located whole (p + 1 + code₁.length + 2 + code₂.length) _ := body_.right
  have label₀ := located.head
  have label₁ := back_.tail.head
  have jump₀ := jumps (p + 1 + code₁.length + 2 + code₂.length) _ a (by omega) (by omega) label₀
  have jump₁ := jumps (p + 1 + code₁.length + 1) _ (a + 1) (by omega) (by omega) label₁
  have enter : Moves (outputStep env whole) (Shows st off base) exit _ _ id :=
    shows_label label₀ (by omega)
  have tests : Tests AstExpr.holdsAfter (outputStep env whole) (Shows st off base) exit cond _ _ _ :=
    test.tests test_ (by omega) jump₁ label₁ (by omega)
  have first := loop env whole _ exit low base writes body_.left (by omega) (by omega) jumps
  have back : Moves (outputStep env whole) (Shows st off base) exit _ _ id :=
    shows_jmp back_.head jump₀ (by omega)
  have placed := Placed.loop (Tests.after tests enter) first back
  convert placed using 1
  simp only [List.length_append, List.length_cons, List.length_nil]
  omega

theorem writing {p : AstPath} {args : List AstExpr} {which : Magic} {acx : Acx}
    (known : stabType st integerTypeIdx = some ⟨.integer, 8, none⟩) (room : Headroom st off words)
    (here : AtTop st acx) (magic : magicOf st p = some which) (byValue : which.byValue = true)
    (ariths : ∀ e ∈ args, Arith st e ∧ e.need ≤ 14) :
    ∃ code, StmtRun (.stmt (.proc p args)) acx acx code ∧
      ShowsAs st off words (AstStmt.writing (some which) args) code := by
  obtain ⟨pt, callee, kind⟩ := Option.bind_eq_some_iff.mp magic
  rw [← here.table] at callee
  obtain ⟨results, code, run, writesAll⟩ := writesAll_run known room here ariths
  have back : acx.setRs (acx.rs.takeitback magicResu.reg).1 = acx := by
    rw [here.start, RegisterSet.takeitback_magic]
    have free : regInit.unmark 0 = regInit := by
      refine congrArg (RegisterSet.mk 6) ?_
      funext j
      exact ite_self false
    rw [free, ← here.start, Acx.setRs_self]
  have statement : ∀ body, Run (.call p args) acx [magicResu] acx body →
      StmtRun (.stmt (.proc p args)) acx acx body := by
    intro body call
    have whole := StmtRun.proc call
    rw [back] at whole
    have none_ : (acx.rs.takeitback magicResu.reg).2 = [] := rfl
    rwa [none_, List.append_nil] at whole
  cases which with
  | read => cases byValue
  | readln => cases byValue
  | write =>
    refine ⟨code ++ Magic.write.finish, statement _ (.magic callee kind run), ?_⟩
    intro env whole p exit low base writes located inside _ _
    rw [Magic.finish, List.append_nil] at located inside ⊢
    exact .act (writesAll env whole p exit base writes located inside)
  | writeln =>
    refine ⟨code ++ Magic.writeln.finish, statement _ (.magic callee kind run), ?_⟩
    intro env whole p exit low base writes located inside _ _
    rw [List.length_append] at inside ⊢
    refine .act ?_
    intro c t shown
    obtain ⟨n, d, leads₁, between⟩ := writesAll env whole p exit base writes located.left
      (Nat.le_trans (Nat.add_le_add_left (Nat.le_add_right _ _) p) inside) c t shown
    obtain ⟨k, u, leads₂, last⟩ := shows_newline writes room located.right.head
      (Nat.lt_of_lt_of_le (by simp [Magic.finish]) inside) d _ between
    refine ⟨n + k, u, leads₁.trans leads₂, ?_⟩
    simpa [Command.run] using last

end ShowsAs

theorem InPrinting.compiled {st : Stab} {off : Int} {words : Nat} {s : AstStmt}
    (printing : InPrinting st s) (known : stabType st integerTypeIdx = some ⟨.integer, 8, none⟩)
    (apart : CellsApart st) (room : Headroom st off words) (acx : Acx) (here : AtTop st acx) :
    ∃ n code, StmtRun (.stmt s) acx (acx.atLabel n) code ∧
      ShowsAs st off words (s.commands (magicOf st)) code := by
  induction printing generalizing acx with
  | null => exact ⟨acx.label, [], .null, .skip⟩
  | assign var arith enough =>
    obtain ⟨code, run, quiet⟩ := assign_quietly known apart var arith enough here
    refine ⟨acx.label, code, run, ?_⟩
    intro env whole p exit low base _ located inside _ _
    exact .act (quiet.moves located inside)
  | @ite cond thenn elze test yes no ih₁ ih₂ =>
    obtain ⟨code₁, run₁, shows_⟩ := test.shows known acx here.table here.start
    obtain ⟨m, code₂, run₂, shows₂⟩ := ih₁ (acx.atLabel (acx.label + 2))
      ⟨here.table, here.start, here.top⟩
    obtain ⟨n, code₃, run₃, shows₃⟩ := ih₂ (acx.atLabel m) ⟨here.table, here.start, here.top⟩
    have after : (acx.setRs oneTaken).afterLabels.setRs
        ((acx.setRs oneTaken).rs.takeitback ⟨.rbx, 0, false⟩).1 = acx.atLabel (acx.label + 2) := by
      rw [Acx.setRs_rs, takeitback_oneTaken.1, ← here.start]
      rfl
    have yes_ : StmtRun (.stmt thenn) (acx.atLabel (acx.label + 2)) (acx.atLabel m) code₂ := run₂
    rw [← after] at yes_
    exact ⟨n, _, .ite run₁ rfl yes_ run₃, .ite shows_ shows₂ shows₃⟩
  | @stmts body all ih =>
    suffices list : ∃ n code, StmtRun (.stmts body) acx (acx.atLabel n) code ∧
        ShowsAs st off words (AstStmt.commandsAll (magicOf st) body) code by
      obtain ⟨n, code, run, shows_⟩ := list
      exact ⟨n, code, .stmts run, by rwa [AstStmt.commands]⟩
    clear all
    induction body generalizing acx with
    | nil => exact ⟨acx.label, [], .nil, .skip⟩
    | cons s body ihBody =>
      obtain ⟨m, code₁, run₁, shows₁⟩ := ih s List.mem_cons_self acx here
      obtain ⟨n, code₂, run₂, shows₂⟩ := ihBody
        (fun t member => ih t (List.mem_cons_of_mem _ member)) (acx.atLabel m)
        ⟨here.table, here.start, here.top⟩
      exact ⟨n, _, .cons run₁ run₂, shows₁.seq shows₂⟩
  | @wdo cond body test loop ih =>
    obtain ⟨code₁, run₁, shows_⟩ := test.shows known acx.afterLabels here.table here.start
    obtain ⟨n, code₂, run₂, shows₂⟩ := ih (acx.atLabel (acx.label + 2))
      ⟨here.table, here.start, here.top⟩
    have after : (acx.afterLabels.setRs oneTaken).setRs
        ((acx.afterLabels.setRs oneTaken).rs.takeitback ⟨.rbx, 0, false⟩).1 =
          acx.atLabel (acx.label + 2) := by
      rw [Acx.setRs_rs, takeitback_oneTaken.1, ← here.start]
      rfl
    have loop_ : StmtRun (.stmt body) (acx.atLabel (acx.label + 2)) (acx.atLabel n) code₂ := run₂
    rw [← after] at loop_
    exact ⟨n, _, .wdo run₁ rfl loop_, .wdo shows_ shows₂⟩
  | write magic byValue ariths =>
    obtain ⟨code, run, shows_⟩ := ShowsAs.writing known room here magic byValue ariths
    refine ⟨acx.label, code, run, ?_⟩
    rwa [AstStmt.commands, magic]

/-! ## Programs -/

/-- A program without subprograms whose types are pointers, records and arrays, whose variables are
integers, and whose body writes integers. -/
structure PrintingProgram (prog : AstProgram) (off : Int) (st : Stab) : Prop where
  globals : IntegerGlobals prog off st
  subprogs : prog.subprogs = []
  body : InPrinting st prog.body
  /-- The variables, the frame and an argument fit into the address space. -/
  fits : 2 * off + 8 ≤ 2 ^ 64

/-- The words a routine has to keep: an argument, the frame and the variables. -/
def AstProgram.frameWords (prog : AstProgram) : Nat := 2 * prog.globals.length + 1

theorem GlobalTable.headroom {prog : AstProgram} {off : Int} {st : Stab} (table : GlobalTable prog off st)
    (fits : 2 * off + 8 ≤ 2 ^ 64) : Headroom st off prog.frameWords := by
  have count : prog.globals.length = st.vars.length := by rw [← table.names, List.length_map]
  have size := table.size
  have cast : ∀ k : Nat, BitVec.ofInt 64 (8 * (k : Int)) = BitVec.ofNat 64 (8 * k) := fun _ => rfl
  -- the i-th variable is as many words above the end of the frame as there are variables, and i
  have distance : ∀ base x v, LocalInteger st x v → ∃ i < st.vars.length,
      cell base v = base - BitVec.ofInt 64 off + BitVec.ofNat 64 (8 * (st.vars.length + i)) := by
    intro base x v var
    obtain ⟨i, here, -⟩ := table.localInteger_iff.mp var
    refine ⟨i, (List.getElem?_eq_some_iff.mp here).1, ?_⟩
    rw [cell, table.offset i v here, size, cast, cast, Nat.mul_add, BitVec.ofNat_add]
    bv_omega
  constructor
  · intro base x v var
    obtain ⟨i, less, here⟩ := distance base x v var
    have apart : cell base v - below (base - BitVec.ofInt 64 off) 0 =
        BitVec.ofNat 64 (8 * (st.vars.length + i + 1)) := by
      rw [here]
      unfold below
      bv_omega
    rw [apart_iff, apart, BitVec.toNat_ofNat]
    omega
  · intro base x v var
    obtain ⟨i, less, here⟩ := distance base x v var
    refine ⟨st.vars.length + i, ?_, here⟩
    rw [AstProgram.frameWords, count]
    omega

theorem StmtRun.labelsIn {node : StmtNode} {acx acx' : Acx} {code : List Insn}
    (run : StmtRun node acx acx' code) :
    LabelsIn (fun k => acx.label ≤ k ∧ k < acx'.label) code := by
  obtain ⟨all, prints, rfl⟩ := run.prints
  exact ⟨prints.listing.numbered.nodup, prints.listing.numbered.between⟩

theorem shows_main (env : Env) (off : Int) (bodyCode : List Insn) {exit : Nat} (low : 11 ≤ exit)
    (σ : State) :
    ∃ τ, Leads (outputStep env (programCode off bodyCode)) (Inside exit) 4 (7, σ, []) (11, τ, []) ∧
      τ.reg .rbp = σ.reg .rsp ∧ τ.reg .rsp = σ.reg .rsp - BitVec.ofInt 64 off ∧ τ.mem = σ.mem := by
  have located : Located (programCode off bodyCode) 7
      [.label .main, .mov .rbp .rsp, .comment "", .subImm .rsp off] := ⟨bodyCode ++ exitCode, rfl⟩
  have silent : ∀ i ∈ [Insn.label .main, .mov .rbp .rsp, .comment "", .subImm .rsp off],
      i.called = none := by simp [Insn.called]
  have run : runBlock env [.label .main, .mov .rbp .rsp, .comment "", .subImm .rsp off] σ =
      some ((σ.setReg .rbp (σ.reg .rsp)).alu .sub .rsp (BitVec.ofInt 64 off)) := rfl
  exact ⟨_, located.leads_silent _ silent run low, rfl, rfl, rfl⟩

/-- Programs that write integers are accepted. Linked with routines that keep the frame, a run from
main to the exit sequence shows what a terminating run of the program writes, and leaves every
variable's final value in its cell; and each terminating run of the program has such a run. -/
theorem analyze_shows (prog : AstProgram) (off : Int) (st : Stab)
    (printing : PrintingProgram prog off st) :
    ∃ acx code, analyze prog = .ok (acx, code) ∧
      ∀ (env : Env) (σ : State) (s : Store), Writes env prog.frameWords →
        (∀ x ∈ prog.globals, readWord σ.mem (σ.reg .rsp + BitVec.ofInt 64 (offsetOf st x)) = s x) →
        (∀ s' out, prog.body.Prints (magicOf st) s s' out →
          ∃ τ, Reaches (outputStep env code) (mainEntry code, σ, []) (exitEntry code, τ, out)) ∧
        ∀ τ out, Reaches (outputStep env code) (mainEntry code, σ, []) (exitEntry code, τ, out) →
          ∃ s', prog.body.Prints (magicOf st) s s' out ∧
            ∀ x ∈ prog.globals, readWord τ.mem (τ.frame (offsetOf st x)) = s' x := by
  have table := printing.globals.table
  have fits := printing.fits
  obtain ⟨n, bodyCode, run, shows_⟩ := printing.body.compiled table.known (table.apart (by omega))
    (table.headroom fits) (topAcx st) ⟨rfl, rfl, rfl⟩
  have located := located_programCode off bodyCode
  have jumps := jumps_programCode off run.labelsIn run.inner
  refine ⟨_, programCode off bodyCode, analyze_of_body printing.globals printing.subprogs run, ?_⟩
  intro env σ s writes initial
  rw [mainEntry_programCode, exitEntry_programCode]
  obtain ⟨τ₀, start, rbp, rsp, mem⟩ := shows_main env off bodyCode
    (Nat.le_add_right 11 bodyCode.length) σ
  have stores : Stores st (σ.reg .rsp) τ₀ s := by
    refine ⟨rbp, ?_⟩
    intro x v var
    rw [mem, ← initial x (table.mem_globals var), var.offsetOf_eq]
    rfl
  have here : Shows st off (σ.reg .rsp) (τ₀, []) (s, []) := ⟨stores, rsp, rfl⟩
  have placed := shows_ env _ 11 _ 11 (σ.reg .rsp) writes located.left (Nat.le_refl _)
    (Nat.le_refl _) jumps
  have forward : ∀ s' out, prog.body.Prints (magicOf st) s s' out →
      ∃ k τ, Leads (outputStep env (programCode off bodyCode)) (Inside (11 + bodyCode.length)) k
        (7, σ, []) (11 + bodyCode.length, τ, out) ∧ Stores st (σ.reg .rsp) τ s' := by
    intro s' out prints
    obtain ⟨k, ⟨τ, log⟩, leads, stores, -, same⟩ := placed.forward prints here
    cases same
    exact ⟨4 + k, τ, start.trans leads, stores⟩
  constructor
  · intro s' out prints
    obtain ⟨k, τ, leads, -⟩ := forward s' out prints
    exact ⟨τ, leads.reaches⟩
  · rintro τ out ⟨m, reached⟩
    -- the program's run that the code's run comes from leads to the exit too, and runs are unique
    have outside : ¬ Inside (11 + bodyCode.length) (11 + bodyCode.length, τ, out) := Nat.lt_irrefl _
    obtain ⟨-, after⟩ := start.rest reached outside
    obtain ⟨⟨s', out'⟩, prints⟩ := placed.backward here after (Nat.le_refl _)
    obtain ⟨k, τ', leads, there⟩ := forward s' out' prints
    obtain ⟨-, rest⟩ := leads.rest reached outside
    obtain ⟨none_, -, -⟩ := exit_final located.right _ 0 τ' τ (by decide)
      (runFor_logged_iff.mp ⟨out, rest⟩)
    rw [none_] at rest
    cases rest
    refine ⟨s', prints, ?_⟩
    intro x member
    obtain ⟨v, var⟩ := table.global member
    rw [var.offsetOf_eq, State.frame, there.rbp]
    exact there.cells x v var

-- program p(output); var x: integer; begin x := 2; while x > 0 do begin writeln(x); x := x - 1
-- end end
def launch : AstProgram where
  args := ["output"]
  decls := [⟨["x"], .integer⟩]
  subprogs := []
  types := []
  body := .stmts [.assign (.path (astPath "x")) (.lit "2"),
    .wdo (.bin .gt (.path (astPath "x")) (.lit "0")) (.stmts [
      .proc (astPath "writeln") [.path (astPath "x")],
      .assign (.path (astPath "x")) (.bin .minus (.path (astPath "x")) (.lit "1"))])]

theorem launch_table : ∃ st, stabAddAllDecls (registerOutput stabNew) true launch.decls 0 =
    .ok (8, st) ∧ LocalInteger st "x" ⟨0, "x", -1, 0, false⟩ ∧
      magicOf st (astPath "writeln") = some .writeln := by
  have facts : (stabAddAllDecls (registerOutput stabNew) true launch.decls 0).toOption.map (fun r =>
      decide (r.1 = 8 ∧ stabHasLocalVar r.2 "x" = true ∧
        stabVar r.2 (stabResolveVar r.2 "x") = some ⟨0, "x", -1, 0, false⟩ ∧
        magicOf r.2 (astPath "writeln") = some .writeln)) = some true := by
    decide +kernel
  cases result : stabAddAllDecls (registerOutput stabNew) true launch.decls 0 with
  | error s => simp [result, Except.toOption] at facts
  | ok r =>
    obtain ⟨off, st⟩ := r
    simp only [result, Except.toOption, Option.map_some, Option.some.injEq, decide_eq_true_eq] at facts
    obtain ⟨rfl, isLocal, found, magic⟩ := facts
    exact ⟨st, rfl, ⟨isLocal, found, rfl⟩, magic⟩

theorem launch_printing {st : Stab} (x : LocalInteger st "x" ⟨0, "x", -1, 0, false⟩)
    (magic : magicOf st (astPath "writeln") = some .writeln) : InPrinting st launch.body := by
  have lit : ∀ s n, decimal s = some n → n < 2 ^ 63 → Arith st (.lit s) := fun _ _ => .lit
  have zero := lit "0" 0 (by decide +kernel) (by decide)
  have one := lit "1" 1 (by decide +kernel) (by decide)
  have two := lit "2" 2 (by decide +kernel) (by decide)
  have pair : ∀ {a b : AstStmt}, InPrinting st a → InPrinting st b → InPrinting st (.stmts [a, b]) := by
    intro a b first second
    apply InPrinting.stmts
    intro s member
    simp only [List.mem_cons, List.not_mem_nil, or_false] at member
    rcases member with rfl | rfl
    · exact first
    · exact second
  have shown : InPrinting st (.proc (astPath "writeln") [.path (astPath "x")]) := by
    refine .write magic rfl ?_
    intro e member
    rw [List.mem_singleton.mp member]
    exact ⟨.var x, by decide⟩
  have less : InPrinting st (.assign (.path (astPath "x"))
      (.bin .minus (.path (astPath "x")) (.lit "1"))) := .assign x (.bin rfl (.var x) one) (by decide)
  exact pair (.assign x two (by decide)) (.wdo (.compare rfl (.var x) zero (by decide)) (pair shown less))

theorem launch_prints {magic : AstPath → Option Magic} (writeln : magic (astPath "writeln") = some .writeln) :
    ∃ s', launch.body.Prints magic (fun _ => 0) s'
      [.integer 2, .newline, .integer 1, .newline] := by
  unfold AstStmt.Prints launch
  simp only [AstStmt.commands, AstStmt.commandsAll, writeln, AstStmt.writing]
  refine ⟨_, .seq .act (.seq (.again ?_ (.seq .act (.seq .act .skip)) (.again ?_
    (.seq .act (.seq .act .skip)) (.done ?_))) .skip)⟩
  all_goals decide +kernel

-- The program, linked with routines that return at once, shows that.
theorem launch_shown : ∃ acx code τ, analyze launch = .ok (acx, code) ∧
    Reaches (outputStep atOnce code) (mainEntry code, zeroState, [])
      (exitEntry code, τ, [.integer 2, .newline, .integer 1, .newline]) := by
  obtain ⟨st, added, x, magic⟩ := launch_table
  have plain : ∀ d ∈ launch.decls, d.type.plainIndex (registerOutput stabNew) = some integerTypeIdx := by
    intro d member
    rw [List.mem_singleton.mp member]
    rfl
  have returns : Writes atOnce launch.frameWords :=
    ⟨fun _ _ σ => ⟨σ, rfl, fun _ _ _ => rfl, fun _ _ => rfl⟩⟩
  obtain ⟨acx, code, accepted, runs⟩ := analyze_shows launch 8 st
    ⟨⟨registerOutput stabNew, registerOutput stabNew, rfl, rfl, plain, added⟩, rfl,
      launch_printing x magic, by omega⟩
  have empty : ∀ a, readWord zeroState.mem a = 0 := fun a => by simp [zeroState, readWord, wordOf]
  obtain ⟨s', prints⟩ := launch_prints magic
  obtain ⟨τ, reached⟩ := (runs atOnce zeroState (fun _ => 0) returns fun x _ => empty _).1 s' _ prints
  exact ⟨acx, code, τ, accepted, reached⟩

end Dragon
