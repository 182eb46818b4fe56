import Dragon.Codegen.Globals

/-! Compilation of programs of the structured core.

The global variables are integers, so their cells are the consecutive words from
rbp on. All code is that of main, and its local labels are in one region.
-/

set_option autoImplicit false

namespace Dragon

open Analysis ByteMemory PartialStep StructuredCode

/-! ## The code of the program -/

theorem GlobalTable.storeGlobals {prog : AstProgram} {off : Int} (acx : Acx)
    (table : GlobalTable prog off acx.st) :
    storeGlobals acx.st.innermost.vars.entries acx = .ok ((), acx, []) := by
  have unused : ∀ ent ∈ acx.st.innermost.vars.entries,
      ∃ v, stabVar acx.st ent.val = some v ∧ v.captured = false := by
    intro ent member
    have nonneg := table.nonneg ent member
    have small := table.valid acx.st.innermost List.mem_cons_self ent.key
    rw [NameTable.lookup_of_mem_entries member] at small
    have inside : ent.val.toNat < acx.st.vars.length := by omega
    have found := List.getElem?_eq_getElem inside
    refine ⟨_, ?_, table.unused _ (List.mem_of_getElem? found)⟩
    rw [stabVar, arenaGet, if_pos nonneg, found]
  generalize acx.st.innermost.vars.entries = entries at unused
  induction entries with
  | nil => rfl
  | cons ent entries ih =>
    obtain ⟨v, found, free⟩ := unused ent List.mem_cons_self
    simp only [Dragon.storeGlobals, get_bind_eq_ok, ofOption_bind_eq_ok]
    refine ⟨v, found, ?_⟩
    rw [free, if_neg (by decide)]
    exact ih fun other member => unused other (List.mem_cons_of_mem _ member)

def mainPrefix (off : Int) : List Insn := header ++ mainOpen off

/-- The context in which the body of the main program is analyzed. -/
def topAcx (st : Stab) : Acx := { initialAcx.setSt st with toplevel := true }

theorem analyze_of_body {prog : AstProgram} {off : Int} {st : Stab} {acx : Acx}
    {bodyCode : List Insn} (globals : IntegerGlobals prog off st) (none_ : prog.subprogs = [])
    (body : StmtRun (.stmt prog.body) (topAcx st) acx bodyCode) :
    analyze prog = .ok (acx, mainPrefix off ++ (bodyCode ++ exitCode)) := by
  obtain ⟨st₁, st₂, imports, types, -, added⟩ := globals.declared
  have stored := GlobalTable.storeGlobals (initialAcx.setSt st) globals.table
  have opened : openProgram prog initialAcx = .ok (off, initialAcx.setSt st, header) := by
    simp only [openProgram, emit_bind_eq_ok, withStab_bind_eq_ok, except_bind_eq_ok, withStab_eq_ok]
    exact ⟨_, ⟨(), st₁, ⟨st₁, imports, rfl⟩, (), st₂, ⟨st₂, types, rfl⟩, st, added, rfl, rfl⟩,
      (List.append_nil _).symm⟩
  have main : mainCode off prog.body (initialAcx.setSt st) =
      .ok ((), acx, mainOpen off ++ (bodyCode ++ exitCode)) := by
    simp only [mainCode, emit_bind_eq_ok, get_bind_eq_ok]
    refine ⟨_, ⟨_, ?_, rfl⟩, rfl⟩
    rw [bind_eq_ok]
    refine ⟨(), _, [], _, stored, ?_, rfl⟩
    simp only [modify_bind_eq_ok]
    rw [bind_eq_ok]
    exact ⟨(), acx, bodyCode, exitCode, body.accepted, emit_eq_ok.mpr ⟨rfl, rfl⟩, rfl⟩
  have whole : analyzeProgram prog initialAcx =
      .ok ((), acx, mainPrefix off ++ (bodyCode ++ exitCode)) := by
    simp only [analyzeProgram]
    rw [bind_eq_ok]
    refine ⟨off, _, header, _, opened, ?_, by rw [mainPrefix, List.append_assoc]⟩
    rw [none_, bind_eq_ok]
    exact ⟨(), _, [], _, rfl, main, rfl⟩
  rw [analyze, whole]

/-! ## Running the program -/

def mainEntry (code : List Insn) : Nat := code.idxOf (.label .main)

def exitEntry (code : List Insn) : Nat := code.length - exitCode.length

def programCode (off : Int) (bodyCode : List Insn) : List Insn :=
  mainPrefix off ++ (bodyCode ++ exitCode)

theorem mainPrefix_length (off : Int) : (mainPrefix off).length = 11 := rfl

theorem mainEntry_programCode (off : Int) (bodyCode : List Insn) :
    mainEntry (programCode off bodyCode) = 7 := by
  simp [mainEntry, programCode, mainPrefix, header, mainOpen]

theorem exitEntry_programCode (off : Int) (bodyCode : List Insn) :
    exitEntry (programCode off bodyCode) = 11 + bodyCode.length := by
  rw [exitEntry, programCode, List.length_append, List.length_append, mainPrefix_length]
  omega

theorem located_programCode (off : Int) (bodyCode : List Insn) :
    Located (programCode off bodyCode) 11 (bodyCode ++ exitCode) := ⟨[], by
  rw [programCode, ← mainPrefix_length off, List.drop_left, List.append_nil]⟩

theorem jumps_programCode (off : Int) {bodyCode : List Insn} {P : Nat → Prop}
    (labels : LabelsIn P bodyCode) (inner : ∀ i ∈ bodyCode, i.inner = true) :
    Jumps (programCode off bodyCode) 11 := by
  -- all local labels of a program without subprograms are in the region of main
  have nodup : (labelsOf (programCode off bodyCode)).Nodup := by
    have split : labelsOf (programCode off bodyCode) = .main :: labelsOf bodyCode := by
      rw [programCode, labelsOf_append, labelsOf_append]
      exact congrArg (Label.main :: ·) (List.append_nil _)
    rw [split, List.nodup_cons]
    refine ⟨?_, labels.nodup⟩
    intro member
    obtain ⟨k, same, -⟩ := labels.range _ member
    cases same
  have exits : ∀ i ∈ exitCode, isBoundary i = false := by decide
  have none_ : ∀ i ∈ bodyCode ++ exitCode, isBoundary i = false := by
    intro i member
    rcases List.mem_append.mp member with member | member
    · exact isBoundary_of_inner (inner i member)
    · exact exits i member
  intro p q k above above' here
  apply resolveLabel_of_unique nodup here
  have le : ∀ r, 11 ≤ r → (mainPrefix off).length ≤ r + 1 := by
    intro r less
    rw [mainPrefix_length]
    omega
  rw [programCode, region_eq none_ (le q above'), region_eq none_ (le p above)]

theorem leads_main (env : Env) (off : Int) (bodyCode : List Insn) {exit : Nat} (low : 11 ≤ exit)
    (σ : State) :
    ∃ τ, Leads (step env (programCode off bodyCode)) (Inside exit) 4 (7, σ) (11, τ) ∧
      τ.reg .rbp = σ.reg .rsp ∧ τ.mem = σ.mem := by
  have located : Located (programCode off bodyCode) 7
      [.label .main, .mov .rbp .rsp, .comment "", .subImm .rsp off] := ⟨bodyCode ++ exitCode, rfl⟩
  have run : runBlock env [.label .main, .mov .rbp .rsp, .comment "", .subImm .rsp off] σ =
      some ((σ.setReg .rbp (σ.reg .rsp)).alu .sub .rsp (BitVec.ofInt 64 off)) := rfl
  exact ⟨_, located.leads run low, rfl, rfl⟩

theorem exit_final {env : Env} {code : List Insn} {p : Nat} (located : Located code p exitCode) :
    ∀ (n j : Nat) (σ τ : State), j ≤ 3 → runFor (step env code) n (p + j, σ) = some (p, τ) →
      n = 0 ∧ j = 0 ∧ σ = τ := by
  -- control never comes back to the start of the exit sequence
  intro n
  induction n with
  | zero =>
    intro j σ τ _ run
    simp only [runFor, Option.some.injEq, Prod.mk.injEq] at run
    exact ⟨rfl, by omega, run.2⟩
  | succ n ih =>
    intro j σ τ le run
    have line : code[p + j]? = exitCode[j]? := by
      obtain ⟨rest, split⟩ := located
      have here := congrArg (fun l => l[j]?) split
      simp only [List.getElem?_drop] at here
      rw [← here, List.getElem?_append_left (by simp [exitCode]; omega)]
    have next : ∀ i, exitCode[j]? = some i → i.straight = true → j + 1 ≤ 3 → False := by
      intro i here straight less
      rw [here] at line
      rw [runFor] at run
      obtain ⟨c, stepped, rest⟩ := Option.bind_eq_some_iff.mp run
      have moved : c.1 = p + j + 1 := by
        unfold step at stepped
        rw [line] at stepped
        cases i <;> cases straight <;>
          (obtain ⟨υ, -, rfl⟩ := Option.map_eq_some_iff.mp stepped; rfl)
      have again := ih (j + 1) c.2 τ less (by rw [← rest, ← Nat.add_assoc, ← moved])
      exact absurd again.2.1 (Nat.succ_ne_zero j)
    have four : j = 0 ∨ j = 1 ∨ j = 2 ∨ j = 3 := by omega
    rcases four with rfl | rfl | rfl | rfl
    · exact (next _ rfl rfl (by decide)).elim
    · exact (next _ rfl rfl (by decide)).elim
    · exact (next _ rfl rfl (by decide)).elim
    · -- the last line of the sequence leaves the program
      have stuck : step env code (p + 3, σ) = none := by
        unfold step
        rw [line]
        rfl
      rw [runFor, stuck] at run
      cases run

/-- The program is accepted, and the code run from main comes to the exit sequence just when the
program terminates, with every variable's cell holding its final value. -/
def Preserved (prog : AstProgram) : Prop :=
  ∃ acx code, analyze prog = .ok (acx, code) ∧ Located code (exitEntry code) exitCode ∧
    ∀ (env : Env) (σ : State) (s : Store),
      (∀ x ∈ prog.globals,
        readWord σ.mem (σ.reg .rsp + BitVec.ofInt 64 (offsetOf acx.st x)) = s x) →
      ((∃ τ, Reaches (step env code) (mainEntry code, σ) (exitEntry code, τ)) ↔
        ∃ s', prog.body.Exec s s') ∧
      ∀ τ s', Reaches (step env code) (mainEntry code, σ) (exitEntry code, τ) →
        prog.body.Exec s s' → τ.reg .rbp = σ.reg .rsp ∧
          ∀ x ∈ prog.globals, readWord τ.mem (τ.frame (offsetOf acx.st x)) = s' x

theorem IntegerGlobals.preserved {prog : AstProgram} {off : Int} {st : Stab}
    (globals : IntegerGlobals prog off st) (core : CoreProgram prog) : Preserved prog := by
  have table := globals.table
  have fits : off ≤ 2 ^ 64 := by
    have count : prog.globals.length = st.vars.length := by rw [← table.names, List.length_map]
    have size := table.size
    have small := core.fits
    omega
  have body : InCore st prog.body :=
    AstStmt.isCore_inCore (fun x member => table.global member) core.body
  obtain ⟨n, bodyCode, run, emitted⟩ := body.compiled table.known (table.apart fits) (topAcx st)
    ⟨rfl, rfl, rfl⟩
  have located := located_programCode off bodyCode
  have jumps := jumps_programCode off emitted.labels run.inner
  refine ⟨_, programCode off bodyCode, analyze_of_body globals core.subprogs run, ?_, ?_⟩
  · rw [exitEntry_programCode]
    exact located.right
  rw [show ((topAcx st).atLabel n).st = st from rfl]
  intro env σ s initial
  rw [mainEntry_programCode, exitEntry_programCode]
  obtain ⟨τ₀, start, rbp, mem⟩ := leads_main env off bodyCode
    (Nat.le_add_right 11 bodyCode.length) σ
  have stores : Stores st (σ.reg .rsp) τ₀ s := by
    refine ⟨rbp, ?_⟩
    intro x v var
    rw [mem, ← initial x (table.mem_globals var), var.offsetOf_eq]
    rfl
  have placed := emitted.runs env _ 11 _ 11 (σ.reg .rsp) located.left (Nat.le_refl _) (Nat.le_refl _)
    jumps
  have forward : ∀ s', prog.body.Exec s s' → ∃ k τ, Leads (step env (programCode off bodyCode))
      (Inside (11 + bodyCode.length)) k (7, σ) (11 + bodyCode.length, τ) ∧
        Stores st (σ.reg .rsp) τ s' := by
    intro s' exec
    obtain ⟨k, τ, leads, there⟩ := placed.forward exec stores
    exact ⟨4 + k, τ, start.trans leads, there⟩
  refine ⟨⟨?_, ?_⟩, ?_⟩
  · rintro ⟨τ, k, reached⟩
    have outside : ¬ Inside (11 + bodyCode.length) (11 + bodyCode.length, τ) := Nat.lt_irrefl _
    obtain ⟨-, rest⟩ := start.rest reached outside
    exact placed.backward stores rest (Nat.le_refl _)
  · rintro ⟨s', exec⟩
    obtain ⟨k, τ, leads, -⟩ := forward s' exec
    exact ⟨τ, leads.reaches⟩
  · rintro τ s' ⟨m, reached⟩ exec
    obtain ⟨k, τ', leads, there⟩ := forward s' exec
    have outside : ¬ Inside (11 + bodyCode.length) (11 + bodyCode.length, τ) := Nat.lt_irrefl _
    obtain ⟨-, rest⟩ := leads.rest reached outside
    obtain ⟨-, -, rfl⟩ := exit_final located.right _ 0 τ' τ (by decide) rest
    refine ⟨there.rbp, ?_⟩
    intro x member
    obtain ⟨v, var⟩ := table.global member
    rw [var.offsetOf_eq, State.frame, there.rbp]
    exact there.cells x v var

theorem keepsNames_of_accepted {prog : AstProgram} {acx : Acx} {code : List Insn}
    (accepted : analyze prog = .ok (acx, code)) : prog.KeepsNames := by
  obtain ⟨off, st, acx₁, subsCode, bodyCode, run⟩ := analyze_run accepted
  obtain ⟨st₁, st₂, -, types, -⟩ := run.globals
  unfold AstProgram.KeepsNames
  generalize prog.types = decls at types
  induction decls generalizing st₁ with
  | nil => exact fun t member => absurd member List.not_mem_nil
  | cons t decls ih =>
    obtain ⟨st₃, added, rest⟩ := except_bind_eq_ok.mp types
    exact List.forall_mem_cons.mpr ⟨(stabAddType_eq_ok.mp added).2.1, ih st₃ rest⟩

/-- A program of the core is compiled to code of its meaning exactly when none of its types is
declared as a built-in type or as another name. -/
theorem preserved_iff (prog : AstProgram) (core : CoreProgram prog) :
    Preserved prog ↔ prog.KeepsNames := by
  constructor
  · rintro ⟨acx, code, accepted, -⟩
    exact keepsNames_of_accepted accepted
  · intro keeps
    obtain ⟨off, st, globals⟩ := core.exists_globals keeps
    exact globals.preserved core

-- type link = ^integer; var x, y: integer; begin x := 2; while x > 0 do begin y := y + x; x := x
-- - 1 end end
def countdown : AstProgram where
  args := []
  decls := [⟨["x", "y"], .integer⟩]
  subprogs := []
  types := [⟨"link", .pointer .integer⟩]
  body := .stmts [.assign (.path (astPath "x")) (.lit "2"),
    .wdo (.bin .gt (.path (astPath "x")) (.lit "0")) (.stmts [
      .assign (.path (astPath "y")) (.bin .plus (.path (astPath "y")) (.path (astPath "x"))),
      .assign (.path (astPath "x")) (.bin .minus (.path (astPath "x")) (.lit "1"))])]

theorem countdown_core : CoreProgram countdown where
  libraries := by decide
  written := by decide
  types := by decide
  integers := by decide
  globals := by decide
  subprogs := rfl
  body := by decide +kernel
  fits := by decide

theorem countdown_exec : ∃ s', countdown.body.Exec (fun _ => 0) s' ∧ s' "y" = 3 := by
  refine ⟨_, .seq .act (.seq (.again ?_ (.seq .act (.seq .act .skip)) (.again ?_
    (.seq .act (.seq .act .skip)) (.done ?_))) .skip), ?_⟩
  all_goals decide +kernel

-- The program stops with 3 in the cell of y.
theorem countdown_preserved : ∃ acx code τ, analyze countdown = .ok (acx, code) ∧
    Reaches (step noCalls code) (mainEntry code, zeroState) (exitEntry code, τ) ∧
    readWord τ.mem (τ.frame (offsetOf acx.st "y")) = 3 := by
  obtain ⟨acx, code, accepted, -, runs⟩ := (preserved_iff countdown countdown_core).mpr (by decide)
  have empty : ∀ a, readWord zeroState.mem a = 0 := fun a => by simp [zeroState, readWord, wordOf]
  obtain ⟨halts, values⟩ := runs noCalls zeroState (fun _ => 0) fun x _ => empty _
  obtain ⟨s', exec, last⟩ := countdown_exec
  obtain ⟨τ, reached⟩ := halts.mpr ⟨s', exec⟩
  have cell := (values τ s' reached exec).2 "y" (by decide)
  exact ⟨acx, code, τ, accepted, reached, cell.trans last⟩

-- type t = integer; var x: t; begin x := 1 end.
def aliasedGlobal : AstProgram :=
  ⟨[], [⟨["x"], .ref "t"⟩], [], [⟨"t", .integer⟩], .stmts [.assign (.path (astPath "x")) (.lit "1")]⟩

theorem aliasedGlobal_core : CoreProgram aliasedGlobal where
  libraries := by decide
  written := by decide
  types := by decide
  integers := by decide
  globals := by decide
  subprogs := rfl
  body := by decide +kernel
  fits := by decide

-- The name of the alias is freed before it is inserted.
theorem not_forall_preserved : ¬ ∀ prog : AstProgram, CoreProgram prog → Preserved prog := by
  intro all
  obtain ⟨acx, code, accepted, -⟩ := all aliasedGlobal aliasedGlobal_core
  have keeps := keepsNames_of_accepted accepted
  exact absurd (keeps ⟨"t", .integer⟩ List.mem_cons_self) (by decide)

end Dragon
