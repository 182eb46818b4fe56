import Dragon.Codegen.Core
import Dragon.Codegen.Tables
import Dragon.Symbol.Usable

/-! The global variables of a program of the structured core.

They are integers, so their cells are the consecutive words from rbp on. A
program whose types keep their names gets its table of globals; one that names
integer, or another type, has no table, as the name is gone.
-/

set_option autoImplicit false

namespace Dragon

open Analysis ByteMemory PartialStep StructuredCode

/-! ## The table of the globals -/

/-- A table in which only types and magic functions have been declared. -/
structure NoVars (st : Stab) : Prop where
  vars : st.vars = []
  enclosing : st.enclosing = []
  names : st.innermost.vars = .empty
  types : stabNew.types <+: st.types

theorem noVars_stabNew : NoVars stabNew := ⟨rfl, rfl, rfl, List.prefix_rfl⟩

theorem NoVars.magic {st : Stab} (none_ : NoVars st) (which : Magic) :
    NoVars (stabAddMagicFunc st which) :=
  ⟨none_.vars, none_.enclosing, none_.names, none_.types.trans (List.prefix_append _ _)⟩

theorem doImports_noVars {args : List Name} {st st' : Stab} (none_ : NoVars st)
    (imports : doImports st args = .ok st') : NoVars st' :=
  doImports_preserves (fun _ which before => before.magic which) none_ imports

theorem stabAddAllTypes_noVars {types : List AstTypeDecl} {st st' : Stab} (none_ : NoVars st)
    (added : stabAddAllTypes st types = .ok st') : NoVars st' := by
  induction types generalizing st with
  | nil =>
    cases added
    exact none_
  | cons t types ih =>
    simp only [stabAddAllTypes, except_bind_eq_ok] at added
    obtain ⟨st₁, first, rest⟩ := added
    refine ih ?_ rest
    obtain ⟨-, -, type, st₂, resolved, rfl⟩ := stabAddType_eq_ok.mp first
    have more := stabResolveType_more t.type resolved
    exact ⟨more.vars.trans none_.vars, more.enclosing.trans none_.enclosing,
      (congrArg StabScope.vars more.innermost).trans none_.names, none_.types.trans more.types⟩

/-- The symbol table of a program whose global variables are all of type integer. -/
structure IntegerGlobals (prog : AstProgram) (off : Int) (st : Stab) : Prop where
  declared : ∃ st₁ st₂, doImports stabNew prog.args = .ok st₁ ∧
    stabAddAllTypes st₁ prog.types = .ok st₂ ∧
    (∀ d ∈ prog.decls, d.type.plainIndex st₂ = some integerTypeIdx) ∧
    stabAddAllDecls st₂ true prog.decls 0 = .ok (off, st)

theorem Laid.integers {st : Stab} (known : stabType st integerTypeIdx = some ⟨.integer, 8, none⟩)
    {vars : List StabVar} {off off' : Int} (laid : Laid st true off vars off')
    (types : ∀ v ∈ vars, v.type = integerTypeIdx) :
    off' = off + 8 * vars.length ∧
      ∀ (i : Nat) (v : StabVar), vars[i]? = some v → v.stackBaseOffset = off + 8 * i := by
  induction vars generalizing off with
  | nil =>
    cases laid
    refine ⟨by simp, ?_⟩
    intro i v found
    simp at found
  | cons v vars ih =>
    obtain ⟨here, t, found, rest⟩ := laid
    rw [types v List.mem_cons_self, known] at found
    cases found
    obtain ⟨last, inside⟩ := ih rest fun w member => types w (List.mem_cons_of_mem _ member)
    rw [List.length_cons]
    refine ⟨by simp only [if_true] at last; omega, ?_⟩
    intro i w there
    cases i with
    | zero =>
      cases there
      simpa using here
    | succ i =>
      have offset := inside i w there
      simp only [if_true] at offset
      omega

structure GlobalTable (prog : AstProgram) (off : Int) (st : Stab) : Prop where
  known : stabType st integerTypeIdx = some ⟨.integer, 8, none⟩
  size : off = 8 * st.vars.length
  offset : ∀ (i : Nat) (v : StabVar), st.vars[i]? = some v → v.stackBaseOffset = 8 * i
  integer : ∀ v ∈ st.vars, v.type = integerTypeIdx
  unused : ∀ v ∈ st.vars, v.captured = false
  bound : ∀ (i : Nat) (v : StabVar), st.vars[i]? = some v → stabResolveVar st v.name = i ∧
    stabHasLocalVar st v.name = true
  other : ∀ x ∉ prog.globals, stabHasLocalVar st x = false
  names : st.vars.map StabVar.name = prog.globals
  valid : st.Valid
  nonneg : ∀ ent ∈ st.innermost.vars.entries, 0 ≤ ent.val

theorem IntegerGlobals.table {prog : AstProgram} {off : Int} {st : Stab}
    (globals : IntegerGlobals prog off st) : GlobalTable prog off st := by
  obtain ⟨st₁, st₂, imports, types, plain, added⟩ := globals.declared
  have start := stabAddAllTypes_noVars (doImports_noVars noVars_stabNew imports) types
  obtain ⟨vars, declared, laid, -, indices⟩ := stabAddAllDecls_laid plain added
  have known : stabType st integerTypeIdx = some ⟨.integer, 8, none⟩ :=
    stabType_mono (start.types.trans declared.types) rfl
  have all : st.vars = vars := by rw [declared.vars_eq, start.vars, List.nil_append]
  have integer : ∀ v ∈ vars, v.type = integerTypeIdx := by
    intro v member
    have inside : v.type ∈ vars.map StabVar.type := List.mem_map_of_mem member
    rw [indices, List.mem_flatMap] at inside
    obtain ⟨d, -, there⟩ := inside
    obtain ⟨n, -, same⟩ := List.mem_map.mp there
    exact same.symm
  obtain ⟨size, offset⟩ := laid.integers known integer
  rw [Int.zero_add] at size
  have bound : ∀ (i : Nat) (v : StabVar), vars[i]? = some v →
      st.innermost.vars.lookup v.name = i := by
    intro i v found
    rw [declared.bound i v found, start.vars]
    simp
  refine ⟨known, by rw [all]; exact size, ?_, by rw [all]; exact integer,
    by rw [all]; exact declared.unused, ?_, ?_, by rw [all]; exact declared.names_eq, ?_, ?_⟩
  · intro i v found
    rw [all] at found
    rw [offset i v found, Int.zero_add]
  · intro i v found
    rw [all] at found
    have lookup := bound i v found
    have some_ : st.innermost.vars.lookup v.name ≠ resolveFailure := by
      rw [lookup, resolveFailure]
      omega
    exact ⟨(stabResolveVar_innermost some_).trans lookup, by simp [stabHasLocalVar, some_]⟩
  · intro x outside
    have same := declared.other x outside
    rw [start.names, NameTable.lookup_empty] at same
    simp [stabHasLocalVar, same]
  · exact (stabAddAllDecls_extends added).valid
      ((stabAddAllTypes_extends types).valid (doImports_valid imports Stab.valid_stabNew))
  · intro ent member
    rcases declared.entries ent member with old | new
    · rw [start.names, NameTable.entries_empty] at old
      cases old
    · exact new

namespace GlobalTable

variable {prog : AstProgram} {off : Int} {st : Stab}

theorem localInteger_iff (table : GlobalTable prog off st) {x : Name} {v : StabVar} :
    LocalInteger st x v ↔ ∃ i : Nat, st.vars[i]? = some v ∧ v.name = x := by
  constructor
  · intro var
    have member : x ∈ st.vars.map StabVar.name := by
      rw [table.names]
      by_contra outside
      have none_ := table.other x outside
      rw [var.isLocal] at none_
      cases none_
    obtain ⟨w, inside, rfl⟩ := List.mem_map.mp member
    obtain ⟨i, small, rfl⟩ := List.mem_iff_getElem.mp inside
    have here := List.getElem?_eq_getElem small
    have found := var.found
    rw [(table.bound i _ here).1, stabVar, arenaGet, if_pos (Int.natCast_nonneg i), Int.toNat_natCast,
      here] at found
    cases found
    exact ⟨i, here, rfl⟩
  · rintro ⟨i, here, rfl⟩
    obtain ⟨resolved, isLocal⟩ := table.bound i v here
    refine ⟨isLocal, ?_, table.integer v (List.mem_of_getElem? here)⟩
    rw [resolved, stabVar, arenaGet, if_pos (Int.natCast_nonneg i), Int.toNat_natCast, here]

theorem global (table : GlobalTable prog off st) {x : Name} (member : x ∈ prog.globals) :
    ∃ v, LocalInteger st x v := by
  rw [← table.names] at member
  obtain ⟨v, inside, rfl⟩ := List.mem_map.mp member
  obtain ⟨i, small, rfl⟩ := List.mem_iff_getElem.mp inside
  exact ⟨_, table.localInteger_iff.mpr ⟨i, List.getElem?_eq_getElem small, rfl⟩⟩

theorem mem_globals (table : GlobalTable prog off st) {x : Name} {v : StabVar}
    (var : LocalInteger st x v) : x ∈ prog.globals := by
  by_contra outside
  have none_ := table.other x outside
  rw [var.isLocal] at none_
  cases none_

theorem apart (table : GlobalTable prog off st) (fits : off ≤ 2 ^ 64) : CellsApart st := by
  -- the cells of two globals are different multiples of eight apart
  intro base x y v w var var' ne
  obtain ⟨i, here, rfl⟩ := table.localInteger_iff.mp var
  obtain ⟨j, there, rfl⟩ := table.localInteger_iff.mp var'
  have differ : i ≠ j := by
    rintro rfl
    rw [here] at there
    cases there
    exact ne rfl
  have small := (List.getElem?_eq_some_iff.mp here).1
  have small' := (List.getElem?_eq_some_iff.mp there).1
  have size := table.size
  unfold cell
  rw [table.offset i v here, table.offset j w there, BitVec.add_comm base, BitVec.add_comm base,
    apart_add_right]
  have cast : ∀ k : Nat, BitVec.ofInt 64 (8 * (k : Int)) = BitVec.ofNat 64 (8 * k) := fun k => rfl
  rw [cast, cast]
  unfold Apart
  rw [BitVec.toNat_sub, BitVec.toNat_sub, BitVec.toNat_ofNat, BitVec.toNat_ofNat]
  omega

end GlobalTable

/-! ## The body -/

section

variable {st : Stab} {vars : List Name} (integers : ∀ x ∈ vars, ∃ v, LocalInteger st x v)
include integers

theorem AstExpr.isArithmetic_arith : ∀ {e : AstExpr}, e.isArithmetic vars = true → Arith st e
  | .lit s, check => by
      rw [AstExpr.isArithmetic] at check
      cases digits : decimal s with
      | none =>
        rw [digits] at check
        cases check
      | some n =>
        rw [digits] at check
        exact .lit digits (of_decide_eq_true check)
  | .path ⟨x, rest⟩, check => by
      obtain ⟨single, member⟩ := of_decide_eq_true check
      obtain ⟨v, var⟩ := integers x member
      obtain rfl : rest = [] := single
      exact .var var
  | .bin op left right, check => by
      simp only [AstExpr.isArithmetic, Bool.and_eq_true] at check
      obtain ⟨alu, arithmetic⟩ : ∃ alu, op.alu = some alu := by
        cases op <;> cases check.1 <;> exact ⟨_, rfl⟩
      exact .bin arithmetic (isArithmetic_arith check.2.1) (isArithmetic_arith check.2.2)
  | .app .., check | .deref _, check | .idx .., check | .un .., check | .addrof _, check => by
      cases check

theorem AstExpr.isComparison_core : ∀ {e : AstExpr}, e.isComparison vars = true → CoreCond st e
  | .bin op left right, check => by
      simp only [AstExpr.isComparison, Bool.and_eq_true, decide_eq_true_eq] at check
      obtain ⟨⟨relop, first, second⟩, enough⟩ := check
      exact .compare relop (isArithmetic_arith integers first) (isArithmetic_arith integers second)
        enough
  | .app .., check | .deref _, check | .idx .., check | .lit _, check | .path _, check
  | .un .., check | .addrof _, check => by cases check

end

mutual

theorem AstStmt.isCore_inCore {st : Stab} {vars : List Name}
    (integers : ∀ x ∈ vars, ∃ v, LocalInteger st x v) :
    ∀ {s : AstStmt}, s.isCore vars = true → InCore st s
  | .null, _ => .null
  | .assign (.path ⟨x, rest⟩) e, check => by
      simp only [AstStmt.isCore, Bool.and_eq_true, decide_eq_true_eq] at check
      obtain ⟨⟨single, member⟩, arith, enough⟩ := check
      obtain ⟨v, var⟩ := integers x member
      obtain rfl : rest = [] := single
      exact .assign var (AstExpr.isArithmetic_arith integers arith) enough
  | .ite cond thenn elze, check => by
      simp only [AstStmt.isCore, Bool.and_eq_true] at check
      exact .ite (AstExpr.isComparison_core integers check.1)
        (AstStmt.isCore_inCore integers check.2.1) (AstStmt.isCore_inCore integers check.2.2)
  | .stmts body, check => .stmts (areCore_inCore integers check)
  | .wdo cond body, check => by
      simp only [AstStmt.isCore, Bool.and_eq_true] at check
      exact .wdo (AstExpr.isComparison_core integers check.1)
        (AstStmt.isCore_inCore integers check.2)
  | .assign (.app ..) _, check | .assign (.bin ..) _, check | .assign (.deref _) _, check
  | .assign (.idx ..) _, check | .assign (.lit _) _, check | .assign (.un ..) _, check
  | .assign (.addrof _) _, check | .foor .., check | .proc .., check => by
      simp [AstStmt.isCore] at check

theorem areCore_inCore {st : Stab} {vars : List Name}
    (integers : ∀ x ∈ vars, ∃ v, LocalInteger st x v) :
    ∀ {body : List AstStmt}, areCore vars body = true → ∀ s ∈ body, InCore st s
  | [], _ => fun _ member => absurd member List.not_mem_nil
  | s :: body, check => by
      simp only [areCore, Bool.and_eq_true] at check
      exact List.forall_mem_cons.mpr
        ⟨AstStmt.isCore_inCore integers check.1, areCore_inCore integers check.2⟩

end

/-! ## Which programs have one -/

/-- A program without subprograms whose libraries are known, whose names are declared once, whose
variables are integers that fit into the address space and whose body is in the core. -/
structure CoreProgram (prog : AstProgram) : Prop where
  libraries : ∀ l ∈ prog.args, l = "input" ∨ l = "output"
  written : ∀ t ∈ prog.types, t.type.written = true
  types : (prog.types.map AstTypeDecl.name).Nodup
  integers : ∀ d ∈ prog.decls, d.type.isInteger (integerNames prog.types) = true
  globals : prog.globals.Nodup
  subprogs : prog.subprogs = []
  body : prog.body.isCore prog.globals = true
  fits : 8 * prog.globals.length ≤ 2 ^ 64

/-- No type is declared as a built-in type or as another name, whose name is freed. -/
def AstProgram.KeepsNames (prog : AstProgram) : Prop := ∀ t ∈ prog.types, t.type.isComplex = true

instance (prog : AstProgram) : Decidable prog.KeepsNames :=
  inferInstanceAs (Decidable (∀ t ∈ prog.types, t.type.isComplex = true))

theorem doImports_ok {args : List Name} (libraries : ∀ l ∈ args, l = "input" ∨ l = "output")
    (st : Stab) : ∃ st', doImports st args = .ok st' ∧ st'.innermost.types = st.innermost.types := by
  induction args generalizing st with
  | nil => exact ⟨st, rfl, rfl⟩
  | cons l args ih =>
    rw [List.forall_mem_cons] at libraries
    unfold doImports
    rcases libraries.1 with rfl | rfl
    · obtain ⟨st', imports, same⟩ := ih libraries.2 (registerInput st)
      exact ⟨st', by rwa [if_pos rfl], same⟩
    · obtain ⟨st', imports, same⟩ := ih libraries.2 (registerOutput st)
      exact ⟨st', by rwa [if_neg (by decide), if_pos rfl], same⟩

theorem stabAddAllTypes_ok {types : List AstTypeDecl} {st : Stab} (sound : st.Sound)
    (written : ∀ t ∈ types, t.type.written = true) (complex : ∀ t ∈ types, t.type.isComplex = true)
    (distinct : (types.map AstTypeDecl.name).Nodup)
    (fresh : ∀ t ∈ types, stabHasLocalType st t.name = false) :
    ∃ st', stabAddAllTypes st types = .ok st' := by
  induction types generalizing st with
  | nil => exact ⟨st, rfl⟩
  | cons t types ih =>
    rw [List.forall_mem_cons] at written complex fresh
    rw [List.map_cons, List.nodup_cons] at distinct
    obtain ⟨i, st₁, resolved⟩ := stabResolveType_ok t.type sound written.1
    have added : stabAddType st t.name t.type = .ok (st₁.insertType t.name i) :=
      stabAddType_eq_ok.mpr ⟨fresh.1, complex.1, i, st₁, resolved, rfl⟩
    have later : ∀ u ∈ types, stabHasLocalType (st₁.insertType t.name i) u.name = false := by
      intro u member
      have other : u.name ≠ t.name := fun same =>
        distinct.1 (same ▸ List.mem_map_of_mem member)
      have before := fresh.2 u member
      rw [stabHasLocalType, Stab.insertType, NameTable.lookup_insert_of_ne _ _ other,
        (stabResolveType_scopes t.type resolved).innermost]
      exact before
    obtain ⟨st', rest⟩ := ih ((stabAddType_steps 0 sound added).sound sound) written.2 complex.2
      distinct.2 later
    exact ⟨st', except_bind_eq_ok.mpr ⟨_, added, rest⟩⟩

theorem stabAddNames_ok {names : List Name} {st : Stab} (off : Int)
    (known : stabType st integerTypeIdx = some ⟨.integer, 8, none⟩) (distinct : names.Nodup)
    (fresh : ∀ n ∈ names, stabHasLocalVar st n = false) :
    ∃ off' st', stabAddNames st integerTypeIdx true names off = .ok (off', st') := by
  induction names generalizing st off with
  | nil => exact ⟨off, st, rfl⟩
  | cons n names ih =>
    rw [List.forall_mem_cons] at fresh
    rw [List.nodup_cons] at distinct
    have later : ∀ m ∈ names, stabHasLocalVar
        ((st.pushVar ⟨integerTypeIdx, n, -1, off, false⟩).2.insertVar n st.vars.length) m = false := by
      intro m member
      have other : m ≠ n := fun same => distinct.1 (same ▸ member)
      rw [stabHasLocalVar, Stab.insertVar, NameTable.lookup_insert_of_ne _ _ other]
      exact fresh.2 m member
    obtain ⟨off', st', rest⟩ :=
      @ih ((st.pushVar ⟨integerTypeIdx, n, -1, off, false⟩).2.insertVar n st.vars.length)
        (off + 1 * 8) known distinct.2 later
    have added : stabAddVar st n integerTypeIdx off true = .ok (st.vars.length, off + 1 * 8,
        (st.pushVar ⟨integerTypeIdx, n, -1, off, false⟩).2.insertVar n st.vars.length) := by
      rw [stabAddVar, known]
      rfl
    refine ⟨off', st', ?_⟩
    rw [stabAddNames, fresh.1, if_neg Bool.false_ne_true, added]
    exact rest

theorem stabAddAllDecls_ok {decls : List AstDecls} {st : Stab} (off : Int)
    (known : stabType st integerTypeIdx = some ⟨.integer, 8, none⟩)
    (integers : ∀ d ∈ decls, d.type = .integer) (distinct : (decls.flatMap AstDecls.names).Nodup)
    (fresh : ∀ n ∈ decls.flatMap AstDecls.names, stabHasLocalVar st n = false) :
    ∃ off' st', stabAddAllDecls st true decls off = .ok (off', st') := by
  induction decls generalizing st off with
  | nil => exact ⟨off, st, rfl⟩
  | cons d decls ih =>
    rw [List.forall_mem_cons] at integers
    rw [List.flatMap_cons] at distinct fresh
    rw [List.forall_mem_append] at fresh
    obtain ⟨here, rest, apart⟩ := List.nodup_append.mp distinct
    obtain ⟨off₁, st₁, added⟩ := stabAddNames_ok off known here fresh.1
    obtain ⟨vars, declared, -, types, -⟩ := stabAddNames_laid added
    have known₁ : stabType st₁ integerTypeIdx = some ⟨.integer, 8, none⟩ :=
      stabType_mono declared.types known
    have later : ∀ n ∈ decls.flatMap AstDecls.names, stabHasLocalVar st₁ n = false := by
      intro n member
      rw [stabHasLocalVar, declared.other n fun inside => apart n inside n member rfl]
      exact fresh.2 n member
    obtain ⟨off', st', last⟩ := ih off₁ known₁ integers.2 rest later
    have first : stabAddDecls st d off true = .ok (off₁, st₁) := by
      rw [stabAddDecls, integers.1]
      exact added
    exact ⟨off', st', except_bind_eq_ok.mpr ⟨_, first, last⟩⟩

theorem integerNames_complex {types : List AstTypeDecl}
    (complex : ∀ t ∈ types, t.type.isComplex = true) : integerNames types = [] := by
  unfold integerNames
  induction types with
  | nil => rfl
  | cons t types ih =>
    rw [List.forall_mem_cons] at complex
    have other : t.type.isInteger [] = false := by
      have kept := complex.1
      cases shape : t.type with
      | integer =>
        rw [shape] at kept
        cases kept
      | _ => rfl
    rw [List.foldl_cons, other]
    exact ih complex.2

namespace CoreProgram

variable {prog : AstProgram}

theorem exists_globals (core : CoreProgram prog) (keeps : prog.KeepsNames) :
    ∃ off st, IntegerGlobals prog off st := by
  obtain ⟨st₁, imports, names⟩ := doImports_ok core.libraries stabNew
  have none₁ := doImports_noVars noVars_stabNew imports
  have fresh : ∀ t ∈ prog.types, stabHasLocalType st₁ t.name = false := by
    intro t _
    rw [stabHasLocalType, names]
    exact decide_eq_false (not_not.mpr (NameTable.lookup_empty t.name))
  obtain ⟨st₂, types⟩ := stabAddAllTypes_ok ((doImports_steps 0 imports).sound Stab.sound_stabNew)
    core.written keeps core.types fresh
  have none₂ := stabAddAllTypes_noVars none₁ types
  have known : stabType st₂ integerTypeIdx = some ⟨.integer, 8, none⟩ := stabType_mono none₂.types rfl
  have integers : ∀ d ∈ prog.decls, d.type = .integer := by
    intro d member
    have isInteger := core.integers d member
    rw [integerNames_complex keeps] at isInteger
    cases shape : d.type with
    | integer => rfl
    | _ => simp [shape, AstType.isInteger] at isInteger
  have unbound : ∀ n ∈ prog.globals, stabHasLocalVar st₂ n = false := by
    intro n _
    rw [stabHasLocalVar, none₂.names, NameTable.lookup_empty]
    decide
  obtain ⟨off, st, added⟩ := stabAddAllDecls_ok 0 known integers core.globals unbound
  refine ⟨off, st, st₁, st₂, imports, types, ?_, added⟩
  intro d member
  rw [integers d member]
  rfl

end CoreProgram

end Dragon
