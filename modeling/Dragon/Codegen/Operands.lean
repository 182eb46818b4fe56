import Dragon.Codegen.Captures
import Dragon.Codegen.Registers
import Dragon.Symbol.Comparison

/-! The two checks that two types are the same (rule 2.3).

A binary operation compares the indices of its operands, an assignment calls
stab_types_eq. A type written twice has two indices.
-/

set_option autoImplicit false

namespace Dragon

open Analysis Stab

def operandCheck (left right : AstExpr) : Analysis Unit := do
  let lty ← analyzeExpr left true
  let rty ← analyzeExpr right true
  checkOperands lty.type rty.type

def OperandsPass (op : Token) (left right : AstExpr) (rv : Bool) (acx : Acx) : Prop :=
  ∀ s, analyzeExpr (.bin op left right) rv acx = .error s → (operandCheck left right).Returns acx

theorem operandsPass_iff {op : Token} {left right : AstExpr} {rv : Bool} {acx acx₁ acx₂ : Acx}
    {r₁ r₂ : Resu} {code₁ code₂ : List Insn}
    (first : analyzeExpr left true acx = .ok (r₁, acx₁, code₁))
    (second : analyzeExpr right true acx₁ = .ok (r₂, acx₂, code₂)) :
    OperandsPass op left right rv acx ↔ r₁.type = r₂.type := by
  have check : (operandCheck left right).Returns acx ↔ r₁.type = r₂.type := by
    constructor
    · rintro ⟨⟨u, acx', code⟩, passed⟩
      obtain ⟨_, _, _, _, again, passed, -⟩ := bind_eq_ok.mp passed
      cases first.symm.trans again
      obtain ⟨_, _, _, _, again, passed, -⟩ := bind_eq_ok.mp passed
      cases second.symm.trans again
      exact (checkOperands_eq_ok.mp passed).1
    · intro same
      have passed : checkOperands r₁.type r₂.type acx₂ = .ok ((), acx₂, []) :=
        checkOperands_eq_ok.mpr ⟨same, rfl, rfl⟩
      exact ⟨_, bind_eq_ok.mpr ⟨_, _, _, _, first, bind_eq_ok.mpr ⟨_, _, _, _, second, passed, rfl⟩, rfl⟩⟩
  unfold OperandsPass
  rw [check]
  constructor
  · intro passes
    cases result : analyzeExpr (.bin op left right) rv acx with
    | error s => exact passes s result
    | ok r =>
      obtain ⟨r, acx', code⟩ := r
      rw [analyzeExpr] at result
      obtain ⟨_, _, _, _, again, result, -⟩ := bind_eq_ok.mp result
      cases first.symm.trans again
      obtain ⟨_, _, _, _, again, result, -⟩ := bind_eq_ok.mp result
      cases second.symm.trans again
      exact (checkOperands_bind_eq_ok.mp result).1
  · exact fun same _ _ => same

/-- Operands pass exactly when stab_types_eq holds of their types, which is when a value of the
second type may be assigned to a variable of the first. -/
def OneNotion (op : Token) (left right : AstExpr) (rv : Bool) (acx : Acx) : Prop :=
  ∀ r₁ acx₁ code₁ r₂ acx₂ code₂, analyzeExpr left true acx = .ok (r₁, acx₁, code₁) →
    analyzeExpr right true acx₁ = .ok (r₂, acx₂, code₂) →
    (OperandsPass op left right rv acx ↔ stabTypesEq acx₂.st r₁.type r₂.type = .ok true) ∧
    (stabTypesEq acx₂.st r₁.type r₂.type = .ok true ↔
      stabTypesEq acx₂.st r₂.type r₁.type = .ok true)

/-- One index and a type that can be compared, or two indices that are not twins. -/
def Stab.Untwinned (st : Stab) (a b : Index) : Prop := (a = b → Comparable st a a) ∧ ¬ Twins st a b

theorem Stab.untwinned_iff {st : Stab} (sound : st.Sound) (a b : Index) :
    st.Untwinned a b ↔ (a = b ↔ SameType st a b) := by
  unfold Untwinned
  rw [twins_iff sound]
  constructor
  · rintro ⟨comparable, alone⟩
    constructor
    · rintro rfl
      exact (comparable rfl).sameType rfl
    · intro same
      by_contra ne
      exact alone ⟨same, ne⟩
  · intro iff
    refine ⟨?_, fun twins => twins.2 (iff.mpr twins.1)⟩
    rintro rfl
    exact (iff.mp rfl).comparable

/-- At any moment of any run the two checks agree on two accepted expressions exactly when their
types are not twins, and one type can be compared with itself. -/
theorem oneNotion_iff (prog : AstProgram) (m : Moment) (member : m ∈ prog.trace) (op : Token)
    (left right : AstExpr) (rv : Bool) (r₁ r₂ : Resu) (acx₁ acx₂ : Acx) (code₁ code₂ : List Insn)
    (first : analyzeExpr left true m.acx = .ok (r₁, acx₁, code₁))
    (second : analyzeExpr right true acx₁ = .ok (r₂, acx₂, code₂)) :
    OneNotion op left right rv m.acx ↔ m.acx.st.Untwinned r₁.type r₂.type := by
  have sound := sound_of_mem member
  have types : acx₂.st.types = m.acx.st.types :=
    (analyzeExpr_run _ second).types.trans (analyzeExpr_run _ first).types
  have equal : ∀ a b, stabTypesEq acx₂.st a b = .ok true ↔ SameType m.acx.st a b := by
    intro a b
    rw [stabTypesEq_congr types, stabTypesEq_eq_true sound]
  rw [Stab.untwinned_iff sound]
  constructor
  · intro one
    obtain ⟨agree, -⟩ := one _ _ _ _ _ _ first second
    rw [operandsPass_iff first second, equal] at agree
    exact agree
  · intro agree r₁' acx₁' code₁' r₂' acx₂' code₂' first' second'
    cases first.symm.trans first'
    cases second.symm.trans second'
    rw [operandsPass_iff first second, equal, equal]
    exact ⟨agree, SameType.symm, SameType.symm⟩

def typesOf (left right : AstExpr) (acx : Acx) : Option (Index × Index) :=
  (analyzeExpr left true acx).toOption.bind fun l =>
    (analyzeExpr right true l.2.1).toOption.map fun r => (l.1.type, r.1.type)

theorem exists_runs_of_typesOf {left right : AstExpr} {acx : Acx} {a b : Index}
    (types : typesOf left right acx = some (a, b)) :
    ∃ r₁ acx₁ code₁ r₂ acx₂ code₂, analyzeExpr left true acx = .ok (r₁, acx₁, code₁) ∧
      analyzeExpr right true acx₁ = .ok (r₂, acx₂, code₂) ∧ r₁.type = a ∧ r₂.type = b := by
  unfold typesOf at types
  cases first : analyzeExpr left true acx with
  | error s =>
    rw [first] at types
    cases types
  | ok l =>
    rw [first] at types
    change ((analyzeExpr right true l.2.1).toOption.map fun r => (l.1.type, r.1.type)) = _ at types
    cases second : analyzeExpr right true l.2.1 with
    | error s =>
      rw [second] at types
      cases types
    | ok r =>
      rw [second] at types
      cases types
      exact ⟨_, _, _, _, _, _, rfl, second, rfl, rfl⟩

-- var p, q: ^integer; begin p := q end.
def pointersTogether : AstProgram :=
  ⟨[], [⟨["p", "q"], .pointer .integer⟩], [], [], .assign (.path (astPath "p")) (.path (astPath "q"))⟩

theorem pointersTogether_oneNotion : ∃ m ∈ pointersTogether.trace,
    OneNotion .eq (.path (astPath "p")) (.path (astPath "q")) true m.acx := by
  have declared : ∃ m ∈ pointersTogether.trace,
      typesOf (.path (astPath "p")) (.path (astPath "q")) m.acx = some (6, 6) ∧
        stabType m.acx.st 6 = some ⟨.pointer integerTypeIdx, 8, none⟩ ∧
        stabType m.acx.st integerTypeIdx = some ⟨.integer, 8, none⟩ := by
    decide +kernel
  obtain ⟨m, member, types, pointer, integer⟩ := declared
  obtain ⟨r₁, acx₁, code₁, r₂, acx₂, code₂, first, second, left, right⟩ := exists_runs_of_typesOf types
  refine ⟨m, member, ?_⟩
  apply (oneNotion_iff pointersTogether m member .eq _ _ true r₁ r₂ acx₁ acx₂ code₁ code₂ first
    second).mpr
  rw [left, right]
  have target : Comparable m.acx.st integerTypeIdx integerTypeIdx :=
    .others integer integer (fun both => by cases both.1) (fun both => by cases both.1)
  exact ⟨fun _ => .pointers pointer pointer rfl rfl target, fun twins => twins.ne rfl⟩

-- var p: ^integer; q: ^integer; begin p := q end.
def pointerPair : AstProgram :=
  ⟨[], [⟨["p"], .pointer .integer⟩, ⟨["q"], .pointer .integer⟩], [], [],
    .assign (.path (astPath "p")) (.path (astPath "q"))⟩

-- q may be assigned to p, and p = q is rejected.
theorem not_forall_oneNotion : ¬ ∀ (prog : AstProgram), ∀ m ∈ prog.trace, ∀ op left right rv,
    OneNotion op left right rv m.acx := by
  intro always
  have differ : ∃ m ∈ pointerPair.trace,
      typesOf (.path (astPath "p")) (.path (astPath "q")) m.acx = some (6, 7) ∧
        (stabTypesEq m.acx.st 6 7).toOption = some true := by
    decide +kernel
  obtain ⟨m, member, types, same⟩ := differ
  obtain ⟨r₁, acx₁, code₁, r₂, acx₂, code₂, first, second, left, right⟩ := exists_runs_of_typesOf types
  have stay : acx₂.st.types = m.acx.st.types :=
    (analyzeExpr_run _ second).types.trans (analyzeExpr_run _ first).types
  have equal : stabTypesEq acx₂.st r₁.type r₂.type = .ok true := by
    rw [stabTypesEq_congr stay, left, right]
    cases result : stabTypesEq m.acx.st 6 7 with
    | error s =>
      rw [result] at same
      cases same
    | ok b =>
      rw [result] at same
      cases same
      rfl
  obtain ⟨agree, -⟩ := always pointerPair m member .eq (.path (astPath "p")) (.path (astPath "q")) true
    r₁ acx₁ code₁ r₂ acx₂ code₂ first second
  have one := (operandsPass_iff first second).mp (agree.mpr equal)
  rw [left, right] at one
  exact absurd one (by decide)

end Dragon
