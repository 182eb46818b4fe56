import Dragon.Codegen.Runs
import Dragon.Machine.State

/-! Unary operators.

The first condition of EXPR_UN holds of every NOT, since no type is both integer
and real, so NOT is never accepted. Both signs are accepted on booleans only, and
print not for their operand.
-/

set_option autoImplicit false

namespace Dragon

open Analysis

/-- NOT is for booleans, the signs are for numbers. -/
def unaryTyped (op : Token) (t : Index) : Prop :=
  if op = .not then t = booleanTypeIdx else t = integerTypeIdx ∨ t = realTypeIdx

def unaryValue (op : Token) (v : BitVec 64) : BitVec 64 :=
  match op with
  | .not => 1 - v
  | .minus => -v
  | _ => v

theorem un_accepted_iff {op : Token} {e : AstExpr} {rv : Bool} {acx acx₁ acx' : Acx} {r r' : Resu}
    {code code' : List Insn} (operand : analyzeExpr e true acx = .ok (r, acx₁, code)) :
    analyzeExpr (.un op e) rv acx = .ok (r', acx', code') ↔
      op ≠ .not ∧ r.type = booleanTypeIdx ∧ r' = r ∧ acx' = acx₁ ∧
        code' = code ++ [.not r.reg.name] := by
  -- what an accepted unary operation is: a sign on a boolean, which prints not
  rw [analyzeExpr, bind_eq_ok]
  -- no type is both integer and real
  have number : r.type ≠ integerTypeIdx ∨ r.type ≠ realTypeIdx := by
    by_cases integer : r.type = integerTypeIdx
    · right
      rw [integer]
      decide
    · exact .inl integer
  constructor
  · rintro ⟨s, acx₂, code₁, code₂, again, rest, rfl⟩
    cases operand.symm.trans again
    split at rest
    · simp at rest
    next sign =>
      split at rest
      · simp at rest
      next boolean =>
        simp only [emit_bind_eq_ok, pure_eq_ok] at rest
        obtain ⟨_, ⟨rfl, rfl, rfl⟩, rfl⟩ := rest
        exact ⟨fun not => sign ⟨not, number⟩, not_not.mp boolean, rfl, rfl, rfl⟩
  · rintro ⟨sign, boolean, rfl, rfl, rfl⟩
    refine ⟨r', acx', code, [.not r'.reg.name], operand, ?_, rfl⟩
    rw [if_neg fun both => sign both.1, if_neg (not_not_intro boolean)]
    simp [pure_eq_ok]

/-- A unary operation is accepted on the types it is for, and its code leaves the value made from the
one that the code of the operand leaves. -/
def UnaryRight (op : Token) (e : AstExpr) (rv : Bool) (acx : Acx) : Prop :=
  ∀ r acx₁ code, analyzeExpr e true acx = .ok (r, acx₁, code) →
    ((∃ out, analyzeExpr (.un op e) rv acx = .ok out) ↔ unaryTyped op r.type) ∧
    ∀ r' acx' code', analyzeExpr (.un op e) rv acx = .ok (r', acx', code') → ∀ env σ τ,
      runBlock env code σ = some τ → (r.type = integerTypeIdx ∨ r.type = booleanTypeIdx ∧
        (τ.reg r.reg.name = 0 ∨ τ.reg r.reg.name = 1)) →
      ∃ τ', runBlock env code' σ = some τ' ∧
        τ'.reg r'.reg.name = unaryValue op (τ.reg r.reg.name)

/-- A unary operation is right exactly on the types it must reject, booleans under a sign apart. -/
theorem unaryRight_iff (op : Token) (e : AstExpr) (rv : Bool) (acx acx₁ : Acx) (r : Resu)
    (code : List Insn) (operand : analyzeExpr e true acx = .ok (r, acx₁, code)) :
    UnaryRight op e rv acx ↔
      r.type ≠ booleanTypeIdx ∧ (op = .not ∨ r.type ≠ integerTypeIdx ∧ r.type ≠ realTypeIdx) := by
  have accepts : (∃ out, analyzeExpr (.un op e) rv acx = .ok out) ↔
      op ≠ .not ∧ r.type = booleanTypeIdx := by
    constructor
    · rintro ⟨⟨r', acx', code'⟩, accepted⟩
      obtain ⟨sign, boolean, -⟩ := (un_accepted_iff operand).mp accepted
      exact ⟨sign, boolean⟩
    · rintro ⟨sign, boolean⟩
      exact ⟨_, (un_accepted_iff operand).mpr ⟨sign, boolean, rfl, rfl, rfl⟩⟩
  have apart : booleanTypeIdx ≠ integerTypeIdx ∧ booleanTypeIdx ≠ realTypeIdx := by decide
  constructor
  · intro right
    obtain ⟨typed, -⟩ := right _ _ _ operand
    rw [accepts] at typed
    by_cases not : op = .not
    · rw [unaryTyped, if_pos not] at typed
      exact ⟨fun boolean => (typed.mpr boolean).1 not, .inl not⟩
    · rw [unaryTyped, if_neg not] at typed
      have never : r.type ≠ booleanTypeIdx := by
        intro boolean
        rcases typed.mp ⟨not, boolean⟩ with integer | real
        · exact apart.1 (boolean.symm.trans integer)
        · exact apart.2 (boolean.symm.trans real)
      refine ⟨never, .inr ⟨?_, ?_⟩⟩
      · exact fun integer => never (typed.mpr (.inl integer)).2
      · exact fun real => never (typed.mpr (.inr real)).2
  · rintro ⟨other, rejected⟩ r₂ acx₂ code₂ again
    cases operand.symm.trans again
    refine ⟨?_, ?_⟩
    · rw [accepts, unaryTyped]
      apply iff_of_false
      · exact fun both => other both.2
      · split
        · exact other
        next sign =>
          obtain ⟨integer, real⟩ := rejected.resolve_left sign
          exact not_or.mpr ⟨integer, real⟩
    · intro r' acx' code' accepted
      exact absurd ((un_accepted_iff operand).mp accepted).2.1 other

-- NOT 1 is rejected.
theorem notOne_unaryRight : UnaryRight .not (.lit "1") true initialAcx :=
  (unaryRight_iff .not (.lit "1") true initialAcx _ _ _ rfl).mpr ⟨by decide, .inl rfl⟩

-- So is -1.
theorem not_forall_unaryRight : ¬ ∀ op e rv acx, UnaryRight op e rv acx := by
  intro always
  have operand : analyzeExpr (.lit "1") true initialAcx = .ok _ := rfl
  obtain ⟨typed, -⟩ := always .minus (.lit "1") true initialAcx _ _ _ operand
  obtain ⟨⟨r', acx', code'⟩, accepted⟩ := typed.mpr (.inl rfl)
  have boolean := ((un_accepted_iff operand).mp accepted).2.1
  revert boolean
  decide

end Dragon
