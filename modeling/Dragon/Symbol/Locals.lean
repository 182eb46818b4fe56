import Dragon.Symbol.Layout

/-! Which names are variables of the innermost scope.

Declarations bind their names there, and so does the resolution of a signature,
for its formals.
-/

set_option autoImplicit false

namespace Dragon

open Stab

theorem stabHasLocalVar_iff {st : Stab} {n : Name} :
    stabHasLocalVar st n = true ↔ st.innermost.vars.lookup n ≠ resolveFailure := by
  simp [stabHasLocalVar]

/-- The innermost scope has the names as variables besides those it had. -/
structure Adds (st st' : Stab) (names : List Name) : Prop where
  enclosing : st'.enclosing = st.enclosing
  locals : ∀ n, stabHasLocalVar st' n = true ↔ stabHasLocalVar st n = true ∨ n ∈ names

namespace Adds

theorem trans {st₁ st₂ st₃ : Stab} {names names' : List Name} (first : Adds st₁ st₂ names)
    (second : Adds st₂ st₃ names') : Adds st₁ st₃ (names ++ names') := by
  refine ⟨second.enclosing.trans first.enclosing, ?_⟩
  intro n
  rw [second.locals, first.locals, List.mem_append, or_assoc]

theorem of_innermost {st st' : Stab} (enclosing : st'.enclosing = st.enclosing)
    (vars : st'.innermost.vars = st.innermost.vars) : Adds st st' [] := by
  refine ⟨enclosing, ?_⟩
  intro n
  simp [stabHasLocalVar, vars]

theorem of_same {st st' : Stab} (same : SameScopes st st') : Adds st st' [] :=
  of_innermost same.enclosing (by rw [same.innermost])

theorem pushVar (st : Stab) (v : StabVar) (name : Name) :
    Adds st ((st.pushVar v).2.insertVar name (st.pushVar v).1) [name] := by
  refine ⟨rfl, ?_⟩
  intro n
  rw [stabHasLocalVar_iff, stabHasLocalVar_iff, List.mem_singleton]
  simp only [insertVar, Stab.pushVar, NameTable.lookup_insert]
  by_cases same : n = name
  · have new : (st.vars.length : Int) ≠ resolveFailure := by
      rw [resolveFailure]
      omega
    simp only [same, if_true, or_true, iff_true]
    exact new
  · simp only [same, if_false, or_false]

end Adds

theorem stabAddVar_adds {st st' : Stab} {name : Name} {type id : Index} {off off' : Int} {up : Bool}
    (added : stabAddVar st name type off up = .ok (id, off', st')) : Adds st st' [name] := by
  obtain ⟨t, -, rfl, -, rfl⟩ := stabAddVar_eq_ok.mp added
  exact .pushVar ..

theorem stabAddNames_adds {names : List Name} {type : Index} {up : Bool} {st st' : Stab}
    {off off' : Int} (added : stabAddNames st type up names off = .ok (off', st')) :
    Adds st st' names := by
  induction names generalizing st off with
  | nil =>
    cases added
    exact .of_same (.refl _)
  | cons var names ih =>
    simp only [stabAddNames] at added
    split at added
    · cases added
    · simp only [except_bind_eq_ok] at added
      obtain ⟨⟨id, off₁, st₁⟩, first, rest⟩ := added
      exact (stabAddVar_adds first).trans (ih rest)

theorem stabAddAllDecls_adds {decls : List AstDecls} {up : Bool} {st st' : Stab} {off off' : Int}
    (added : stabAddAllDecls st up decls off = .ok (off', st')) :
    Adds st st' (decls.flatMap AstDecls.names) := by
  induction decls generalizing st off with
  | nil =>
    cases added
    exact .of_same (.refl _)
  | cons d decls ih =>
    simp only [stabAddAllDecls, stabAddDecls, except_bind_eq_ok] at added
    obtain ⟨⟨off₁, st₁⟩, ⟨⟨type, st₂⟩, resolved, names⟩, rest⟩ := added
    have resolving : Adds st st₂ [] := .of_same (stabResolveType_scopes _ resolved)
    rw [List.flatMap_cons]
    exact (resolving.trans (stabAddNames_adds names)).trans (ih rest)

theorem stabAddAllTypes_adds {types : List AstTypeDecl} {st st' : Stab}
    (added : stabAddAllTypes st types = .ok st') : Adds st st' [] := by
  obtain ⟨-, vars, -⟩ := stabAddAllTypes_keeps added
  exact .of_innermost (stabAddAllTypes_extends added).enclosing vars

theorem stabResolveFormals_adds {formals : List (Name × AstType)} {st st' : Stab} {ids : List Index}
    (resolved : stabResolveFormals st formals = .ok (ids, st')) :
    Adds st st' (formals.map Prod.fst) := by
  induction formals generalizing st ids with
  | nil =>
    cases resolved
    exact .of_same (.refl _)
  | cons formal formals ih =>
    obtain ⟨name, type⟩ := formal
    simp only [stabResolveFormals, except_bind_eq_ok] at resolved
    obtain ⟨⟨t, st₁⟩, inner, ⟨rest, st₂⟩, more, same⟩ := resolved
    cases same
    have resolving : Adds st st₁ [] := .of_same (stabResolveType_scopes type inner)
    exact (resolving.trans (.pushVar st₁ ⟨t, name, -1, -1, false⟩ name)).trans (ih more)

theorem stabAddFunc_adds {st st' : Stab} {name : Name} {sig : AstSig}
    (added : stabAddFunc st name sig = .ok st') : Adds st st' (sig.formals.map Prod.fst) := by
  obtain ⟨-, type, st₁, resolved, rfl⟩ := stabAddFunc_eq_ok.mp added
  simp only [stabResolveSig, except_bind_eq_ok] at resolved
  obtain ⟨⟨retty, st₂⟩, result, ⟨args, st₃⟩, formals, same⟩ := resolved
  cases same
  have first : Adds st st₂ [] := .of_same (stabResolveRetty_scopes result)
  have names : sig.formals.map Prod.fst = [] ++ sig.formals.map Prod.fst ++ [] := by
    rw [List.nil_append, List.append_nil]
  rw [names]
  apply Adds.trans (first.trans (stabResolveFormals_adds formals))
  exact .of_innermost rfl rfl

end Dragon
