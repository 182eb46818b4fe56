import Dragon.Symbol.Table

/-! What the functions of symbol.c do to the scopes of a table.

Between an entry and its exit a function touches only the innermost scope, and
every binding it makes there is for a variable it has just added.
-/

set_option autoImplicit false

namespace Dragon

theorem arenaGet_eq_some {α : Type} {arena : List α} {i : Int} {a : α} :
    arenaGet arena i = some a ↔ 0 ≤ i ∧ arena[i.toNat]? = some a := by
  unfold arenaGet
  split
  next nonneg => simp [nonneg]
  next negative => simp [negative]

theorem arenaGet_lt {α : Type} {arena : List α} {i : Int} {a : α}
    (found : arenaGet arena i = some a) : 0 ≤ i ∧ i < arena.length := by
  obtain ⟨low, here⟩ := arenaGet_eq_some.mp found
  have small := (List.getElem?_eq_some_iff.mp here).1
  exact ⟨low, by omega⟩

theorem exists_arenaGet {α : Type} {arena : List α} {i : Int} (low : 0 ≤ i)
    (high : i < arena.length) : ∃ a, arenaGet arena i = some a := by
  have small : i.toNat < arena.length := by omega
  exact ⟨_, arenaGet_eq_some.mpr ⟨low, List.getElem?_eq_getElem small⟩⟩

theorem stabType_mono {st st' : Stab} (more : st.types <+: st'.types) {i : Index} {t : StabType}
    (found : stabType st i = some t) : stabType st' i = some t := by
  obtain ⟨low, here⟩ := arenaGet_eq_some.mp found
  obtain ⟨rest, same⟩ := more
  apply arenaGet_eq_some.mpr
  rw [← same, List.getElem?_append_left (List.getElem?_eq_some_iff.mp here).1]
  exact ⟨low, here⟩

namespace Stab

/-- Every binding of a variable is an index of the arena or RESOLVE_FAILURE. -/
def Valid (st : Stab) : Prop :=
  ∀ sc ∈ st.chain, ∀ n, sc.vars.lookup n < st.vars.length

/-- The scopes are as they were; variables may have been added or updated. -/
structure SameScopes (st st' : Stab) : Prop where
  innermost : st'.innermost = st.innermost
  enclosing : st'.enclosing = st.enclosing
  vars : st.vars.length ≤ st'.vars.length

/-- Only the innermost scope has changed, and its new bindings are new variables. -/
structure Extends (st st' : Stab) : Prop where
  enclosing : st'.enclosing = st.enclosing
  vars : st.vars.length ≤ st'.vars.length
  bound : ∀ n, st'.innermost.vars.lookup n = st.innermost.vars.lookup n ∨
    (st.vars.length ≤ st'.innermost.vars.lookup n ∧
      st'.innermost.vars.lookup n < st'.vars.length)

namespace SameScopes

theorem refl (st : Stab) : SameScopes st st := ⟨rfl, rfl, Nat.le_refl _⟩

theorem trans {st₁ st₂ st₃ : Stab} (first : SameScopes st₁ st₂) (second : SameScopes st₂ st₃) :
    SameScopes st₁ st₃ :=
  ⟨second.innermost.trans first.innermost, second.enclosing.trans first.enclosing,
    Nat.le_trans first.vars second.vars⟩

theorem extends_ {st st' : Stab} (same : SameScopes st st') : Extends st st' :=
  ⟨same.enclosing, same.vars, fun n => .inl (by rw [same.innermost])⟩

theorem chain {st st' : Stab} (same : SameScopes st st') : st'.chain = st.chain := by
  simp only [Stab.chain, same.innermost, same.enclosing]

end SameScopes

namespace Extends

theorem refl (st : Stab) : Extends st st := (SameScopes.refl st).extends_

theorem trans {st₁ st₂ st₃ : Stab} (first : Extends st₁ st₂) (second : Extends st₂ st₃) :
    Extends st₁ st₃ := by
  refine ⟨second.enclosing.trans first.enclosing, Nat.le_trans first.vars second.vars, ?_⟩
  intro n
  have grown₁ := first.vars
  have grown₂ := second.vars
  rcases second.bound n with same₂ | ⟨low₂, high₂⟩
  · rw [same₂]
    rcases first.bound n with same₁ | ⟨low₁, high₁⟩
    · exact .inl same₁
    · exact .inr ⟨low₁, by omega⟩
  · exact .inr ⟨by omega, high₂⟩

theorem valid {st st' : Stab} (ext : Extends st st') (valid : st.Valid) : st'.Valid := by
  intro sc member n
  have grown := ext.vars
  rcases List.mem_cons.mp member with rfl | member
  · rcases ext.bound n with same | ⟨_, high⟩
    · rw [same]
      have := valid st.innermost (by simp [Stab.chain]) n
      omega
    · exact high
  · rw [ext.enclosing] at member
    have := valid sc (by simp [Stab.chain, member]) n
    omega

end Extends

theorem valid_stabNew : stabNew.Valid := by
  intro sc member n
  simp only [stabNew, chain, List.mem_singleton] at member
  subst member
  simp only [stabScopeNew, NameTable.lookup_empty, resolveFailure]
  omega

theorem Valid.enter {st : Stab} (valid : st.Valid) : (stabEnter st).Valid := by
  intro sc member n
  simp only [stabEnter, chain, List.mem_cons] at member
  rcases member with rfl | member
  · simp only [stabScopeNew, NameTable.lookup_empty, resolveFailure]
    omega
  · exact valid sc (by simpa [chain] using member) n

theorem stabLeave_eq_ok {st st' : Stab} :
    stabLeave st = .ok st' ↔
      ∃ sc rest, st.enclosing = sc :: rest ∧ st' = { st with innermost := sc, enclosing := rest } := by
  unfold stabLeave
  cases st.enclosing with
  | nil => simp
  | cons sc rest => simp [eq_comm]

theorem Valid.leave {st st' : Stab} (valid : st.Valid) (left : stabLeave st = .ok st') :
    st'.Valid := by
  obtain ⟨sc, rest, open_, rfl⟩ := stabLeave_eq_ok.mp left
  intro sc' member n
  exact valid sc' (by simp_all [chain]) n

theorem leave_enter {st st₁ st₂ : Stab} (ext : Extends (stabEnter st) st₁)
    (left : stabLeave st₁ = .ok st₂) : SameScopes st st₂ := by
  obtain ⟨sc, rest, open_, rfl⟩ := stabLeave_eq_ok.mp left
  rw [ext.enclosing] at open_
  simp only [stabEnter, List.cons.injEq] at open_
  exact ⟨open_.1.symm, open_.2.symm, ext.vars⟩

theorem sameScopes_pushType (st : Stab) (t : StabType) : SameScopes st (st.pushType t).2 :=
  ⟨rfl, rfl, Nat.le_refl _⟩

theorem extends_insertVar (st : Stab) (v : StabVar) (name : Name) :
    Extends st ((st.pushVar v).2.insertVar name (st.pushVar v).1) := by
  refine ⟨rfl, by simp [insertVar, pushVar], ?_⟩
  intro n
  simp only [insertVar, pushVar, NameTable.lookup_insert, List.length_append, List.length_singleton]
  split
  · exact .inr ⟨by omega, by omega⟩
  · exact .inl rfl

end Stab

open Stab

mutual

theorem stabResolveType_scopes : ∀ (t : AstType) {st st' : Stab} {i : Index},
    stabResolveType st t = .ok (i, st') → SameScopes st st'
  | .ref _, _, _, _, found => by
      simp only [stabResolveType, Except.ok.injEq, Prod.mk.injEq] at found
      exact found.2 ▸ .refl _
  | .integer, _, _, _, found => by
      simp only [stabResolveType, Except.ok.injEq, Prod.mk.injEq] at found
      exact found.2 ▸ .refl _
  | .real, _, _, _, found => by
      simp only [stabResolveType, Except.ok.injEq, Prod.mk.injEq] at found
      exact found.2 ▸ .refl _
  | .string, _, _, _, found => by
      simp only [stabResolveType, Except.ok.injEq, Prod.mk.injEq] at found
      exact found.2 ▸ .refl _
  | .boolean, _, _, _, found => by
      simp only [stabResolveType, Except.ok.injEq, Prod.mk.injEq] at found
      exact found.2 ▸ .refl _
  | .char, _, _, _, found => by
      simp only [stabResolveType, Except.ok.injEq, Prod.mk.injEq] at found
      exact found.2 ▸ .refl _
  | .void, _, _, _, found => by
      simp only [stabResolveType, Except.ok.injEq, Prod.mk.injEq] at found
      exact found.2 ▸ .refl _
  | .pointer target, _, _, _, found => by
      simp only [stabResolveType, except_bind_eq_ok] at found
      obtain ⟨⟨t, st₁⟩, inner, found⟩ := found
      cases found
      exact (stabResolveType_scopes target inner).trans (sameScopes_pushType _ _)
  | .record fields, _, _, _, found => by
      simp only [stabResolveType, except_bind_eq_ok] at found
      obtain ⟨⟨fields', st₁⟩, inner, found⟩ := found
      cases found
      exact (stabResolveFields_scopes fields inner).trans (sameScopes_pushType _ _)
  | .array lower upper elt, _, _, _, found => by
      simp only [stabResolveType, except_bind_eq_ok] at found
      obtain ⟨⟨t, st₁⟩, inner, found⟩ := found
      dsimp only at found
      split at found
      · cases found
      · cases found
        exact (stabResolveType_scopes elt inner).trans (sameScopes_pushType _ _)

theorem stabResolveFields_scopes : ∀ (fields : List (Name × AstType)) {st st' : Stab}
    {l : List (Name × Index)}, stabResolveFields st fields = .ok (l, st') → SameScopes st st'
  | [], _, _, _, found => by
      simp only [stabResolveFields, Except.ok.injEq, Prod.mk.injEq] at found
      exact found.2 ▸ .refl _
  | (name, type) :: fields, _, _, _, found => by
      simp only [stabResolveFields, except_bind_eq_ok] at found
      obtain ⟨⟨t, st₁⟩, inner, ⟨rest, st₂⟩, more, found⟩ := found
      cases found
      exact (stabResolveType_scopes type inner).trans (stabResolveFields_scopes fields more)

end

theorem stabResolveRetty_scopes {retty : Option AstType} {st st' : Stab} {i : Index}
    (found : stabResolveRetty st retty = .ok (i, st')) : SameScopes st st' := by
  cases retty with
  | none =>
    simp only [stabResolveRetty, Except.ok.injEq, Prod.mk.injEq] at found
    exact found.2 ▸ .refl _
  | some type => exact stabResolveType_scopes type found

theorem stabAddVarNoOffset_extends (st : Stab) (name : Name) (type : Index) :
    Extends st (stabAddVarNoOffset st name type).2 := extends_insertVar ..

theorem stabAddVar_extends {st st' : Stab} {name : Name} {type : Index} {off off' : Int} {b : Bool}
    {id : Index} (added : stabAddVar st name type off b = .ok (id, off', st')) : Extends st st' := by
  unfold stabAddVar at added
  split at added
  · cases added
  · cases added
    exact extends_insertVar ..

theorem stabResolveFormals_extends {formals : List (Name × AstType)} {st st' : Stab}
    {ids : List Index} (found : stabResolveFormals st formals = .ok (ids, st')) : Extends st st' := by
  induction formals generalizing st ids with
  | nil =>
    simp only [stabResolveFormals, Except.ok.injEq, Prod.mk.injEq] at found
    exact found.2 ▸ .refl _
  | cons formal formals ih =>
    obtain ⟨name, type⟩ := formal
    simp only [stabResolveFormals, except_bind_eq_ok] at found
    obtain ⟨⟨t, st₁⟩, inner, ⟨rest, st₂⟩, more, found⟩ := found
    cases found
    exact ((stabResolveType_scopes type inner).extends_.trans
      (stabAddVarNoOffset_extends st₁ name t)).trans (ih more)

theorem stabResolveFormals_bound {formals : List (Name × AstType)} {st st' : Stab}
    {ids : List Index} (found : stabResolveFormals st formals = .ok (ids, st')) :
    ∀ formal ∈ formals, st.vars.length ≤ st'.innermost.vars.lookup formal.1 := by
  induction formals generalizing st ids with
  | nil => simp
  | cons formal formals ih =>
    obtain ⟨name, type⟩ := formal
    simp only [stabResolveFormals, except_bind_eq_ok] at found
    obtain ⟨⟨t, st₁⟩, inner, ⟨rest, st₂⟩, more, found⟩ := found
    cases found
    have grown₁ := (stabResolveType_scopes type inner).vars
    have grown₂ := (stabAddVarNoOffset_extends st₁ name t).vars
    have here : (stabAddVarNoOffset st₁ name t).2.innermost.vars.lookup name = st₁.vars.length := by
      simp [stabAddVarNoOffset, insertVar, pushVar]
    intro formal member
    rcases List.mem_cons.mp member with rfl | member
    · dsimp only at *
      rcases (stabResolveFormals_extends more).bound name with same | ⟨low, _⟩ <;> omega
    · have := ih more formal member
      dsimp only at *
      omega

theorem stabResolveSig_extends {sig : AstSig} {st st' : Stab} {i : Index}
    (found : stabResolveSig st sig = .ok (i, st')) :
    Extends st st' ∧ (sig.formals = [] → SameScopes st st') ∧
      ∀ formal ∈ sig.formals, st.vars.length ≤ st'.innermost.vars.lookup formal.1 := by
  simp only [stabResolveSig, except_bind_eq_ok] at found
  obtain ⟨⟨retty, st₁⟩, result, ⟨args, st₂⟩, formals, found⟩ := found
  cases found
  have first := stabResolveRetty_scopes result
  have pushed := sameScopes_pushType st₂ ⟨.func sig.type args retty, abiClosureSize, none⟩
  refine ⟨(first.extends_.trans (stabResolveFormals_extends formals)).trans pushed.extends_, ?_, ?_⟩
  · intro none
    rw [none] at formals
    simp only [stabResolveFormals, Except.ok.injEq, Prod.mk.injEq] at formals
    exact first.trans (formals.2 ▸ pushed)
  · intro formal member
    have low := stabResolveFormals_bound formals formal member
    have grown := first.vars
    change (st.vars.length : Int) ≤ st₂.innermost.vars.lookup formal.1
    dsimp only at *
    omega

theorem stabAddNames_extends {names : List Name} {type : Index} {b : Bool} {st st' : Stab}
    {off off' : Int} (added : stabAddNames st type b names off = .ok (off', st')) :
    Extends st st' := by
  induction names generalizing st off with
  | nil =>
    simp only [stabAddNames, Except.ok.injEq, Prod.mk.injEq] at added
    exact added.2 ▸ .refl _
  | cons var names ih =>
    simp only [stabAddNames] at added
    split at added
    · cases added
    · simp only [except_bind_eq_ok] at added
      obtain ⟨⟨id, off₁, st₁⟩, first, rest⟩ := added
      exact (stabAddVar_extends first).trans (ih rest)

theorem stabAddAllDecls_extends {decls : List AstDecls} {b : Bool} {st st' : Stab} {off off' : Int}
    (added : stabAddAllDecls st b decls off = .ok (off', st')) : Extends st st' := by
  induction decls generalizing st off with
  | nil =>
    simp only [stabAddAllDecls, Except.ok.injEq, Prod.mk.injEq] at added
    exact added.2 ▸ .refl _
  | cons d decls ih =>
    simp only [stabAddAllDecls, stabAddDecls, except_bind_eq_ok] at added
    obtain ⟨⟨off₁, st₁⟩, ⟨⟨type, st₂⟩, resolved, first⟩, rest⟩ := added
    exact ((stabResolveType_scopes _ resolved).extends_.trans (stabAddNames_extends first)).trans
      (ih rest)

theorem extends_insertType (st : Stab) (name : Name) (id : Index) :
    Extends st (st.insertType name id) := ⟨rfl, Nat.le_refl _, fun _ => .inl rfl⟩

theorem extends_insertFunc (st : Stab) (name : Name) (id : Index) :
    Extends st (st.insertFunc name id) := ⟨rfl, Nat.le_refl _, fun _ => .inl rfl⟩

theorem stabAddAllTypes_extends {types : List AstTypeDecl} {st st' : Stab}
    (added : stabAddAllTypes st types = .ok st') : Extends st st' := by
  induction types generalizing st with
  | nil =>
    simp only [stabAddAllTypes, Except.ok.injEq] at added
    exact added ▸ .refl _
  | cons t types ih =>
    simp only [stabAddAllTypes, except_bind_eq_ok] at added
    obtain ⟨st₁, first, rest⟩ := added
    obtain ⟨-, -, type, st₂, resolved, rfl⟩ := stabAddType_eq_ok.mp first
    exact ((stabResolveType_scopes _ resolved).extends_.trans (extends_insertType ..)).trans (ih rest)

theorem stabAddFunc_eq_ok {st st' : Stab} {name : Name} {sig : AstSig} :
    stabAddFunc st name sig = .ok st' ↔
      stabHasLocalFunc st name = false ∧
        ∃ type st₁, stabResolveSig st sig = .ok (type, st₁) ∧ st' = st₁.insertFunc name type := by
  unfold stabAddFunc
  split
  next local_ => simp [local_]
  next fresh =>
    simp only [except_bind_eq_ok, Except.ok.injEq, Prod.exists]
    constructor
    · rintro ⟨type, st₁, resolved, rfl⟩
      exact ⟨by simpa using fresh, type, st₁, resolved, rfl⟩
    · rintro ⟨-, type, st₁, resolved, rfl⟩
      exact ⟨type, st₁, resolved, rfl⟩

theorem stabAddFunc_extends {st st' : Stab} {name : Name} {sig : AstSig}
    (added : stabAddFunc st name sig = .ok st') : Extends st st' := by
  obtain ⟨-, type, st₁, resolved, rfl⟩ := stabAddFunc_eq_ok.mp added
  exact (stabResolveSig_extends resolved).1.trans (extends_insertFunc ..)

/-! ## Resolution -/

theorem stabResolveVar_innermost {st : Stab} {n : Name}
    (bound : st.innermost.vars.lookup n ≠ resolveFailure) :
    stabResolveVar st n = st.innermost.vars.lookup n := by
  simp only [stabResolveVar, Stab.chain, resolveIn]
  exact if_neg bound

theorem resolveIn_lt {chain : List StabScope} {table : StabScope → NameTable} {n : Name} {k : Nat}
    (bound : ∀ sc ∈ chain, (table sc).lookup n < k) : resolveIn table n chain < k := by
  induction chain with
  | nil =>
    simp only [resolveIn, resolveFailure]
    omega
  | cons sc rest ih =>
    simp only [resolveIn]
    split
    · exact ih fun sc' member => bound sc' (List.mem_cons_of_mem _ member)
    · exact bound sc List.mem_cons_self

theorem Stab.Valid.resolveVar_lt {st : Stab} (valid : st.Valid) (n : Name) :
    stabResolveVar st n < st.vars.length := resolveIn_lt fun sc member => valid sc member n

/-! ## The names of subprograms -/

theorem resolveIn_bound {chain : List StabScope} {table : StabScope → NameTable} {n : Name}
    (resolved : resolveIn table n chain ≠ resolveFailure) :
    ∃ sc ∈ chain, (table sc).lookup n = resolveIn table n chain := by
  induction chain with
  | nil => exact absurd rfl resolved
  | cons sc rest ih =>
    simp only [resolveIn] at resolved ⊢
    split at resolved
    next unbound =>
      obtain ⟨sc', member, same⟩ := ih resolved
      rw [if_pos unbound]
      exact ⟨sc', List.mem_cons_of_mem _ member, same⟩
    next bound =>
      rw [if_neg bound]
      exact ⟨sc, List.mem_cons_self, rfl⟩

/-- The subprograms that an open scope knows were known in an open scope. -/
def KeepsFuncs (st st' : Stab) : Prop :=
  ∀ sc' ∈ st'.chain, sc'.funcs = .empty ∨ ∃ sc ∈ st.chain, sc'.funcs = sc.funcs

namespace KeepsFuncs

variable {st st₁ st₂ st' : Stab}

theorem of_scopes (kept : ∀ sc' ∈ st'.chain, ∃ sc ∈ st.chain, sc'.funcs = sc.funcs) :
    KeepsFuncs st st' := fun sc' member => .inr (kept sc' member)

theorem refl (st : Stab) : KeepsFuncs st st := of_scopes fun sc member => ⟨sc, member, rfl⟩

theorem trans (first : KeepsFuncs st st₁) (second : KeepsFuncs st₁ st₂) : KeepsFuncs st st₂ := by
  intro sc₂ member
  rcases second sc₂ member with empty | ⟨sc₁, member, same⟩
  · exact .inl empty
  · rw [same]
    exact first sc₁ member

theorem of_chain (same : st'.chain = st.chain) : KeepsFuncs st st' :=
  of_scopes fun sc member => ⟨sc, same ▸ member, rfl⟩

theorem of_innermost (inner : st'.innermost.funcs = st.innermost.funcs)
    (outer : st'.enclosing = st.enclosing) : KeepsFuncs st st' := by
  apply of_scopes
  intro sc' member
  rcases List.mem_cons.mp member with rfl | member
  · exact ⟨st.innermost, List.mem_cons_self, inner⟩
  · exact ⟨sc', List.mem_cons_of_mem _ (outer ▸ member), rfl⟩

theorem enter (st : Stab) : KeepsFuncs st (stabEnter st) := by
  intro sc' member
  rcases List.mem_cons.mp member with rfl | member
  · exact .inl rfl
  · exact .inr ⟨sc', member, rfl⟩

theorem leave (left : stabLeave st = .ok st') : KeepsFuncs st st' := by
  obtain ⟨sc, rest, open_, rfl⟩ := stabLeave_eq_ok.mp left
  apply of_scopes
  intro sc' member
  refine ⟨sc', List.mem_cons_of_mem _ ?_, rfl⟩
  rw [open_]
  exact member

theorem addVar {name : Name} {type id : Index} {off off' : Int} {up : Bool}
    (added : stabAddVar st name type off up = .ok (id, off', st')) : KeepsFuncs st st' := by
  unfold stabAddVar at added
  split at added
  · cases added
  · cases added
    exact of_innermost rfl rfl

theorem retty {retty : Option AstType} {i : Index}
    (found : stabResolveRetty st retty = .ok (i, st')) : KeepsFuncs st st' :=
  of_chain (stabResolveRetty_scopes found).chain

theorem addNames {names : List Name} {type : Index} {up : Bool} {off off' : Int}
    (added : stabAddNames st type up names off = .ok (off', st')) : KeepsFuncs st st' := by
  induction names generalizing st off with
  | nil =>
    cases added
    exact refl _
  | cons var names ih =>
    simp only [stabAddNames] at added
    split at added
    · cases added
    · simp only [except_bind_eq_ok] at added
      obtain ⟨⟨id, off₁, st₁⟩, first, rest⟩ := added
      exact (addVar first).trans (ih rest)

theorem addDecls {d : AstDecls} {up : Bool} {off off' : Int}
    (added : stabAddDecls st d off up = .ok (off', st')) : KeepsFuncs st st' := by
  simp only [stabAddDecls, except_bind_eq_ok] at added
  obtain ⟨⟨type, st₁⟩, resolved, names⟩ := added
  exact (of_chain (stabResolveType_scopes _ resolved).chain).trans (addNames names)

theorem addType {name : Name} {type : AstType} (added : stabAddType st name type = .ok st') :
    KeepsFuncs st st' := by
  obtain ⟨-, -, id, st₁, resolved, rfl⟩ := stabAddType_eq_ok.mp added
  have named : KeepsFuncs st₁ (st₁.insertType name id) := of_innermost rfl rfl
  exact (of_chain (stabResolveType_scopes _ resolved).chain).trans named

theorem formals {formals : List (Name × AstType)} {ids : List Index}
    (found : stabResolveFormals st formals = .ok (ids, st')) : KeepsFuncs st st' := by
  induction formals generalizing st ids with
  | nil =>
    cases found
    exact refl _
  | cons formal formals ih =>
    obtain ⟨name, type⟩ := formal
    simp only [stabResolveFormals, except_bind_eq_ok] at found
    obtain ⟨⟨t, st₁⟩, inner, ⟨rest, st₂⟩, more, found⟩ := found
    cases found
    have added : KeepsFuncs st₁ (stabAddVarNoOffset st₁ name t).2 := of_innermost rfl rfl
    exact ((of_chain (stabResolveType_scopes _ inner).chain).trans added).trans (ih more)

theorem sig {sig : AstSig} {i : Index} (found : stabResolveSig st sig = .ok (i, st')) :
    KeepsFuncs st st' := by
  simp only [stabResolveSig, except_bind_eq_ok] at found
  obtain ⟨⟨r, st₁⟩, result, ⟨args, st₂⟩, resolved, found⟩ := found
  cases found
  have pushed := of_chain (sameScopes_pushType st₂ ⟨.func sig.type args r, abiClosureSize, none⟩).chain
  exact ((retty result).trans (formals resolved)).trans pushed

end KeepsFuncs

end Dragon
