import Dragon.Symbol.Scopes

/-! Where stab_add_decls puts variables: frame offsets and bindings.

The variables of a list of declarations are consecutive in the arena and in the
frame, and each name is bound to its own variable, because a name that is bound
in the innermost scope is rejected.
-/

set_option autoImplicit false

namespace Dragon

open Stab

/-- Types have been added at most. -/
structure MoreTypes (st st' : Stab) : Prop where
  vars : st'.vars = st.vars
  innermost : st'.innermost = st.innermost
  enclosing : st'.enclosing = st.enclosing
  types : st.types <+: st'.types

namespace MoreTypes

theorem refl (st : Stab) : MoreTypes st st := ⟨rfl, rfl, rfl, List.prefix_rfl⟩

theorem trans {st₁ st₂ st₃ : Stab} (first : MoreTypes st₁ st₂) (second : MoreTypes st₂ st₃) :
    MoreTypes st₁ st₃ :=
  ⟨second.vars.trans first.vars, second.innermost.trans first.innermost,
    second.enclosing.trans first.enclosing, first.types.trans second.types⟩

theorem pushType (st : Stab) (t : StabType) : MoreTypes st (st.pushType t).2 :=
  ⟨rfl, rfl, rfl, List.prefix_append _ _⟩

end MoreTypes

mutual

theorem stabResolveType_more : ∀ (t : AstType) {st st' : Stab} {i : Index},
    stabResolveType st t = .ok (i, st') → MoreTypes st st'
  | .ref _, _, _, _, found | .integer, _, _, _, found | .real, _, _, _, found
  | .string, _, _, _, found | .boolean, _, _, _, found | .char, _, _, _, found
  | .void, _, _, _, found => by
      simp only [stabResolveType, Except.ok.injEq, Prod.mk.injEq] at found
      exact found.2 ▸ .refl _
  | .pointer target, _, _, _, found => by
      simp only [stabResolveType, except_bind_eq_ok] at found
      obtain ⟨⟨t, st₁⟩, inner, found⟩ := found
      cases found
      exact (stabResolveType_more target inner).trans (.pushType _ _)
  | .record fields, _, _, _, found => by
      simp only [stabResolveType, except_bind_eq_ok] at found
      obtain ⟨⟨fields', st₁⟩, inner, found⟩ := found
      cases found
      exact (stabResolveFields_more fields inner).trans (.pushType _ _)
  | .array lower upper elt, _, _, _, found => by
      simp only [stabResolveType, except_bind_eq_ok] at found
      obtain ⟨⟨t, st₁⟩, inner, found⟩ := found
      dsimp only at found
      split at found
      · cases found
      · cases found
        exact (stabResolveType_more elt inner).trans (.pushType _ _)

theorem stabResolveFields_more : ∀ (fields : List (Name × AstType)) {st st' : Stab}
    {l : List (Name × Index)}, stabResolveFields st fields = .ok (l, st') → MoreTypes st st'
  | [], _, _, _, found => by
      simp only [stabResolveFields, Except.ok.injEq, Prod.mk.injEq] at found
      exact found.2 ▸ .refl _
  | (name, type) :: fields, _, _, _, found => by
      simp only [stabResolveFields, except_bind_eq_ok] at found
      obtain ⟨⟨t, st₁⟩, inner, ⟨rest, st₂⟩, more, found⟩ := found
      cases found
      exact (stabResolveType_more type inner).trans (stabResolveFields_more fields more)

end

theorem stabResolveRetty_more {retty : Option AstType} {st st' : Stab} {i : Index}
    (resolved : stabResolveRetty st retty = .ok (i, st')) : MoreTypes st st' := by
  cases retty with
  | none =>
    cases resolved
    exact .refl st
  | some t => exact stabResolveType_more t resolved

theorem stabAddVar_eq_ok {st st' : Stab} {name : Name} {type id : Index} {off off' : Int} {up : Bool} :
    stabAddVar st name type off up = .ok (id, off', st') ↔
      ∃ t, stabType st type = some t ∧ id = st.vars.length ∧
        off' = off + (if up then 1 else -1) * t.size ∧
        st' = (st.pushVar ⟨type, name, -1, off, false⟩).2.insertVar name st.vars.length := by
  unfold stabAddVar
  cases stabType st type with
  | none => simp
  | some t =>
    simp only [Except.ok.injEq, Prod.mk.injEq, Option.some.injEq]
    constructor
    · rintro ⟨rfl, rfl, rfl⟩
      exact ⟨t, rfl, rfl, rfl, rfl⟩
    · rintro ⟨_, rfl, rfl, rfl, rfl⟩
      exact ⟨rfl, rfl, rfl⟩

/-! ## Bindings -/

/-- The names have been declared: one new variable for each, bound in the innermost scope. -/
structure Declared (st st' : Stab) (names : List Name) (vars : List StabVar) : Prop where
  vars_eq : st'.vars = st.vars ++ vars
  names_eq : vars.map StabVar.name = names
  enclosing : st'.enclosing = st.enclosing
  types : st.types <+: st'.types
  fresh : ∀ n ∈ names, st.innermost.vars.lookup n = resolveFailure
  bound : ∀ (i : Nat) (v : StabVar), vars[i]? = some v →
    st'.innermost.vars.lookup v.name = st.vars.length + i
  other : ∀ n ∉ names, st'.innermost.vars.lookup n = st.innermost.vars.lookup n
  typeNames : st'.innermost.types = st.innermost.types
  unused : ∀ v ∈ vars, v.captured = false
  entries : ∀ ent ∈ st'.innermost.vars.entries, ent ∈ st.innermost.vars.entries ∨ 0 ≤ ent.val

namespace Declared

theorem none_ {st st' : Stab} (more : MoreTypes st st') : Declared st st' [] [] where
  vars_eq := by rw [more.vars, List.append_nil]
  names_eq := rfl
  enclosing := more.enclosing
  types := more.types
  fresh := nofun
  bound := by
    intro i v found
    simp at found
  other := fun _ _ => by rw [more.innermost]
  typeNames := by rw [more.innermost]
  unused := nofun
  entries := by
    rw [more.innermost]
    exact fun ent member => .inl member

theorem one {st st' : Stab} {name : Name} {type id : Index} {off off' : Int} {up : Bool}
    (fresh : stabHasLocalVar st name = false)
    (added : stabAddVar st name type off up = .ok (id, off', st')) :
    Declared st st' [name] [⟨type, name, -1, off, false⟩] := by
  unfold stabAddVar at added
  split at added
  · cases added
  · cases added
    refine ⟨rfl, rfl, rfl, List.prefix_rfl, ?_, ?_, ?_, rfl, by simp, ?_⟩
    · intro n member
      rw [List.mem_singleton.mp member]
      simpa [stabHasLocalVar] using fresh
    · intro i v found
      cases i with
      | zero =>
        cases found
        simp [insertVar]
      | succ i => simp at found
    · intro n outside
      have ne : n ≠ name := fun same => outside (same ▸ List.mem_cons_self)
      exact NameTable.lookup_insert_of_ne _ _ ne
    · intro ent member
      rcases NameTable.mem_entries_insert member with old | new
      · exact .inl old
      · exact .inr (new ▸ Int.natCast_nonneg _)

theorem trans {st₁ st₂ st₃ : Stab} {names names' : List Name} {vars vars' : List StabVar}
    (first : Declared st₁ st₂ names vars) (second : Declared st₂ st₃ names' vars') :
    Declared st₁ st₃ (names ++ names') (vars ++ vars') := by
  have bound₁ : ∀ n ∈ names, st₂.innermost.vars.lookup n ≠ resolveFailure := by
    intro n member
    rw [← first.names_eq] at member
    obtain ⟨v, inside, rfl⟩ := List.mem_map.mp member
    obtain ⟨i, small, rfl⟩ := List.mem_iff_getElem.mp inside
    rw [first.bound i _ (List.getElem?_eq_getElem small), resolveFailure]
    omega
  -- a second declaration of a name is rejected, so the lists have no name in common
  have apart : ∀ n ∈ names, n ∉ names' := fun n member again =>
    bound₁ n member (second.fresh n again)
  refine ⟨?_, ?_, second.enclosing.trans first.enclosing, first.types.trans second.types, ?_, ?_, ?_,
    second.typeNames.trans first.typeNames, ?_, ?_⟩
  · rw [second.vars_eq, first.vars_eq, List.append_assoc]
  · rw [List.map_append, first.names_eq, second.names_eq]
  · intro n member
    rcases List.mem_append.mp member with member | member
    · exact first.fresh n member
    · by_cases inside : n ∈ names
      · exact absurd member (apart n inside)
      · rw [← first.other n inside]
        exact second.fresh n member
  · intro i v found
    by_cases small : i < vars.length
    · rw [List.getElem?_append_left small] at found
      have member : v.name ∈ names := by
        rw [← first.names_eq]
        exact List.mem_map_of_mem (List.mem_of_getElem? found)
      rw [second.other _ (apart _ member)]
      exact first.bound i v found
    · rw [List.getElem?_append_right (by omega)] at found
      rw [second.bound _ v found, first.vars_eq, List.length_append]
      omega
  · intro n outside
    rw [List.mem_append, not_or] at outside
    rw [second.other n outside.2, first.other n outside.1]
  · intro v member
    rcases List.mem_append.mp member with member | member
    · exact first.unused v member
    · exact second.unused v member
  · intro ent member
    rcases second.entries ent member with old | new
    · exact first.entries ent old
    · exact .inr new

end Declared

/-! ## Offsets -/

/-- The variables stand one after the other from a frame offset on, upwards for locals and
downwards for formals. -/
def Laid (st : Stab) (up : Bool) : Int → List StabVar → Int → Prop
  | off, [], off' => off' = off
  | off, v :: vars, off' =>
      v.stackBaseOffset = off ∧ ∃ t, stabType st v.type = some t ∧
        Laid st up (off + (if up then 1 else -1) * t.size) vars off'

theorem Laid.mono {st st' : Stab} (more : st.types <+: st'.types) {up : Bool} {off off' : Int}
    {vars : List StabVar} (laid : Laid st up off vars off') : Laid st' up off vars off' := by
  induction vars generalizing off with
  | nil => exact laid
  | cons v vars ih =>
    obtain ⟨here, t, found, rest⟩ := laid
    exact ⟨here, t, stabType_mono more found, ih rest⟩

theorem Laid.append {st : Stab} {up : Bool} {off₁ off₂ off₃ : Int} {vars vars' : List StabVar}
    (first : Laid st up off₁ vars off₂) (second : Laid st up off₂ vars' off₃) :
    Laid st up off₁ (vars ++ vars') off₃ := by
  induction vars generalizing off₁ with
  | nil =>
    cases first
    exact second
  | cons v vars ih =>
    obtain ⟨here, t, found, rest⟩ := first
    exact ⟨here, t, found, ih rest⟩

theorem stabAddNames_laid {names : List Name} {type : Index} {up : Bool} {st st' : Stab}
    {off off' : Int} (added : stabAddNames st type up names off = .ok (off', st')) :
    ∃ vars, Declared st st' names vars ∧ Laid st' up off vars off' ∧ st'.types = st.types ∧
      vars.map StabVar.type = names.map fun _ => type := by
  induction names generalizing st off with
  | nil =>
    simp only [stabAddNames, Except.ok.injEq, Prod.mk.injEq] at added
    obtain ⟨rfl, rfl⟩ := added
    exact ⟨[], .none_ (.refl _), rfl, rfl, rfl⟩
  | cons var names ih =>
    simp only [stabAddNames] at added
    split at added
    · cases added
    next fresh =>
      simp only [except_bind_eq_ok] at added
      obtain ⟨⟨id, off₁, st₁⟩, first, rest⟩ := added
      obtain ⟨vars, declared, laid, types, sameTypes⟩ := ih rest
      have head := Declared.one (by simpa using fresh) first
      have kept : st₁.types = st.types ∧ ∃ t, stabType st type = some t ∧
          off₁ = off + (if up then 1 else -1) * t.size := by
        unfold stabAddVar at first
        split at first
        · cases first
        next t found =>
          cases first
          exact ⟨rfl, t, found, rfl⟩
      obtain ⟨same, t, found, rfl⟩ := kept
      have still : stabType st' type = some t := by
        unfold stabType
        rw [types, same]
        exact found
      refine ⟨_, head.trans declared, ⟨rfl, t, still, laid⟩, types.trans same, ?_⟩
      rw [List.map_append, sameTypes]
      rfl

/-- The types that leave the table as it is: the built-in ones and names of types. -/
def AstType.plainIndex (st : Stab) : AstType → Option Index
  | .integer => some integerTypeIdx
  | .real => some realTypeIdx
  | .string => some stringTypeIdx
  | .boolean => some booleanTypeIdx
  | .char => some charTypeIdx
  | .void => some voidTypeIdx
  | .ref name => some (stabResolveTypeName st name)
  | .array .. | .pointer _ | .record _ => none

theorem stabResolveType_plain {st : Stab} {t : AstType} {i : Index}
    (plain : t.plainIndex st = some i) : stabResolveType st t = .ok (i, st) := by
  cases t <;> cases plain <;> rfl

theorem plainIndex_congr {st st' : Stab} (inner : st'.innermost.types = st.innermost.types)
    (enclosing : st'.enclosing = st.enclosing) (t : AstType) :
    t.plainIndex st' = t.plainIndex st := by
  have same : ∀ name, stabResolveTypeName st' name = stabResolveTypeName st name := by
    intro name
    simp only [stabResolveTypeName, Stab.chain, resolveIn, inner, enclosing]
  cases t with
  | ref name => exact congrArg some (same name)
  | _ => rfl

theorem stabAddAllDecls_laid {decls : List AstDecls} {up : Bool} {st st' : Stab} {off off' : Int}
    {index : AstDecls → Index} (plain : ∀ d ∈ decls, d.type.plainIndex st = some (index d))
    (added : stabAddAllDecls st up decls off = .ok (off', st')) :
    ∃ vars, Declared st st' (decls.flatMap AstDecls.names) vars ∧ Laid st' up off vars off' ∧
      st'.types = st.types ∧
      vars.map StabVar.type = decls.flatMap fun d => d.names.map fun _ => index d := by
  induction decls generalizing st off with
  | nil =>
    simp only [stabAddAllDecls, Except.ok.injEq, Prod.mk.injEq] at added
    obtain ⟨rfl, rfl⟩ := added
    exact ⟨[], .none_ (.refl _), rfl, rfl, rfl⟩
  | cons d decls ih =>
    simp only [stabAddAllDecls, stabAddDecls, except_bind_eq_ok] at added
    obtain ⟨⟨off₁, st₁⟩, ⟨⟨type, st₂⟩, resolved, names⟩, rest⟩ := added
    rw [stabResolveType_plain (plain d List.mem_cons_self)] at resolved
    cases resolved
    obtain ⟨vars, declared, laid, types, indices⟩ := stabAddNames_laid names
    have later : ∀ d ∈ decls, d.type.plainIndex st₁ = some (index d) := by
      intro d member
      rw [plainIndex_congr declared.typeNames declared.enclosing]
      exact plain d (List.mem_cons_of_mem _ member)
    obtain ⟨vars', declared', laid', types', indices'⟩ := ih later rest
    refine ⟨_, declared.trans declared', (laid.mono declared'.types).append laid', types'.trans types,
      ?_⟩
    rw [List.map_append, indices, indices', List.flatMap_cons]

theorem stabAddAllDecls_frame {decls : List AstDecls} {up : Bool} {st st' : Stab} {off off' : Int}
    (added : stabAddAllDecls st up decls off = .ok (off', st')) :
    ∃ vars, Declared st st' (decls.flatMap AstDecls.names) vars ∧ Laid st' up off vars off' := by
  induction decls generalizing st off with
  | nil =>
    simp only [stabAddAllDecls, Except.ok.injEq, Prod.mk.injEq] at added
    obtain ⟨rfl, rfl⟩ := added
    exact ⟨[], .none_ (.refl _), rfl⟩
  | cons d decls ih =>
    simp only [stabAddAllDecls, stabAddDecls, except_bind_eq_ok] at added
    obtain ⟨⟨off₁, st₁⟩, ⟨⟨type, st₂⟩, resolved, names⟩, rest⟩ := added
    have more := stabResolveType_more d.type resolved
    obtain ⟨vars, declared, laid, types, indices⟩ := stabAddNames_laid names
    obtain ⟨vars', declared', laid'⟩ := ih rest
    have whole := (Declared.none_ more).trans (declared.trans declared')
    exact ⟨vars ++ vars', whole, (laid.mono declared'.types).append laid'⟩

theorem stabAddAllTypes_keeps {types : List AstTypeDecl} {st st' : Stab}
    (added : stabAddAllTypes st types = .ok st') :
    st'.vars = st.vars ∧ st'.innermost.vars = st.innermost.vars ∧ st.types <+: st'.types := by
  induction types generalizing st with
  | nil =>
    cases added
    exact ⟨rfl, rfl, List.prefix_rfl⟩
  | cons t types ih =>
    simp only [stabAddAllTypes, except_bind_eq_ok] at added
    obtain ⟨st₁, first, rest⟩ := added
    obtain ⟨-, -, type, st₂, resolved, rfl⟩ := stabAddType_eq_ok.mp first
    have more := stabResolveType_more t.type resolved
    obtain ⟨vars, names, prefix_⟩ := ih rest
    have inner : st₂.innermost.vars = st.innermost.vars := by rw [more.innermost]
    exact ⟨vars.trans more.vars, names.trans inner, more.types.trans prefix_⟩

end Dragon
