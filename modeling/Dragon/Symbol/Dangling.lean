import Dragon.Symbol.Steps

/-! Type indices that refer to no type.

Every index a table keeps is one of an entry or RESOLVE_FAILURE. A declaration
brings in RESOLVE_FAILURE exactly when it mentions, at some depth, a type name
that no open scope declares.
-/

set_option autoImplicit false

namespace Dragon

open Stab

mutual

def AstType.names : AstType → List Name
  | .ref name => [name]
  | .pointer target => target.names
  | .array _ _ eltType => eltType.names
  | .record fields => fieldNames fields
  | .boolean | .char | .integer | .real | .string | .void => []

def fieldNames : List (Name × AstType) → List Name
  | [] => []
  | (_, type) :: fields => type.names ++ fieldNames fields

end

def rettyNames : Option AstType → List Name
  | none => []
  | some type => type.names

def AstSig.names (sig : AstSig) : List Name :=
  rettyNames sig.retty ++ sig.formals.flatMap fun formal => formal.2.names

def StabResolvedType.indices : StabResolvedType → List Index
  | .array _ _ eltType => [eltType]
  | .func _ _ retty => [retty]
  | .pointer target => [target]
  | .record fields => fields.map Prod.snd
  | .boolean | .char | .integer | .real | .string | .void => []

theorem isCompound_of_held {ty : StabResolvedType} {i : Index} (held : i ∈ ty.indices) :
    ty.isCompound = true := by
  cases ty <;> first | rfl | cases held

namespace Stab

def Inside (st : Stab) (i : Int) : Prop := 0 ≤ i ∧ i < st.types.length

/-- Each type index that is stored is smaller than the number of types. -/
structure NoDangling (st : Stab) : Prop where
  types : ∀ t ∈ st.types, ∀ i ∈ t.ty.indices, st.Inside i
  vars : ∀ v ∈ st.vars, st.Inside v.type
  typeNames : ∀ sc ∈ st.chain, ∀ n i, sc.types.Keeps n i → st.Inside i

/-- No type index that is stored is RESOLVE_FAILURE. -/
structure Clean (st : Stab) : Prop where
  types : ∀ t ∈ st.types, ∀ i ∈ t.ty.indices, i ≠ resolveFailure
  vars : ∀ v ∈ st.vars, v.type ≠ resolveFailure
  typeNames : ∀ sc ∈ st.chain, ∀ n i, sc.types.Keeps n i → i ≠ resolveFailure

theorem Inside.ne_failure {st : Stab} {i : Int} (inside : st.Inside i) : i ≠ resolveFailure := by
  have low := inside.1
  unfold resolveFailure
  omega

theorem inside_of_below {st : Stab} {n : Nat} {i : Int} (below : Below n i) (le : n ≤ st.types.length)
    (resolved : i ≠ resolveFailure) : st.Inside i := by
  rcases below with failed | ⟨low, high⟩
  · exact absurd failed resolved
  · exact ⟨low, by omega⟩

theorem Sound.noDangling_iff {st : Stab} (sound : st.Sound) : st.NoDangling ↔ st.Clean := by
  constructor
  · intro none
    refine ⟨?_, ?_, ?_⟩
    · exact fun t member i held => (none.types t member i held).ne_failure
    · exact fun v member => (none.vars v member).ne_failure
    · exact fun sc member n i keeps => (none.typeNames sc member n i keeps).ne_failure
  · intro clean
    refine ⟨?_, ?_, ?_⟩
    · intro t member i held
      have resolved := clean.types t member i held
      obtain ⟨k, here⟩ := List.mem_iff_getElem?.mp member
      have small := (List.getElem?_eq_some_iff.mp here).1
      cases sound.madeAt here (isCompound_of_held held) with
      | pointer older =>
        rw [List.mem_singleton.mp held] at resolved ⊢
        exact inside_of_below older (Nat.le_of_lt small) resolved
      | record older =>
        obtain ⟨f, field, rfl⟩ := List.mem_map.mp held
        exact inside_of_below (older f field) (Nat.le_of_lt small) resolved
      | array older =>
        rw [List.mem_singleton.mp held]
        exact ⟨older.1, by have := older.2; omega⟩
      | func added older =>
        rw [List.mem_singleton.mp held] at resolved ⊢
        exact inside_of_below older (Nat.le_of_lt small) resolved
      | magic =>
        rw [List.mem_singleton.mp held]
        exact ⟨Int.le_refl 0, by omega⟩
    · exact fun v member => inside_of_below (sound.vars v member) (Nat.le_refl _) (clean.vars v member)
    · intro sc member n i keeps
      have below := sound.typeNames sc member n
      rw [NameTable.lookup_of_keeps keeps] at below
      exact inside_of_below below (Nat.le_refl _) (clean.typeNames sc member n i keeps)

theorem clean_stabNew : stabNew.Clean where
  types := by
    intro t member i held
    have compound := isCompound_of_held held
    rw [not_isCompound_of_builtin member] at compound
    cases compound
  vars := by simp [stabNew]
  typeNames := by
    intro sc member n i keeps
    rw [List.mem_singleton.mp member] at keeps
    exact absurd keeps (NameTable.not_keeps_empty n i)

/-! ## Updates -/

theorem clean_pushType_iff (st : Stab) (t : StabType) :
    (st.pushType t).2.Clean ↔ st.Clean ∧ ∀ i ∈ t.ty.indices, i ≠ resolveFailure := by
  constructor
  · intro clean
    refine ⟨⟨?_, clean.vars, clean.typeNames⟩, ?_⟩
    · exact fun u member => clean.types u (List.mem_append_left _ member)
    · exact clean.types t (List.mem_append_right _ (List.mem_singleton_self t))
  · rintro ⟨clean, resolved⟩
    refine ⟨?_, clean.vars, clean.typeNames⟩
    intro u member
    rcases List.mem_append.mp member with old | fresh
    · exact clean.types u old
    · rw [List.mem_singleton.mp fresh]
      exact resolved

theorem typeNames_insertVar {st : Stab} {name : Name} {id : Index} :
    (∀ sc ∈ (st.insertVar name id).chain, ∀ n i, sc.types.Keeps n i → i ≠ resolveFailure) ↔
      ∀ sc ∈ st.chain, ∀ n i, sc.types.Keeps n i → i ≠ resolveFailure := by
  simp only [Stab.chain, insertVar, List.forall_mem_cons]

theorem clean_addVar_iff (st : Stab) (v : StabVar) (name : Name) :
    ((st.pushVar v).2.insertVar name st.vars.length).Clean ↔
      st.Clean ∧ v.type ≠ resolveFailure := by
  constructor
  · intro clean
    refine ⟨⟨clean.types, ?_, typeNames_insertVar.mp clean.typeNames⟩, ?_⟩
    · exact fun w member => clean.vars w (List.mem_append_left _ member)
    · exact clean.vars v (List.mem_append_right _ (List.mem_singleton_self v))
  · rintro ⟨clean, resolved⟩
    refine ⟨clean.types, ?_, typeNames_insertVar.mpr clean.typeNames⟩
    intro w member
    rcases List.mem_append.mp member with old | fresh
    · exact clean.vars w old
    · rw [List.mem_singleton.mp fresh]
      exact resolved

theorem Clean.insertFunc {st : Stab} (clean : st.Clean) (name : Name) (id : Index) :
    (st.insertFunc name id).Clean := by
  refine ⟨clean.types, clean.vars, ?_⟩
  intro sc member
  rcases List.mem_cons.mp member with rfl | member
  · exact clean.typeNames st.innermost List.mem_cons_self
  · exact clean.typeNames sc (List.mem_cons_of_mem _ member)

theorem Clean.of_insertFunc {st : Stab} {name : Name} {id : Index}
    (clean : (st.insertFunc name id).Clean) : st.Clean := by
  refine ⟨clean.types, clean.vars, ?_⟩
  intro sc member
  rcases List.mem_cons.mp member with rfl | member
  · exact clean.typeNames (st.insertFunc name id).innermost List.mem_cons_self
  · exact clean.typeNames sc (List.mem_cons_of_mem _ member)

theorem Clean.insertType_iff {st : Stab} (clean : st.Clean) (name : Name) (id : Index) :
    (st.insertType name id).Clean ↔ id ≠ resolveFailure := by
  constructor
  · intro after
    obtain ⟨n, keeps⟩ := st.innermost.types.exists_keeps_insert name id
    exact after.typeNames _ List.mem_cons_self n id keeps
  · intro resolved
    refine ⟨clean.types, clean.vars, ?_⟩
    intro sc member n i keeps
    rcases List.mem_cons.mp member with rfl | member
    · rcases NameTable.keeps_insert keeps with old | rfl
      · exact clean.typeNames st.innermost List.mem_cons_self n i old
      · exact resolved
    · exact clean.typeNames sc (List.mem_cons_of_mem _ member) n i keeps

theorem Clean.enter {st : Stab} (clean : st.Clean) : (stabEnter st).Clean := by
  refine ⟨clean.types, clean.vars, ?_⟩
  intro sc member n i keeps
  rcases List.mem_cons.mp member with rfl | member
  · exact absurd keeps (NameTable.not_keeps_empty n i)
  · exact clean.typeNames sc member n i keeps

theorem Clean.leave {st st' : Stab} (clean : st.Clean) (left : stabLeave st = .ok st') :
    st'.Clean := by
  obtain ⟨sc, rest, open_, rfl⟩ := stabLeave_eq_ok.mp left
  refine ⟨clean.types, clean.vars, ?_⟩
  intro sc' member
  exact clean.typeNames sc' (List.mem_cons_of_mem _ (open_ ▸ member))

theorem Clean.capture {st : Stab} (clean : st.Clean) {idx : Index} {v : StabVar}
    (found : stabVar st idx = some v) (d : Int) :
    (st.setVar idx { v with captured := true, dispOffset := d }).Clean := by
  refine ⟨clean.types, ?_, clean.typeNames⟩
  intro w member
  rcases List.mem_or_eq_of_mem_set member with old | rfl
  · exact clean.vars w old
  · exact clean.vars v (List.mem_of_getElem? (arenaGet_eq_some.mp found).2)

end Stab

/-! ## Resolution -/

def NamesDeclared (st : Stab) (names : List Name) : Prop :=
  ∀ n ∈ names, stabResolveTypeName st n ≠ resolveFailure

theorem namesDeclared_append {st : Stab} {first second : List Name} :
    NamesDeclared st (first ++ second) ↔ NamesDeclared st first ∧ NamesDeclared st second :=
  List.forall_mem_append

theorem namesDeclared_congr {st st' : Stab} (same : SameScopes st st') (names : List Name) :
    NamesDeclared st' names ↔ NamesDeclared st names := by
  unfold NamesDeclared stabResolveTypeName
  rw [same.chain]

theorem length_ne_failure (n : Nat) : (n : Int) ≠ resolveFailure := by
  unfold resolveFailure
  omega

mutual

theorem stabResolveType_clean_iff : ∀ (t : AstType) {st st' : Stab} {i : Index},
    stabResolveType st t = .ok (i, st') →
      (st'.Clean ∧ i ≠ resolveFailure ↔ st.Clean ∧ NamesDeclared st t.names)
  | .ref name, _, _, _, found => by
      cases found
      simp only [AstType.names, NamesDeclared, List.forall_mem_singleton]
  | .integer, _, _, _, found | .real, _, _, _, found | .string, _, _, _, found
  | .boolean, _, _, _, found | .char, _, _, _, found | .void, _, _, _, found => by
      cases found
      simp [AstType.names, NamesDeclared, integerTypeIdx, realTypeIdx, stringTypeIdx, booleanTypeIdx,
        charTypeIdx, voidTypeIdx, resolveFailure]
  | .pointer target, st, st', i, found => by
      simp only [stabResolveType, except_bind_eq_ok] at found
      obtain ⟨⟨t, st₁⟩, inner, found⟩ := found
      cases found
      have pushed := clean_pushType_iff st₁ ⟨.pointer t, abiPointerSize, none⟩
      simp only [StabResolvedType.indices, List.forall_mem_singleton] at pushed
      rw [AstType.names, ← stabResolveType_clean_iff target inner]
      exact (and_iff_left (length_ne_failure _)).trans pushed
  | .record fields, st, st', i, found => by
      simp only [stabResolveType, except_bind_eq_ok] at found
      obtain ⟨⟨fields', st₁⟩, inner, found⟩ := found
      cases found
      have pushed := clean_pushType_iff st₁ ⟨.record fields', 0, none⟩
      simp only [StabResolvedType.indices, List.forall_mem_map] at pushed
      rw [AstType.names, ← stabResolveFields_clean_iff fields inner]
      exact (and_iff_left (length_ne_failure _)).trans pushed
  | .array lower upper elt, st, st', i, found => by
      simp only [stabResolveType, except_bind_eq_ok] at found
      obtain ⟨⟨t, st₁⟩, inner, found⟩ := found
      dsimp only at found
      split at found
      · cases found
      next u here =>
        cases found
        have pushed := clean_pushType_iff st₁
          ⟨.array (atoi lower) (atoi upper) t, u.size * (atoi upper - atoi lower), none⟩
        simp only [StabResolvedType.indices, List.forall_mem_singleton] at pushed
        rw [AstType.names, ← stabResolveType_clean_iff elt inner]
        exact (and_iff_left (length_ne_failure _)).trans pushed

theorem stabResolveFields_clean_iff : ∀ (fields : List (Name × AstType)) {st st' : Stab}
    {l : List (Name × Index)}, stabResolveFields st fields = .ok (l, st') →
      ((st'.Clean ∧ ∀ f ∈ l, f.2 ≠ resolveFailure) ↔
        st.Clean ∧ NamesDeclared st (fieldNames fields))
  | [], _, _, _, found => by
      cases found
      simp [fieldNames, NamesDeclared]
  | (name, type) :: fields, st, st', l, found => by
      simp only [stabResolveFields, except_bind_eq_ok] at found
      obtain ⟨⟨t, st₁⟩, inner, ⟨rest, st₂⟩, more, found⟩ := found
      cases found
      have same := stabResolveType_scopes type inner
      rw [fieldNames, namesDeclared_append, ← and_assoc, ← stabResolveType_clean_iff type inner,
        List.forall_mem_cons, and_right_comm, ← namesDeclared_congr same,
        ← stabResolveFields_clean_iff fields more]
      constructor
      · rintro ⟨clean, first, each⟩
        exact ⟨⟨clean, each⟩, first⟩
      · rintro ⟨⟨clean, each⟩, first⟩
        exact ⟨clean, first, each⟩

end

theorem stabResolveRetty_clean_iff {retty : Option AstType} {st st' : Stab} {i : Index}
    (found : stabResolveRetty st retty = .ok (i, st')) :
    st'.Clean ∧ i ≠ resolveFailure ↔ st.Clean ∧ NamesDeclared st (rettyNames retty) := by
  cases retty with
  | none =>
    cases found
    simp [rettyNames, NamesDeclared, voidTypeIdx, resolveFailure]
  | some type => exact stabResolveType_clean_iff type found

theorem namesDeclared_addVar {st : Stab} {v : StabVar} {name : Name} {id : Index}
    (names : List Name) :
    NamesDeclared ((st.pushVar v).2.insertVar name id) names ↔ NamesDeclared st names := by
  have same : ∀ n, stabResolveTypeName ((st.pushVar v).2.insertVar name id) n =
      stabResolveTypeName st n := fun n => rfl
  simp only [NamesDeclared, same]

theorem stabResolveFormals_clean_iff {formals : List (Name × AstType)} {st st' : Stab}
    {ids : List Index} (found : stabResolveFormals st formals = .ok (ids, st')) :
    st'.Clean ↔ st.Clean ∧ NamesDeclared st (formals.flatMap fun formal => formal.2.names) := by
  induction formals generalizing st ids with
  | nil =>
    cases found
    simp [NamesDeclared]
  | cons formal formals ih =>
    obtain ⟨name, type⟩ := formal
    simp only [stabResolveFormals, except_bind_eq_ok] at found
    obtain ⟨⟨t, st₁⟩, inner, ⟨rest, st₂⟩, more, found⟩ := found
    cases found
    have same := stabResolveType_scopes type inner
    have added := clean_addVar_iff st₁ ⟨t, name, -1, -1, false⟩ name
    have kept := @namesDeclared_addVar st₁ ⟨t, name, -1, -1, false⟩ name st₁.vars.length
      (formals.flatMap fun formal => formal.2.names)
    rw [List.flatMap_cons, namesDeclared_append, ← and_assoc, ← stabResolveType_clean_iff type inner,
      ih more, ← namesDeclared_congr same]
    exact and_congr added kept

theorem stabResolveSig_clean_iff {sig : AstSig} {st st' : Stab} {i : Index}
    (found : stabResolveSig st sig = .ok (i, st')) :
    st'.Clean ↔ st.Clean ∧ NamesDeclared st sig.names := by
  simp only [stabResolveSig, except_bind_eq_ok] at found
  obtain ⟨⟨retty, st₁⟩, result, ⟨args, st₂⟩, formals, found⟩ := found
  cases found
  have same := stabResolveRetty_scopes result
  have pushed := clean_pushType_iff st₂ ⟨.func sig.type args retty, abiClosureSize, none⟩
  simp only [StabResolvedType.indices, List.forall_mem_singleton] at pushed
  rw [AstSig.names, namesDeclared_append, ← and_assoc, ← stabResolveRetty_clean_iff result,
    ← namesDeclared_congr same, and_right_comm, ← stabResolveFormals_clean_iff formals]
  exact pushed

end Dragon
