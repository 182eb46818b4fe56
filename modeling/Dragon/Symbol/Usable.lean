import Dragon.Symbol.Dangling

/-! Calls on the symbol table that return or end in span_err.

The grammar makes arrays of standard types only, so resolution itself never
fails. A variable can not have an undeclared type name as its type, and two
types can be compared unless the comparison comes to an undeclared type or to
two voids.
-/

set_option autoImplicit false

namespace Dragon

open Stab

def Stop.Reported : Stop → Prop
  | .spanErr _ => True
  | .abort | .assertFailed | .undefined => False

def Reported {α : Type} (x : Except Stop α) : Prop := ∀ s, x = .error s → s.Reported

@[simp] theorem reported_ok {α : Type} (a : α) : Reported (.ok a : Except Stop α) :=
  fun _ stopped => by cases stopped

@[simp] theorem reported_error {α : Type} {s : Stop} :
    Reported (.error s : Except Stop α) ↔ s.Reported := by
  constructor
  · exact fun reported => reported s rfl
  · intro reported s' stopped
    cases stopped
    exact reported

@[simp] theorem Stop.reported_spanErr (message : String) : (Stop.spanErr message).Reported := trivial

@[simp] theorem Stop.not_reported_abort : ¬ Stop.abort.Reported := id

@[simp] theorem Stop.not_reported_assertFailed : ¬ Stop.assertFailed.Reported := id

@[simp] theorem Stop.not_reported_undefined : ¬ Stop.undefined.Reported := id

theorem reported_of_ok {α : Type} {x : Except Stop α} (returned : ∃ a, x = .ok a) : Reported x := by
  obtain ⟨a, rfl⟩ := returned
  exact reported_ok a

theorem reported_bind {α β : Type} {x : Except Stop α} {f : α → Except Stop β} :
    Reported (x >>= f) ↔ Reported x ∧ ∀ a, x = .ok a → Reported (f a) := by
  cases x with
  | error s =>
    change Reported (.error s) ↔ _
    simp
  | ok a =>
    change Reported (f a) ↔ _
    simp

/-! ## What the grammar writes -/

def AstType.standard : AstType → Bool
  | .integer | .real | .string | .boolean | .char => true
  | .array .. | .pointer _ | .record _ | .ref _ | .void => false

mutual

/-- The productions of type. -/
def AstType.written : AstType → Bool
  | .array _ _ eltType => eltType.standard
  | .pointer target => target.written
  | .record fields => fieldsWritten fields
  | .ref _ | .integer | .real | .string | .boolean | .char => true
  | .void => false

def fieldsWritten : List (Name × AstType) → Bool
  | [] => true
  | (_, type) :: fields => type.written && fieldsWritten fields

end

def AstDecls.written (d : AstDecls) : Bool := d.type.written

def AstTypeDecl.written (t : AstTypeDecl) : Bool := t.type.written

/-- A function returns a standard type, a procedure nothing. -/
def AstSig.written (sig : AstSig) : Bool :=
  sig.args.all AstDecls.written && sig.retty.all AstType.standard

theorem AstSig.written_formals {sig : AstSig} (written : sig.written = true) :
    ∀ formal ∈ sig.formals, formal.2.written = true := by
  intro formal member
  obtain ⟨d, here, named⟩ := List.mem_flatMap.mp member
  obtain ⟨name, -, rfl⟩ := List.mem_map.mp named
  rw [AstSig.written, Bool.and_eq_true, List.all_eq_true] at written
  exact written.1 d here

/-! ## Tables -/

namespace Stab

/-- Every index is that of an entry or RESOLVE_FAILURE, and what the loops over a scope find are
variables. -/
structure Readable (st : Stab) : Prop where
  sound : st.Sound
  entries : ∀ sc ∈ st.chain, ∀ ent ∈ sc.vars.entries, ∃ v, stabVar st ent.val = some v

theorem readable_stabNew : stabNew.Readable where
  sound := sound_stabNew
  entries := by
    intro sc member ent inside
    rw [List.mem_singleton.mp member] at inside
    exact absurd inside (NameTable.entries_empty ▸ List.not_mem_nil)

end Stab

theorem StabStep.exists_var {s t : Stab × Int} (step : StabStep s t) {i : Index}
    (before : ∃ v, stabVar s.1 i = some v) : ∃ v, stabVar t.1 i = some v := by
  obtain ⟨v, found⟩ := before
  obtain ⟨low, here⟩ := arenaGet_eq_some.mp found
  obtain ⟨w, there, -⟩ := stabStep_vars step i.toNat v here
  exact ⟨w, arenaGet_eq_some.mpr ⟨low, there⟩⟩

theorem StabStep.entry {s t : Stab × Int} (step : StabStep s t) {sc : StabScope}
    (member : sc ∈ t.1.chain) {ent : BucketEntry Name} (inside : ent ∈ sc.vars.entries) :
    (∃ sc' ∈ s.1.chain, ent ∈ sc'.vars.entries) ∨ ∃ v, stabVar t.1 ent.val = some v := by
  cases step with
  | enter =>
    rcases List.mem_cons.mp member with rfl | member
    · exact absurd inside (NameTable.entries_empty ▸ List.not_mem_nil)
    · exact .inl ⟨sc, member, inside⟩
  | leave left =>
    obtain ⟨top, rest, enclosing, rfl⟩ := stabLeave_eq_ok.mp left
    exact .inl ⟨sc, List.mem_cons_of_mem _ (enclosing ▸ member), inside⟩
  | pushType | capture => exact .inl ⟨sc, member, inside⟩
  | insertFunc | insertType =>
    rcases List.mem_cons.mp member with rfl | member
    · exact .inl ⟨_, List.mem_cons_self, inside⟩
    · exact .inl ⟨sc, List.mem_cons_of_mem _ member, inside⟩
  | @addVar st d off type name resolved =>
    rcases List.mem_cons.mp member with rfl | member
    · rcases NameTable.mem_entries_insert inside with old | fresh
      · exact .inl ⟨_, List.mem_cons_self, old⟩
      · right
        rw [fresh]
        refine ⟨⟨type, name, -1, off, false⟩, arenaGet_eq_some.mpr ⟨Int.natCast_nonneg _, ?_⟩⟩
        simp [insertVar, pushVar]
    · exact .inl ⟨sc, List.mem_cons_of_mem _ member, inside⟩

theorem StabStep.readable {s t : Stab × Int} (step : StabStep s t) (readable : s.1.Readable) :
    t.1.Readable where
  sound := step.sound readable.sound
  entries := by
    intro sc member ent inside
    rcases step.entry member inside with ⟨sc', before, inside'⟩ | fresh
    · exact step.exists_var (readable.entries sc' before ent inside')
    · exact fresh

theorem StabSteps.readable {s t : Stab × Int} (steps : StabSteps s t) (readable : s.1.Readable) :
    t.1.Readable :=
  StabSteps.preserves (P := fun s => s.1.Readable) (fun _ _ step => step.readable) steps readable

theorem StabSteps.exists_var {s t : Stab × Int} (steps : StabSteps s t) {i : Index}
    (before : ∃ v, stabVar s.1 i = some v) : ∃ v, stabVar t.1 i = some v :=
  StabSteps.preserves (P := fun s => ∃ v, stabVar s.1 i = some v) (fun _ _ step => step.exists_var)
    steps before

theorem Stab.Sound.exists_builtin {st : Stab} (sound : st.Sound) {i : Int} (low : 0 ≤ i)
    (high : i < 6) : ∃ t, stabType st i = some t := by
  have six : 6 ≤ st.types.length := sound.builtin.length_le
  apply exists_arenaGet low
  omega

theorem Stab.Sound.target_older {st : Stab} (sound : st.Sound) {i : Int} {t : StabType}
    {target : Index} (found : stabType st i = some t) (pointer : t.ty = .pointer target) :
    (target : Int) < i := by
  -- the target of a pointer is an older type
  obtain ⟨low, here⟩ := arenaGet_eq_some.mp found
  cases sound.madeAt here (by rw [pointer]; rfl) with
  | pointer older =>
    cases pointer
    rcases older with failed | ⟨-, less⟩
    · rw [failed]
      exact Int.lt_of_lt_of_le (by decide) low
    · exact Int.lt_of_lt_of_le less (Int.le_of_eq (Int.toNat_of_nonneg low))
  | _ => cases pointer

theorem Stab.Sound.exists_formal {st : Stab} (sound : st.Sound) {i : Int} {t : StabType}
    {type : Subprogs} {formals : List Index} {retty : Index} (found : stabType st i = some t)
    (func : t.ty = .func type formals retty) : ∀ ft ∈ formals, ∃ v, stabVar st ft = some v := by
  obtain ⟨low, here⟩ := arenaGet_eq_some.mp found
  intro ft member
  cases sound.madeAt here (by rw [func]; rfl) with
  | func added older =>
    cases func
    exact exists_arenaGet (added ft member).1 (added ft member).2
  | magic =>
    cases func
    cases member
  | _ => cases func

/-! ## Resolution -/

theorem stabResolveType_standard {t : AstType} (standard : t.standard = true) (st : Stab) :
    ∃ i : Int, stabResolveType st t = .ok (i, st) ∧ 0 ≤ i ∧ i < 6 := by
  cases t with
  | array | pointer | record | ref | void => cases standard
  | integer | real | string | boolean | char => exact ⟨_, rfl, by decide, by decide⟩

mutual

theorem stabResolveType_ok : ∀ (t : AstType) {st : Stab}, st.Sound → t.written = true →
    ∃ i st', stabResolveType st t = .ok (i, st')
  | .ref name, st, _, _ => ⟨_, st, rfl⟩
  | .integer, st, _, _ | .real, st, _, _ | .string, st, _, _ | .boolean, st, _, _
  | .char, st, _, _ => ⟨_, st, rfl⟩
  | .void, _, _, written => by cases written
  | .pointer target, st, sound, written => by
      obtain ⟨i, st₁, inner⟩ := stabResolveType_ok target sound written
      exact ⟨_, _, by rw [stabResolveType, inner]; rfl⟩
  | .record fields, st, sound, written => by
      obtain ⟨l, st₁, inner⟩ := stabResolveFields_ok fields sound written
      exact ⟨_, _, by rw [stabResolveType, inner]; rfl⟩
  | .array lower upper elt, st, sound, written => by
      obtain ⟨i, inner, low, high⟩ := stabResolveType_standard written st
      obtain ⟨u, found⟩ := sound.exists_builtin low high
      have pushed : stabResolveType st (.array lower upper elt) = .ok (st.pushType
          ⟨.array (atoi lower) (atoi upper) i, u.size * (atoi upper - atoi lower), none⟩) := by
  -- resolution itself never fails
        simp only [stabResolveType, except_bind_eq_ok]
        exact ⟨(i, st), inner, by dsimp only; rw [found]⟩
      exact ⟨_, _, pushed⟩

theorem stabResolveFields_ok : ∀ (fields : List (Name × AstType)) {st : Stab}, st.Sound →
    fieldsWritten fields = true → ∃ l st', stabResolveFields st fields = .ok (l, st')
  | [], st, _, _ => ⟨[], st, rfl⟩
  | (name, type) :: fields, st, sound, written => by
      rw [fieldsWritten, Bool.and_eq_true] at written
      obtain ⟨i, st₁, inner⟩ := stabResolveType_ok type sound written.1
      have sound₁ := (stabResolveType_steps type 0 sound inner).1.sound sound
      obtain ⟨l, st₂, more⟩ := stabResolveFields_ok fields sound₁ written.2
      refine ⟨(name, i) :: l, st₂, ?_⟩
      simp only [stabResolveFields, except_bind_eq_ok]
      exact ⟨(i, st₁), inner, (l, st₂), more, rfl⟩

end

theorem Below.stabType_eq_none {st : Stab} {i : Int} (below : Below st.types.length i) :
    stabType st i = none ↔ i = resolveFailure := by
  rcases below with rfl | ⟨low, high⟩
  · exact iff_of_true rfl rfl
  · obtain ⟨t, found⟩ := exists_arenaGet low high
    have found : stabType st i = some t := found
    rw [found]
    unfold resolveFailure
    exact iff_of_false (Option.some_ne_none t) (by omega)

theorem stabResolveType_eq_none {t : AstType} {st st' : Stab} {i : Index} (sound : st.Sound)
    (found : stabResolveType st t = .ok (i, st')) :
    stabType st' i = none ↔ ∃ name, t = .ref name ∧ stabResolveTypeName st name = resolveFailure := by
  -- only an undeclared name resolves to no type
  rw [(stabResolveType_steps t 0 sound found).2.stabType_eq_none]
  have pushed : ∀ n : Nat, ((n : Int) = resolveFailure ↔
      ∃ name, t = .ref name ∧ stabResolveTypeName st name = resolveFailure) ↔ ∀ name, t = .ref name →
        stabResolveTypeName st name ≠ resolveFailure := by
    intro n
    have fresh : (n : Int) ≠ resolveFailure := by
      unfold resolveFailure
      omega
    simp [fresh]
  cases t with
  | ref name =>
    cases found
    simp
  | boolean | char | integer | real | string | void =>
    cases found
    apply iff_of_false
    · decide
    · rintro ⟨name, same, -⟩
      cases same
  | pointer target =>
    simp only [stabResolveType, except_bind_eq_ok] at found
    obtain ⟨⟨p, st₁⟩, -, found⟩ := found
    cases found
    exact (pushed _).mpr fun name same => by cases same
  | record fields =>
    simp only [stabResolveType, except_bind_eq_ok] at found
    obtain ⟨⟨l, st₁⟩, -, found⟩ := found
    cases found
    exact (pushed _).mpr fun name same => by cases same
  | array lower upper elt =>
    simp only [stabResolveType, except_bind_eq_ok] at found
    obtain ⟨⟨e, st₁⟩, -, found⟩ := found
    dsimp only at found
    split at found
    · cases found
    · cases found
      exact (pushed _).mpr fun name same => by cases same

theorem stabResolveRetty_standard {retty : Option AstType}
    (standard : retty.all AstType.standard = true) (st : Stab) :
    ∃ i : Int, stabResolveRetty st retty = .ok (i, st) ∧ 0 ≤ i ∧ i < 6 := by
  cases retty with
  | none => exact ⟨_, rfl, by decide, by decide⟩
  | some type => exact stabResolveType_standard standard st

theorem stabResolveFormals_ok {formals : List (Name × AstType)} {st : Stab} (sound : st.Sound)
    (written : ∀ formal ∈ formals, formal.2.written = true) :
    ∃ ids st', stabResolveFormals st formals = .ok (ids, st') := by
  induction formals generalizing st with
  | nil => exact ⟨[], st, rfl⟩
  | cons formal formals ih =>
    obtain ⟨name, type⟩ := formal
    rw [List.forall_mem_cons] at written
    obtain ⟨t, st₁, inner⟩ := stabResolveType_ok type sound written.1
    obtain ⟨steps, below⟩ := stabResolveType_steps type 0 sound inner
    have added : StabStep (st₁, 0) ((st₁.pushVar ⟨t, name, -1, -1, false⟩).2.insertVar name st₁.vars.length, 0) :=
      .addVar below
    obtain ⟨rest, st₂, more⟩ := ih (added.sound (steps.sound sound)) written.2
    refine ⟨st₁.vars.length :: rest, st₂, ?_⟩
    simp only [stabResolveFormals, except_bind_eq_ok]
    exact ⟨(t, st₁), inner, (rest, st₂), more, rfl⟩

theorem stabResolveSig_ok {sig : AstSig} {st : Stab} (sound : st.Sound) (written : sig.written = true) :
    ∃ i st', stabResolveSig st sig = .ok (i, st') := by
  have formalsWritten := AstSig.written_formals written
  rw [AstSig.written, Bool.and_eq_true] at written
  obtain ⟨retty, result, -, -⟩ := stabResolveRetty_standard written.2 st
  obtain ⟨args, st₂, formals⟩ := stabResolveFormals_ok sound formalsWritten
  have resolved : stabResolveSig st sig =
      .ok (st₂.pushType ⟨.func sig.type args retty, abiClosureSize, none⟩) := by
    simp only [stabResolveSig, except_bind_eq_ok]
    exact ⟨(retty, st), result, (args, st₂), formals, rfl⟩
  exact ⟨_, _, resolved⟩

/-! ## Declarations -/

theorem reported_stabAddVar {st : Stab} {name : Name} {type : Index} {off : Int} {up : Bool} :
    Reported (stabAddVar st name type off up) ↔ stabType st type ≠ none := by
  unfold stabAddVar
  split
  next missing => simp [missing]
  next t found => simp [found]

/-- The variables of a declaration get a type, or the first of them is rejected before. -/
def AstDecls.Typed (d : AstDecls) (st : Stab) : Prop :=
  ∀ name, d.type = .ref name → stabResolveTypeName st name = resolveFailure →
    ∀ var ∈ d.names.head?, stabHasLocalVar st var = true

theorem reported_stabAddNames_of_type {names : List Name} {type : Index} {up : Bool} {st : Stab}
    {off : Int} {t : StabType} (found : stabType st type = some t) :
    Reported (stabAddNames st type up names off) := by
  induction names generalizing st off with
  | nil => exact reported_ok _
  | cons var names ih =>
    rw [stabAddNames]
    split
    next => exact reported_error.mpr trivial
    next =>
      refine reported_bind.mpr ⟨reported_stabAddVar.mpr (by simp [found]), ?_⟩
      intro r added
      obtain ⟨id, off', st'⟩ := r
      exact ih (stabType_mono (stabAddVar_steps 0 added).grows.types found)

theorem reported_stabAddNames {names : List Name} {type : Index} {up : Bool} {st : Stab} {off : Int} :
    Reported (stabAddNames st type up names off) ↔
      (stabType st type = none → ∀ var ∈ names.head?, stabHasLocalVar st var = true) := by
  cases found : stabType st type with
  | some t => exact iff_of_true (reported_stabAddNames_of_type found) (fun missing => by cases missing)
  | none =>
    cases names with
    | nil => simp [stabAddNames]
    | cons var names =>
      rw [stabAddNames]
      split
      next rejected => simp [rejected]
      next fresh =>
        have missing : ¬ Reported (stabAddVar st var type off up) := by
          rw [reported_stabAddVar, found]
          exact not_not_intro rfl
        simp [reported_bind, missing, fresh]

theorem reported_stabAddDecls {d : AstDecls} {st : Stab} {off : Int} {up : Bool} (sound : st.Sound)
    (written : d.written = true) : Reported (stabAddDecls st d off up) ↔ d.Typed st := by
  obtain ⟨i, st₁, resolved⟩ := stabResolveType_ok d.type sound written
  have scopes := stabResolveType_scopes d.type resolved
  have local_ : ∀ var, stabHasLocalVar st₁ var = stabHasLocalVar st var := by
    intro var
    unfold stabHasLocalVar
    rw [scopes.innermost]
  rw [stabAddDecls, resolved]
  change Reported (stabAddNames st₁ i up d.names off) ↔ _
  rw [reported_stabAddNames, stabResolveType_eq_none sound resolved]
  simp only [local_, AstDecls.Typed, forall_exists_index, and_imp]

/-- A type is declared under a name that is still there, or refused. -/
def AstTypeDecl.Named (t : AstTypeDecl) (st : Stab) : Prop :=
  t.type.isComplex = true ∨ stabHasLocalType st t.name = true

theorem reported_stabAddType {st : Stab} {t : AstTypeDecl} (sound : st.Sound)
    (written : t.type.written = true) : Reported (stabAddType st t.name t.type) ↔ t.Named st := by
  obtain ⟨i, st₁, resolved⟩ := stabResolveType_ok t.type sound written
  unfold stabAddType AstTypeDecl.Named
  by_cases known : stabHasLocalType st t.name = true
  · rw [if_pos known]
    exact iff_of_true (reported_error.mpr trivial) (.inr known)
  · rw [if_neg known, or_iff_left known, resolved]
    change Reported (if t.type.isComplex = true then Except.ok (st₁.insertType t.name i)
      else .error .undefined) ↔ _
    split
    next complex => exact iff_of_true (reported_ok _) complex
    next simple => exact iff_of_false (mt reported_error.mp Stop.not_reported_undefined) simple

theorem reported_stabAddFunc {st : Stab} {name : Name} {sig : AstSig} (sound : st.Sound)
    (written : sig.written = true) : Reported (stabAddFunc st name sig) := by
  obtain ⟨i, st₁, resolved⟩ := stabResolveSig_ok sound written
  unfold stabAddFunc
  split
  next => exact reported_error.mpr trivial
  next =>
    rw [resolved]
    exact reported_ok _

/-! ## Comparison -/

def StabResolvedType.isPointer : StabResolvedType → Bool
  | .pointer _ => true
  | _ => false

theorem exists_of_isPointer {ty : StabResolvedType} (pointer : ty.isPointer = true) :
    ∃ target, ty = .pointer target := by
  cases ty with
  | pointer target => exact ⟨target, rfl⟩
  | _ => cases pointer

/-- Through pointers on both sides the comparison of two types comes to two types that are declared
and not both void. -/
inductive Comparable (st : Stab) : Index → Index → Prop where
  | pointers {a b p q : Index} {t u : StabType} (left : stabType st a = some t)
      (right : stabType st b = some u) (first : t.ty = .pointer p) (second : u.ty = .pointer q)
      (targets : Comparable st p q) : Comparable st a b
  | others {a b : Index} {t u : StabType} (left : stabType st a = some t)
      (right : stabType st b = some u) (pointer : ¬ (t.ty.isPointer = true ∧ u.ty.isPointer = true))
      (void : ¬ (t.ty = .void ∧ u.ty = .void)) : Comparable st a b

theorem Comparable.targets_iff {st : Stab} {a b p q : Index} {t u : StabType}
    (left : stabType st a = some t) (right : stabType st b = some u) (first : t.ty = .pointer p)
    (second : u.ty = .pointer q) : Comparable st a b ↔ Comparable st p q := by
  constructor
  · intro comparable
    cases comparable with
    | pointers left' right' first' second' targets =>
      cases left.symm.trans left'
      cases right.symm.trans right'
      cases first.symm.trans first'
      cases second.symm.trans second'
      exact targets
    | others left' right' pointer =>
      cases left.symm.trans left'
      cases right.symm.trans right'
      rw [first, second] at pointer
      exact absurd ⟨rfl, rfl⟩ pointer
  · exact .pointers left right first second

theorem Comparable.not_void {st : Stab} {a b : Index} {t u : StabType} (left : stabType st a = some t)
    (right : stabType st b = some u) (void : t.ty = .void ∧ u.ty = .void) : ¬ Comparable st a b := by
  intro comparable
  cases comparable with
  | pointers left' right' first =>
    cases left.symm.trans left'
    rw [void.1] at first
    cases first
  | others left' right' _ other =>
    cases left.symm.trans left'
    cases right.symm.trans right'
    exact other void

theorem Comparable.declared {st : Stab} {a b : Index} (comparable : Comparable st a b) :
    (∃ t, stabType st a = some t) ∧ ∃ u, stabType st b = some u := by
  cases comparable with
  | pointers left right => exact ⟨⟨_, left⟩, _, right⟩
  | others left right => exact ⟨⟨_, left⟩, _, right⟩

-- The pointers followed get older, so the fuel is enough.
theorem reported_stabTypesEqFuel {st : Stab} (sound : st.Sound) {fuel : Nat} {a b : Int}
    (enough : a < fuel) : Reported (stabTypesEqFuel st fuel a b) ↔ Comparable st a b := by
  have missing : ∀ {a b : Int}, (stabType st a = none ∨ stabType st b = none) → ¬ Comparable st a b := by
    intro a b none_ comparable
    obtain ⟨⟨t, left⟩, u, right⟩ := comparable.declared
    rw [left, right] at none_
    rcases none_ with none_ | none_ <;> cases none_
  induction fuel generalizing a b with
  | zero =>
    have negative : stabType st a = none := if_neg (Int.not_le.mpr enough)
    exact iff_of_false (by simp [stabTypesEqFuel]) (missing (.inl negative))
  | succ fuel ih =>
    rw [stabTypesEqFuel]
    cases left : stabType st a with
    | none => exact iff_of_false (by simp) (missing (.inl left))
    | some t =>
      cases right : stabType st b with
      | none => exact iff_of_false (by simp) (missing (.inr right))
      | some u =>
        dsimp only
        split
        case h_1 first second | h_2 first second | h_3 first second | h_4 first second
          | h_5 first second | h_6 first second | h_7 first second | h_8 first second =>
          apply iff_of_true (reported_ok _)
          apply Comparable.others left right
          · simp [first, StabResolvedType.isPointer]
          · simp [first]
        case h_9 p q first second =>
          have older := sound.target_older left first
          rw [Comparable.targets_iff left right first second]
          exact ih (Int.lt_of_lt_of_le older (Int.le_of_lt_add_one enough))
        case h_10 first second =>
          exact iff_of_false (by simp) (Comparable.not_void left right ⟨first, second⟩)
        case h_11 _ _ _ _ _ _ _ _ pointers voids =>
          apply iff_of_true (reported_ok _)
          apply Comparable.others left right
          · rintro ⟨first, second⟩
            obtain ⟨p, shape⟩ := exists_of_isPointer first
            obtain ⟨q, shape'⟩ := exists_of_isPointer second
            exact pointers p q shape shape'
          · exact fun void => voids void.1 void.2

theorem reported_stabTypesEq {st : Stab} (sound : st.Sound) {a b : Int} :
    Reported (stabTypesEq st a b) ↔ Comparable st a b := by
  cases found : stabType st a with
  | some t => exact reported_stabTypesEqFuel sound (Int.lt_add_one_of_le (Int.le_of_lt (arenaGet_lt found).2))
  | none =>
    apply iff_of_false
    · simp [stabTypesEq, stabTypesEqFuel, found]
    · intro comparable
      obtain ⟨⟨t, declared⟩, -⟩ := comparable.declared
      cases found.symm.trans declared

end Dragon
