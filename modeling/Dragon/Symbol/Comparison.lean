import Dragon.Symbol.Usable

/-! stab_types_eq as a relation between indices.

The comparison is structural through pointers, by tag for the basic types, by
bounds and element index for arrays, and by index for functions and records.
The targets of pointers are older, so it ends; where nothing points to void and
no two voids are compared it returns.
-/

set_option autoImplicit false

namespace Dragon

open Stab

def StabResolvedType.isBasic : StabResolvedType → Bool
  | .boolean | .char | .integer | .real | .string => true
  | .array .. | .func .. | .pointer _ | .record _ | .void => false

def StabResolvedType.isOwn : StabResolvedType → Bool
  | .func .. | .record _ => true
  | .array .. | .boolean | .char | .integer | .pointer _ | .real | .string | .void => false

inductive SameType (st : Stab) : Index → Index → Prop where
  | basic {a b : Index} {t u : StabType} (left : stabType st a = some t)
      (right : stabType st b = some u) (basic : t.ty.isBasic = true) (same : u.ty = t.ty) :
      SameType st a b
  | array {a b elt : Index} {t u : StabType} {lower upper : Int} (left : stabType st a = some t)
      (right : stabType st b = some u) (first : t.ty = .array lower upper elt)
      (second : u.ty = .array lower upper elt) : SameType st a b
  | own {a : Index} {t : StabType} (found : stabType st a = some t) (own : t.ty.isOwn = true) :
      SameType st a a
  | pointers {a b p q : Index} {t u : StabType} (left : stabType st a = some t)
      (right : stabType st b = some u) (first : t.ty = .pointer p) (second : u.ty = .pointer q)
      (targets : SameType st p q) : SameType st a b

namespace SameType

variable {st : Stab} {a b c : Index}

theorem symm (same : SameType st a b) : SameType st b a := by
  induction same with
  | basic left right basic same => exact .basic right left (same ▸ basic) same.symm
  | array left right first second => exact .array right left second first
  | own found own => exact .own found own
  | pointers left right first second _ ih => exact .pointers right left second first ih

theorem trans (first : SameType st a b) (second : SameType st b c) : SameType st a c := by
  induction first generalizing c with
  | @basic a b t u left right basic same =>
    cases second with
    | basic left' right' _ same' =>
      cases right.symm.trans left'
      exact .basic left right' basic (same'.trans same)
    | array left' _ shape | pointers left' _ shape =>
      cases right.symm.trans left'
      rw [← same, shape] at basic
      cases basic
    | own => exact .basic left right basic same
  | @array a b elt t u lower upper left right first second =>
    cases second with
    | basic left' _ basic =>
      cases right.symm.trans left'
      rw [second] at basic
      cases basic
    | array left' right' first' second' =>
      cases right.symm.trans left'
      cases second.symm.trans first'
      exact .array left right' first second'
    | own => exact .array left right first second
    | pointers left' _ shape =>
      cases right.symm.trans left'
      cases second.symm.trans shape
  | own => exact second
  | @pointers a b p q t u left right first second targets ih =>
    cases second with
    | basic left' _ basic =>
      cases right.symm.trans left'
      rw [second] at basic
      cases basic
    | array left' _ shape =>
      cases right.symm.trans left'
      cases second.symm.trans shape
    | own => exact .pointers left right first second targets
    | pointers left' right' first' second' targets' =>
      cases right.symm.trans left'
      cases second.symm.trans first'
      exact .pointers left right' first second' (ih targets')

end SameType

theorem sameType_of_stabTypesEqFuel {st : Stab} {fuel : Nat} {a b : Index}
    (same : stabTypesEqFuel st fuel a b = .ok true) : SameType st a b := by
  induction fuel generalizing a b with
  | zero => cases same
  | succ fuel ih =>
    rw [stabTypesEqFuel] at same
    cases left : stabType st a with
    | none =>
      rw [left] at same
      cases same
    | some t =>
      cases right : stabType st b with
      | none =>
        rw [left, right] at same
        cases same
      | some u =>
        rw [left, right] at same
        dsimp only at same
        split at same
        case h_1 first second | h_2 first second | h_3 first second | h_4 first second
          | h_5 first second =>
          exact .basic left right (by rw [first]; rfl) (second.trans first.symm)
        case h_6 first second =>
          simp only [Except.ok.injEq, decide_eq_true_eq] at same
          obtain ⟨rfl, rfl, rfl⟩ := same
          exact .array left right first second
        case h_7 first second | h_8 first second =>
          simp only [Except.ok.injEq, decide_eq_true_eq] at same
          subst same
          exact .own left (by rw [first]; rfl)
        case h_9 first second => exact .pointers left right first second (ih same)
        case h_10 => cases same
        case h_11 => cases same

-- The pointers followed get older, so the fuel is enough.
theorem stabTypesEqFuel_of_sameType {st : Stab} (sound : st.Sound) {a b : Index}
    (same : SameType st a b) {fuel : Nat} (enough : (a : Int) < fuel) :
    stabTypesEqFuel st fuel a b = .ok true := by
  induction fuel generalizing a b with
  | zero =>
    have negative : stabType st a = none := if_neg (Int.not_le.mpr enough)
    cases same with
    | basic left | array left | own left | pointers left => cases negative.symm.trans left
  | succ fuel ih =>
    cases same with
    | @basic _ _ t u left right basic same =>
      rw [stabTypesEqFuel, left, right]
      dsimp only
      rw [same]
      generalize t.ty = ty at basic
      cases ty with
      | boolean | char | integer | real | string => rfl
      | array | func | pointer | record | void => cases basic
    | array left right first second =>
      rw [stabTypesEqFuel, left, right]
      dsimp only
      rw [first, second]
      simp
    | @own _ t found own =>
      rw [stabTypesEqFuel, found]
      dsimp only
      generalize t.ty = ty at own
      cases ty with
      | func | record => simp
      | array | boolean | char | integer | pointer | real | string | void => cases own
    | pointers left right first second targets =>
      have older := sound.target_older left first
      rw [stabTypesEqFuel, left, right]
      dsimp only
      rw [first, second]
      exact ih targets (Int.lt_of_lt_of_le older (Int.le_of_lt_add_one enough))

theorem stabTypesEq_eq_true {st : Stab} (sound : st.Sound) {a b : Index} :
    stabTypesEq st a b = .ok true ↔ SameType st a b := by
  constructor
  · exact sameType_of_stabTypesEqFuel
  · intro same
    apply stabTypesEqFuel_of_sameType sound same
    cases same with
    | basic left | array left | own left | pointers left =>
      exact Int.lt_add_one_of_le (Int.le_of_lt (arenaGet_lt left).2)

theorem stabTypesEqFuel_not_reported {st : Stab} {fuel : Nat} {a b : Index} {s : Stop}
    (stopped : stabTypesEqFuel st fuel a b = .error s) : ¬ s.Reported := by
  induction fuel generalizing a b with
  | zero =>
    cases stopped
    exact id
  | succ fuel ih =>
    rw [stabTypesEqFuel] at stopped
    split at stopped
    · split at stopped
      case h_9 => exact ih stopped
      case h_10 =>
        cases stopped
        exact id
      all_goals cases stopped
    · cases stopped
      exact id

theorem Comparable.returns {st : Stab} (sound : st.Sound) {a b : Index}
    (comparable : Comparable st a b) : ∃ r, stabTypesEq st a b = .ok r := by
  cases result : stabTypesEq st a b with
  | ok r => exact ⟨r, rfl⟩
  | error s =>
    have reported := (reported_stabTypesEq sound).mpr comparable s result
    exact absurd reported (stabTypesEqFuel_not_reported result)

/-! ## Tables in which nothing points to void -/

namespace Stab

structure NoVoid (st : Stab) : Prop where
  targets : ∀ t ∈ st.types, ∀ p, t.ty = .pointer p → p ≠ voidTypeIdx
  typeNames : ∀ sc ∈ st.chain, ∀ n, sc.types.lookup n ≠ voidTypeIdx

theorem builtin_void {k : Nat} {t : StabType} (builtin : stabNew.types[k]? = some t)
    (void : t.ty = .void) : k = 5 := by
  rcases k with _ | _ | _ | _ | _ | _ | k
  case succ.succ.succ.succ.succ.zero => rfl
  all_goals cases builtin <;> cases void

theorem Sound.made {st : Stab} (sound : st.Sound) {k : Nat} {t : StabType}
    (here : st.types[k]? = some t) :
    stabNew.types[k]? = some t ∨ 6 ≤ k ∧ TypeMade k st.vars.length t := by
  by_cases basic : k < 6
  · left
    obtain ⟨rest, same⟩ := sound.builtin
    rw [← same, List.getElem?_append_left basic] at here
    exact here
  · rcases sound.types k t here with builtin | made
    · exact .inl builtin
    · exact .inr ⟨by omega, made⟩

theorem Sound.void {st : Stab} (sound : st.Sound) {i : Index} {t : StabType}
    (found : stabType st i = some t) (void : t.ty = .void) : i = voidTypeIdx := by
  -- the only void is the built-in one
  obtain ⟨low, here⟩ := arenaGet_eq_some.mp found
  rcases sound.made here with builtin | ⟨-, made⟩
  · exact (Int.toNat_of_nonneg low).symm.trans (congrArg Int.ofNat (builtin_void builtin void))
  · cases made <;> cases void

theorem Sound.index_older {st : Stab} (sound : st.Sound) (clean : st.Clean) {i : Index} {t : StabType}
    (found : stabType st i = some t) {j : Index} (held : j ∈ t.ty.indices) : 0 ≤ j ∧ j < i := by
  obtain ⟨low, here⟩ := arenaGet_eq_some.mp found
  have resolved := clean.types t (List.mem_of_getElem? here) j held
  have position := Int.toNat_of_nonneg low
  have older : ∀ {k : Index}, Below i.toNat k → k ≠ resolveFailure → 0 ≤ k ∧ k < i := by
    intro k below resolved
    rcases below with failed | ⟨nonneg, less⟩
    · exact absurd failed resolved
    · exact ⟨nonneg, position ▸ less⟩
  rcases sound.made here with builtin | ⟨after, made⟩
  · have basic := List.mem_of_getElem? builtin
    simp only [stabNew, List.mem_cons, List.not_mem_nil, or_false] at basic
    rcases basic with rfl | rfl | rfl | rfl | rfl | rfl <;> cases held
  · cases made with
    | pointer below =>
      rw [List.mem_singleton.mp held] at resolved ⊢
      exact older below resolved
    | record below =>
      obtain ⟨f, field, rfl⟩ := List.mem_map.mp held
      exact older (below f field) resolved
    | array below =>
      rw [List.mem_singleton.mp held]
      exact ⟨below.1, position ▸ below.2⟩
    | func _ below =>
      rw [List.mem_singleton.mp held] at resolved ⊢
      exact older below resolved
    | magic =>
      rw [List.mem_singleton.mp held]
      have positive : 0 < i.toNat := by omega
      exact ⟨Int.le_refl 0, position ▸ Int.ofNat_lt.mpr positive⟩

theorem NoVoid.comparable {st : Stab} (none : st.NoVoid) (sound : st.Sound) (clean : st.Clean)
    {fuel : Nat} {a b : Index} (enough : (a : Int) < fuel) (left : st.Inside a) (right : st.Inside b)
    (void : ¬ (a = voidTypeIdx ∧ b = voidTypeIdx)) : Comparable st a b := by
  induction fuel generalizing a b with
  | zero => exact absurd left.1 (Int.not_le.mpr enough)
  | succ fuel ih =>
    obtain ⟨t, first⟩ := exists_arenaGet left.1 left.2
    obtain ⟨u, second⟩ := exists_arenaGet right.1 right.2
    by_cases pointers : t.ty.isPointer = true ∧ u.ty.isPointer = true
    · obtain ⟨p, shape⟩ := exists_of_isPointer pointers.1
      obtain ⟨q, shape'⟩ := exists_of_isPointer pointers.2
      apply Comparable.pointers first second shape shape'
      have older := sound.index_older clean first (j := p) (by rw [shape]; exact List.mem_singleton_self p)
      have older' := sound.index_older clean second (j := q) (by rw [shape']; exact List.mem_singleton_self q)
      have target := none.targets t (List.mem_of_getElem? (arenaGet_eq_some.mp first).2) p shape
      apply ih
      · exact Int.lt_of_lt_of_le older.2 (Int.le_of_lt_add_one enough)
      · exact ⟨older.1, Int.lt_trans older.2 left.2⟩
      · exact ⟨older'.1, Int.lt_trans older'.2 right.2⟩
      · exact fun both => target both.1
    · apply Comparable.others first second pointers
      exact fun both => void ⟨sound.void first both.1, sound.void second both.2⟩

end Stab

/-! ## An equivalence -/

/-- What the comparison of types is to be: it goes down in the table and ends, and apart from void
it is an equivalence, structural for pointers and arrays and by index for records and functions. -/
structure ComparisonRight (st : Stab) : Prop where
  older : ∀ i t, stabType st i = some t → ∀ j ∈ t.ty.indices, 0 ≤ j ∧ j < i
  ends : ∀ a b, st.Inside a → st.Inside b → (∃ r, stabTypesEq st a b = .ok r) ∨
    a = voidTypeIdx ∧ b = voidTypeIdx ∧ stabTypesEq st a b = .error .abort
  refl : ∀ a, st.Inside a → a ≠ voidTypeIdx → stabTypesEq st a a = .ok true
  symm : ∀ a b, stabTypesEq st a b = .ok true → stabTypesEq st b a = .ok true
  trans : ∀ a b c, stabTypesEq st a b = .ok true → stabTypesEq st b c = .ok true →
    stabTypesEq st a c = .ok true
  pointers : ∀ a b t u p q, stabType st a = some t → stabType st b = some u → t.ty = .pointer p →
    u.ty = .pointer q → (stabTypesEq st a b = .ok true ↔ stabTypesEq st p q = .ok true)
  arrays : ∀ a b t u lower upper elt lower' upper' elt', stabType st a = some t →
    stabType st b = some u → t.ty = .array lower upper elt → u.ty = .array lower' upper' elt' →
    (stabTypesEq st a b = .ok true ↔ lower = lower' ∧ upper = upper' ∧ elt = elt')
  own : ∀ a b t u, stabType st a = some t → stabType st b = some u → t.ty.isOwn = true →
    u.ty.isOwn = true → a ≠ b → stabTypesEq st a b = .ok false

theorem stabTypesEq_void_void {st : Stab} (sound : st.Sound) :
    stabTypesEq st voidTypeIdx voidTypeIdx = .error .abort := by
  unfold stabTypesEq stabTypesEqFuel
  rw [sound.voidEntry]

theorem SameType.targets_iff {st : Stab} {a b p q : Index} {t u : StabType}
    (left : stabType st a = some t) (right : stabType st b = some u) (first : t.ty = .pointer p)
    (second : u.ty = .pointer q) : SameType st a b ↔ SameType st p q := by
  constructor
  · intro same
    cases same with
    | basic left' _ basic =>
      cases left.symm.trans left'
      rw [first] at basic
      cases basic
    | array left' _ shape =>
      cases left.symm.trans left'
      cases first.symm.trans shape
    | own found own =>
      cases left.symm.trans found
      rw [first] at own
      cases own
    | pointers left' right' first' second' targets =>
      cases left.symm.trans left'
      cases right.symm.trans right'
      cases first.symm.trans first'
      cases second.symm.trans second'
      exact targets
  · exact .pointers left right first second

theorem SameType.bounds_iff {st : Stab} {a b elt elt' : Index} {t u : StabType}
    {lower upper lower' upper' : Int} (left : stabType st a = some t) (right : stabType st b = some u)
    (first : t.ty = .array lower upper elt) (second : u.ty = .array lower' upper' elt') :
    SameType st a b ↔ lower = lower' ∧ upper = upper' ∧ elt = elt' := by
  constructor
  · intro same
    cases same with
    | basic left' _ basic =>
      cases left.symm.trans left'
      rw [first] at basic
      cases basic
    | array left' right' first' second' =>
      cases left.symm.trans left'
      cases right.symm.trans right'
      cases first.symm.trans first'
      cases second.symm.trans second'
      exact ⟨rfl, rfl, rfl⟩
    | own found own =>
      cases left.symm.trans found
      rw [first] at own
      cases own
    | pointers left' _ shape =>
      cases left.symm.trans left'
      cases first.symm.trans shape
  · rintro ⟨rfl, rfl, rfl⟩
    exact .array left right first second

theorem Comparable.sameType {st : Stab} {a b : Index} (comparable : Comparable st a b) (same : a = b) :
    SameType st a b := by
  induction comparable with
  | pointers left right first second _ ih =>
    subst same
    cases left.symm.trans right
    cases first.symm.trans second
    exact .pointers left right first first (ih rfl)
  | @others a b t u left right pointer void =>
    subst same
    cases left.symm.trans right
    cases shape : t.ty with
    | boolean | char | integer | real | string => exact .basic left left (by rw [shape]; rfl) rfl
    | array lower upper elt => exact .array left left shape shape
    | func | record => exact .own left (by rw [shape]; rfl)
    | pointer target =>
      rw [shape] at pointer
      exact absurd ⟨rfl, rfl⟩ pointer
    | void => exact absurd ⟨shape, shape⟩ void

theorem stabTypesEq_own {st : Stab} {a b : Index} {t u : StabType} (left : stabType st a = some t)
    (right : stabType st b = some u) (first : t.ty.isOwn = true) (second : u.ty.isOwn = true)
    (ne : a ≠ b) : stabTypesEq st a b = .ok false := by
  unfold stabTypesEq stabTypesEqFuel
  rw [left, right]
  dsimp only
  generalize t.ty = ty at first
  generalize u.ty = ty' at second
  cases ty with
  | func | record =>
    cases ty' with
    | func | record => simp [ne]
    | array | boolean | char | integer | pointer | real | string | void => cases second
  | array | boolean | char | integer | pointer | real | string | void => cases first

theorem Stab.NoVoid.comparisonRight {st : Stab} (none : st.NoVoid) (sound : st.Sound)
    (clean : st.Clean) : ComparisonRight st where
  older := fun i t found j held => sound.index_older clean found held
  ends := by
    intro a b left right
    by_cases void : a = voidTypeIdx ∧ b = voidTypeIdx
    · obtain ⟨rfl, rfl⟩ := void
      exact .inr ⟨rfl, rfl, stabTypesEq_void_void sound⟩
    · left
      exact (none.comparable sound clean left.2 left right void).returns sound
  refl := by
    intro a inside void
    apply (stabTypesEq_eq_true sound).mpr
    have comparable := none.comparable sound clean inside.2 inside inside fun both => void both.1
    exact comparable.sameType rfl
  symm := by
    intro a b
    rw [stabTypesEq_eq_true sound, stabTypesEq_eq_true sound]
    exact SameType.symm
  trans := by
    intro a b c
    rw [stabTypesEq_eq_true sound, stabTypesEq_eq_true sound, stabTypesEq_eq_true sound]
    exact SameType.trans
  pointers := by
    intro a b t u p q left right first second
    rw [stabTypesEq_eq_true sound, stabTypesEq_eq_true sound]
    exact SameType.targets_iff left right first second
  arrays := by
    intro a b t u lower upper elt lower' upper' elt' left right first second
    rw [stabTypesEq_eq_true sound]
    exact SameType.bounds_iff left right first second
  own := fun a b t u left right first second ne => stabTypesEq_own left right first second ne

/-! ## Twins -/

theorem SameType.comparable {st : Stab} {a b : Index} (same : SameType st a b) : Comparable st a b := by
  induction same with
  | @basic a b t u left right basic same =>
    apply Comparable.others left right
    · rintro ⟨pointer, -⟩
      obtain ⟨p, shape⟩ := exists_of_isPointer pointer
      rw [shape] at basic
      cases basic
    · rintro ⟨void, -⟩
      rw [void] at basic
      cases basic
  | array left right first second =>
    apply Comparable.others left right
    · simp [first, StabResolvedType.isPointer]
    · simp [first]
  | @own a t found own =>
    apply Comparable.others found found
    · rintro ⟨pointer, -⟩
      obtain ⟨p, shape⟩ := exists_of_isPointer pointer
      rw [shape] at own
      cases own
    · rintro ⟨void, -⟩
      rw [void] at own
      cases own
  | pointers left right first second _ ih => exact .pointers left right first second ih

theorem stabTypesEq_congr {st st' : Stab} (types : st'.types = st.types) (a b : Index) :
    stabTypesEq st' a b = stabTypesEq st a b := by
  have entry : ∀ i, stabType st' i = stabType st i := by
    intro i
    unfold stabType
    rw [types]
  have fuelled : ∀ fuel a b, stabTypesEqFuel st' fuel a b = stabTypesEqFuel st fuel a b := by
    intro fuel
    induction fuel with
    | zero => exact fun _ _ => rfl
    | succ fuel ih =>
      intro a b
      simp only [stabTypesEqFuel, entry, ih]
  unfold stabTypesEq
  rw [types, fuelled]

theorem Stab.Sound.basic_unique {st : Stab} (sound : st.Sound) {a b : Index} {t u : StabType}
    (left : stabType st a = some t) (right : stabType st b = some u) (basic : t.ty.isBasic = true)
    (same : u.ty = t.ty) : a = b := by
  have builtin : ∀ {i : Index} {v : StabType}, stabType st i = some v → v.ty.isBasic = true →
      stabNew.types[i.toNat]? = some v ∧ i.toNat < 6 ∧ (i.toNat : Int) = i := by
    intro i v found basic
    obtain ⟨low, here⟩ := arenaGet_eq_some.mp found
    rcases sound.made here with builtin | ⟨-, made⟩
    · exact ⟨builtin, (List.getElem?_eq_some_iff.mp builtin).1, Int.toNat_of_nonneg low⟩
    · cases made <;> cases basic
  have tags : ∀ k < 6, ∀ j < 6, stabNew.types[k]?.map StabType.ty = stabNew.types[j]?.map StabType.ty →
      k = j := by decide
  obtain ⟨first, small, position⟩ := builtin left basic
  obtain ⟨second, small', position'⟩ := builtin right (same ▸ basic)
  have equal := tags a.toNat small b.toNat small' (by rw [first, second, Option.map_some, Option.map_some, same])
  rw [← position, ← position', equal]

/-- Two entries for one array type, or for pointers to one type or to twins. -/
inductive Twins (st : Stab) : Index → Index → Prop where
  | arrays {a b elt : Index} {t u : StabType} {lower upper : Int} (left : stabType st a = some t)
      (right : stabType st b = some u) (first : t.ty = .array lower upper elt)
      (second : u.ty = .array lower upper elt) (ne : a ≠ b) : Twins st a b
  | pointers {a b p : Index} {t u : StabType} (left : stabType st a = some t)
      (right : stabType st b = some u) (first : t.ty = .pointer p) (second : u.ty = .pointer p)
      (target : Comparable st p p) (ne : a ≠ b) : Twins st a b
  | deeper {a b p q : Index} {t u : StabType} (left : stabType st a = some t)
      (right : stabType st b = some u) (first : t.ty = .pointer p) (second : u.ty = .pointer q)
      (targets : Twins st p q) : Twins st a b

theorem Twins.ne {st : Stab} {a b : Index} (twins : Twins st a b) : a ≠ b := by
  induction twins with
  | arrays _ _ _ _ ne => exact ne
  | pointers _ _ _ _ _ ne => exact ne
  | deeper left right first second _ ih =>
    rintro rfl
    cases left.symm.trans right
    cases first.symm.trans second
    exact ih rfl

theorem twins_iff {st : Stab} (sound : st.Sound) {a b : Index} :
    Twins st a b ↔ SameType st a b ∧ a ≠ b := by
  constructor
  · intro twins
    refine ⟨?_, twins.ne⟩
    induction twins with
    | arrays left right first second => exact .array left right first second
    | pointers left right first second target =>
      exact .pointers left right first second (target.sameType rfl)
    | deeper left right first second _ ih => exact .pointers left right first second ih
  · rintro ⟨same, ne⟩
    induction same with
    | basic left right basic same => exact absurd (sound.basic_unique left right basic same) ne
    | array left right first second => exact .arrays left right first second ne
    | own => exact absurd rfl ne
    | @pointers a b p q t u left right first second targets ih =>
      by_cases one : p = q
      · subst one
        exact .pointers left right first second targets.comparable ne
      · exact .deeper left right first second (ih one)

end Dragon
