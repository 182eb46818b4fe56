import Dragon.Codegen.Declarations
import Mathlib.Algebra.Order.BigOperators.Group.List

/-! The size of a type: the one stab_resolve_type records, which the frame layout uses, and the
one size_of_type gives to the record offsets.

An array loses one element, the size of a record is never set, and size_of_type
has constants for both. Scalars and pointers are right in all three.
-/

set_option autoImplicit false

namespace Dragon

open Analysis Stab

/-! ## Array types with ordered bounds -/

mutual

/-- No array inside has a lower bound above its upper bound. -/
def AstType.Ordered : AstType → Prop
  | .array lower upper eltType => atoi lower ≤ atoi upper ∧ eltType.Ordered
  | .pointer target => target.Ordered
  | .record fields => FieldsOrdered fields
  | .ref _ | .boolean | .char | .integer | .real | .string | .void => True

def FieldsOrdered : List (Name × AstType) → Prop
  | [] => True
  | (_, type) :: fields => type.Ordered ∧ FieldsOrdered fields

end

/-- The size of an array entry is computed from that of its elements, one element short. -/
def TypeSized (types : List StabType) (t : StabType) : Prop :=
  ∀ lower upper elt, t.ty = .array lower upper elt → lower ≤ upper ∧
    ∃ u, arenaGet types elt = some u ∧ t.size = u.size * (upper - lower)

def Sized (types : List StabType) : Prop := ∀ t ∈ types, TypeSized types t

theorem sized_stabNew : Sized stabNew.types := by
  intro t member lower upper elt array
  have basic := not_isCompound_of_builtin member
  rw [array] at basic
  cases basic

theorem TypeSized.mono {types types' : List StabType} {t : StabType} (sized : TypeSized types t)
    (more : types <+: types') : TypeSized types' t := by
  intro lower upper elt array
  obtain ⟨le, u, found, size⟩ := sized lower upper elt array
  refine ⟨le, u, ?_, size⟩
  have before : stabType ⟨[], types, stabScopeNew, []⟩ elt = some u := found
  exact @stabType_mono _ ⟨[], types', stabScopeNew, []⟩ more elt u before

theorem Sized.push {types : List StabType} {t : StabType} (sized : Sized types)
    (one : TypeSized types t) : Sized (types ++ [t]) := by
  intro u member
  rcases List.mem_append.mp member with old | fresh
  · exact (sized u old).mono (List.prefix_append _ _)
  · rw [List.mem_singleton.mp fresh]
    exact one.mono (List.prefix_append _ _)

mutual

theorem stabResolveType_sized : ∀ (T : AstType) {st st' : Stab} {i : Index}, T.Ordered →
    Sized st.types → stabResolveType st T = .ok (i, st') → Sized st'.types
  | .ref _, _, _, _, _, sized, found | .integer, _, _, _, _, sized, found
  | .real, _, _, _, _, sized, found | .string, _, _, _, _, sized, found
  | .boolean, _, _, _, _, sized, found | .char, _, _, _, _, sized, found
  | .void, _, _, _, _, sized, found => by
      cases found
      exact sized
  | .pointer target, st, st', i, ordered, sized, found => by
      rw [AstType.Ordered] at ordered
      simp only [stabResolveType, except_bind_eq_ok] at found
      obtain ⟨⟨t, st₁⟩, inner, found⟩ := found
      cases found
      exact (stabResolveType_sized target ordered sized inner).push fun _ _ _ array => by cases array
  | .record fields, st, st', i, ordered, sized, found => by
      rw [AstType.Ordered] at ordered
      simp only [stabResolveType, except_bind_eq_ok] at found
      obtain ⟨⟨l, st₁⟩, inner, found⟩ := found
      cases found
      exact (stabResolveFields_sized fields ordered sized inner).push fun _ _ _ array => by cases array
  | .array lower upper elt, st, st', i, ordered, sized, found => by
      rw [AstType.Ordered] at ordered
      simp only [stabResolveType, except_bind_eq_ok] at found
      obtain ⟨⟨t, st₁⟩, inner, found⟩ := found
      dsimp only at found
      split at found
      · cases found
      next u here =>
        cases found
        apply (stabResolveType_sized elt ordered.2 sized inner).push
        intro l h e array
        cases array
        exact ⟨ordered.1, u, here, rfl⟩

theorem stabResolveFields_sized : ∀ (fields : List (Name × AstType)) {st st' : Stab}
    {l : List (Name × Index)}, FieldsOrdered fields → Sized st.types →
      stabResolveFields st fields = .ok (l, st') → Sized st'.types
  | [], _, _, _, _, sized, found => by
      cases found
      exact sized
  | (name, type) :: fields, st, st', l, ordered, sized, found => by
      rw [FieldsOrdered] at ordered
      simp only [stabResolveFields, except_bind_eq_ok] at found
      obtain ⟨⟨t, st₁⟩, inner, ⟨rest, st₂⟩, more, found⟩ := found
      cases found
      exact stabResolveFields_sized fields ordered.2 (stabResolveType_sized type ordered.1 sized inner)
        more

end

theorem sized_kept : Kept AstType.Ordered (fun st => Sized st.types) fun _ => True where
  resolve := fun T _ _ _ ordered _ sized found => ⟨stabResolveType_sized T ordered sized found, trivial⟩
  func := by
    intro st t func sized
    apply Sized.push sized
    intro lower upper elt array
    rw [array] at func
    cases func
  name := fun _ _ _ _ sized => sized
  enter := fun _ sized => sized
  leave := by
    intro st st' left sized
    obtain ⟨sc, rest, -, rfl⟩ := stabLeave_eq_ok.mp left
    exact sized
  same := fun _ _ types _ sized => types ▸ sized

/-! ## The natural size -/

def scalarBytes : StabResolvedType → Option Int
  | .integer | .real | .string => some 8
  | .boolean | .char => some 1
  | .array .. | .func .. | .pointer _ | .record _ | .void => none

/-- The size of the values of a type. -/
inductive NaturalSize (st : Stab) : Index → Int → Prop where
  | scalar {i : Index} {t : StabType} {n : Int} (found : stabType st i = some t)
      (scalar : scalarBytes t.ty = some n) : NaturalSize st i n
  | pointer {i target : Index} {t : StabType} (found : stabType st i = some t)
      (pointer : t.ty = .pointer target) : NaturalSize st i 8
  | array {i elt : Index} {t : StabType} {lower upper n : Int} (found : stabType st i = some t)
      (array : t.ty = .array lower upper elt) (each : NaturalSize st elt n) :
      NaturalSize st i ((upper - lower + 1) * n)
  | record {i : Index} {t : StabType} {fields : List (Name × Index)} {size : Name × Index → Int}
      (found : stabType st i = some t) (record : t.ty = .record fields)
      (each : ∀ f ∈ fields, NaturalSize st f.2 (size f)) :
      NaturalSize st i (fields.map size).sum

def StabResolvedType.isRecord : StabResolvedType → Bool
  | .record _ => true
  | _ => false

/-- The recorded size is the natural one, or at least that for a record, and size_of_type gives the
recorded size. -/
def SizesRight (st : Stab) (i : Index) : Prop :=
  ∃ t n, stabType st i = some t ∧ NaturalSize st i n ∧
    (if t.ty.isRecord then n ≤ t.size else t.size = n) ∧ sizeOfType t = t.size

/-! ## The sizes of the entries -/

theorem Stab.Sound.size_scalar {st : Stab} (sound : st.Sound) {i : Index} {t : StabType} {n : Int}
    (found : stabType st i = some t) (scalar : scalarBytes t.ty = some n) :
    t.size = n ∧ sizeOfType t = n ∧ 0 ≤ n := by
  rcases sound.types i.toNat t (arenaGet_eq_some.mp found).2 with builtin | made
  · have basic := List.mem_of_getElem? builtin
    simp only [stabNew, List.mem_cons, List.not_mem_nil, or_false] at basic
    rcases basic with rfl | rfl | rfl | rfl | rfl | rfl <;> cases scalar <;> decide
  · cases made <;> cases scalar

theorem Stab.Sound.size_pointer {st : Stab} (sound : st.Sound) {i target : Index} {t : StabType}
    (found : stabType st i = some t) (pointer : t.ty = .pointer target) :
    t.size = 8 ∧ sizeOfType t = 8 := by
  cases sound.madeAt (arenaGet_eq_some.mp found).2 (by rw [pointer]; rfl) with
  | pointer => exact ⟨rfl, rfl⟩
  | _ => cases pointer

theorem Stab.Sound.size_record {st : Stab} (sound : st.Sound) {i : Index} {t : StabType}
    {fields : List (Name × Index)} (found : stabType st i = some t) (record : t.ty = .record fields) :
    t.size = 0 := by
  cases sound.madeAt (arenaGet_eq_some.mp found).2 (by rw [record]; rfl) with
  | record => rfl
  | _ => cases record

theorem NaturalSize.declared {st : Stab} {i : Index} {n : Int} (natural : NaturalSize st i n) :
    ∃ t, stabType st i = some t := by
  cases natural with
  | scalar found | pointer found | array found | record found => exact ⟨_, found⟩

theorem NaturalSize.recorded_le {st : Stab} (sound : st.Sound) (sized : Sized st.types) {i : Index}
    {n : Int} (natural : NaturalSize st i n) {t : StabType} (found : stabType st i = some t) :
    0 ≤ t.size ∧ t.size ≤ n := by
  induction natural generalizing t with
  | scalar found' scalar =>
    cases found.symm.trans found'
    obtain ⟨size, -, low⟩ := sound.size_scalar found scalar
    omega
  | pointer found' pointer =>
    cases found.symm.trans found'
    obtain ⟨size, -⟩ := sound.size_pointer found pointer
    omega
  | @array i elt t' lower upper n found' array each ih =>
    obtain rfl : t = t' := Option.some.inj (found.symm.trans found')
    obtain ⟨le, u, here, size⟩ :=
      sized t (List.mem_of_getElem? (arenaGet_eq_some.mp found).2) _ _ _ array
    obtain ⟨low, high⟩ := ih here
    rw [size]
    have span : 0 ≤ upper - lower := by omega
    constructor
    · exact Int.mul_nonneg low span
    · calc u.size * (upper - lower) ≤ n * (upper - lower) := Int.mul_le_mul_of_nonneg_right high span
        _ ≤ n * (upper - lower + 1) := Int.mul_le_mul_of_nonneg_left (by omega) (by omega)
        _ = (upper - lower + 1) * n := Int.mul_comm ..
  | @record i u fields size found' record each ih =>
    cases found.symm.trans found'
    rw [sound.size_record found record]
    refine ⟨Int.le_refl 0, ?_⟩
    apply List.sum_nonneg
    intro m member
    obtain ⟨f, field, rfl⟩ := List.mem_map.mp member
    -- the size of a field is at least the one recorded for it
    obtain ⟨v, here⟩ := (each f field).declared
    have bounds := ih f field here
    omega

def StabResolvedType.isFlat : StabResolvedType → Bool
  | .boolean | .char | .integer | .real | .string | .pointer _ => true
  | .array .. | .func .. | .record _ | .void => false

theorem sizesRight_iff_isFlat {st : Stab} (sound : st.Sound) (sized : Sized st.types) (i : Index) :
    SizesRight st i ↔ ∃ t, stabType st i = some t ∧ t.ty.isFlat = true := by
  constructor
  · rintro ⟨t, n, found, natural, recorded, offset⟩
    refine ⟨t, found, ?_⟩
    cases natural with
    | scalar found' scalar =>
      cases found.symm.trans found'
      generalize t.ty = ty at scalar
      cases ty <;> first | rfl | cases scalar
    | pointer found' pointer =>
      cases found.symm.trans found'
      rw [pointer]
      rfl
    | @array _ elt t' lower upper m found' array each =>
      obtain rfl : t = t' := Option.some.inj (found.symm.trans found')
      rw [array] at recorded
      rw [sizeOfType, array] at offset
      dsimp only [StabResolvedType.isRecord] at recorded offset
      obtain ⟨le, u, here, size⟩ :=
        sized t (List.mem_of_getElem? (arenaGet_eq_some.mp found).2) _ _ _ array
      obtain ⟨low, high⟩ := each.recorded_le sound sized here
      -- a recorded size of 8 leaves no room for one more element
      have eight : u.size * (upper - lower) = 8 := by omega
      have more : (upper - lower + 1) * m = 8 := by simp at recorded; omega
      have positive : 0 < u.size := by
        rcases Int.lt_or_eq_of_le low with positive | zero
        · exact positive
        · rw [← zero, Int.zero_mul] at eight
          cases eight
      have span : 0 ≤ upper - lower := by omega
      have below : u.size * (upper - lower) ≤ m * (upper - lower) :=
        Int.mul_le_mul_of_nonneg_right high span
      have split : (upper - lower + 1) * m = m * (upper - lower) + m := by
        rw [Int.add_mul, Int.one_mul, Int.mul_comm]
      omega
    | record found' record =>
      cases found.symm.trans found'
      rw [sizeOfType, record, sound.size_record found record] at offset
      cases offset
  · rintro ⟨t, found, flat⟩
    have scalar : ∀ n, scalarBytes t.ty = some n → SizesRight st i := by
      intro n scalar
      obtain ⟨size, offset, -⟩ := sound.size_scalar found scalar
      refine ⟨t, n, found, .scalar found scalar, ?_, offset.trans size.symm⟩
      split
      · exact Int.le_of_eq size.symm
      · exact size
    cases shape : t.ty with
    | boolean | char | integer | real | string => exact scalar _ (by rw [shape]; rfl)
    | pointer target =>
      obtain ⟨size, offset⟩ := sound.size_pointer found shape
      refine ⟨t, 8, found, .pointer found shape, ?_, offset.trans size.symm⟩
      rw [shape]
      exact size
    | array | func | record | void =>
      rw [shape] at flat
      cases flat

/-! ## The sizes of a type -/

/-- A scalar, a pointer, or a name of one. -/
def AstType.Flat (st : Stab) : AstType → Prop
  | .boolean | .char | .integer | .real | .string | .pointer _ => True
  | .ref name => ∃ t, stabType st (stabResolveTypeName st name) = some t ∧ t.ty.isFlat = true
  | .array .. | .record _ | .void => False

theorem stabResolveType_isFlat {T : AstType} {st st' : Stab} {i : Index} (sound : st.Sound)
    (found : stabResolveType st T = .ok (i, st')) :
    (∃ t, stabType st' i = some t ∧ t.ty.isFlat = true) ↔ T.Flat st := by
  have only : ∀ {st' : Stab} {i : Index} {t : StabType}, stabType st' i = some t →
      ((∃ u, stabType st' i = some u ∧ u.ty.isFlat = true) ↔ t.ty.isFlat = true) := by
    intro st' i t here
    simp [here]
  have builtin : ∀ (i : Index) {t : StabType}, stabType stabNew i = some t → stabType st i = some t :=
    fun i t basic => stabType_mono sound.builtin basic
  cases T with
  | ref name =>
    cases found
    exact Iff.rfl
  | boolean | char | integer | real | string =>
    cases found
    exact (only (builtin _ rfl)).trans (iff_of_true rfl trivial)
  | void =>
    cases found
    have void : stabType st voidTypeIdx = some ⟨.void, 4, none⟩ := builtin _ rfl
    exact (only void).trans (iff_of_false Bool.false_ne_true id)
  | pointer target =>
    simp only [stabResolveType, except_bind_eq_ok] at found
    obtain ⟨⟨t, st₁⟩, -, found⟩ := found
    cases found
    exact (only (stabType_pushType ..)).trans (iff_of_true rfl trivial)
  | record fields =>
    simp only [stabResolveType, except_bind_eq_ok] at found
    obtain ⟨⟨l, st₁⟩, -, found⟩ := found
    cases found
    exact (only (stabType_pushType ..)).trans (iff_of_false Bool.false_ne_true id)
  | array lower upper elt =>
    simp only [stabResolveType, except_bind_eq_ok] at found
    obtain ⟨⟨e, st₁⟩, -, found⟩ := found
    dsimp only at found
    split at found
    · cases found
    · cases found
      exact (only (stabType_pushType ..)).trans (iff_of_false Bool.false_ne_true id)

/-- Wherever a run is, the sizes of a type are right exactly when it is a scalar, a pointer or a
name of one. -/
theorem sizesRight_iff (ds rest : List Declaration) (s : Stab × Int) (T : AstType) (i : Index)
    (st' : Stab) (passes : Passes (fun e _ => e.Each AstType.Ordered) ds (stabNew, 0) rest s)
    (ordered : T.Ordered) (resolved : stabResolveType s.1 T = .ok (i, st')) :
    SizesRight st' i ↔ T.Flat s.1 := by
  have sound : s.1.Sound := passes.sound sound_stabNew
  have sound' := (stabResolveType_steps T s.2 sound resolved).1.sound sound
  have sized' := stabResolveType_sized T ordered (passes.kept sized_kept sound_stabNew sized_stabNew) resolved
  rw [sizesRight_iff_isFlat sound' sized', stabResolveType_isFlat sound resolved]

-- array[1..10] of integer
def tenIntegers : AstType := .array "1" "10" .integer

-- The table of ^array[1..10] of integer.
def pointerToTen : Stab :=
  ((stabNew.pushType ⟨.array 1 10 integerTypeIdx, 72, none⟩).2.pushType
    ⟨.pointer 6, abiPointerSize, none⟩).2

theorem tenIntegers_ordered : tenIntegers.Ordered := ⟨by decide +kernel, trivial⟩

theorem pointerToTen_sizesRight : SizesRight pointerToTen 7 := by
  apply (sizesRight_iff [] [] (stabNew, 0) (.pointer tenIntegers) 7 pointerToTen .here
    tenIntegers_ordered ?_).mpr trivial
  rfl

-- The array has 80 bytes, of which 72 are recorded, and size_of_type says 8.
theorem not_forall_sizesRight : ¬ ∀ (T : AstType) (i : Index) (st' : Stab), T.Ordered →
    NamesDeclared stabNew T.names → stabResolveType stabNew T = .ok (i, st') → SizesRight st' i := by
  intro always
  have resolved : stabResolveType stabNew tenIntegers =
      .ok (stabNew.pushType ⟨.array 1 10 integerTypeIdx, 72, none⟩) := rfl
  obtain ⟨t, n, found, -, -, offset⟩ := always tenIntegers _ _ tenIntegers_ordered
    (fun n member => absurd member List.not_mem_nil) resolved
  cases (stabType_pushType ..).symm.trans found
  revert offset
  decide

end Dragon
