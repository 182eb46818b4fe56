import Dragon.Symbol.Scopes
import Mathlib.Logic.Relation

/-! The steps by which a symbol table changes, and what every table keeps.

A table is taken together with the number of display slots given out. The
functions of symbol.c and the capture of a variable are sequences of these
steps, so an invariant is proved once for each step.
-/

set_option autoImplicit false

namespace Dragon

open Stab

def Below (n : Nat) (i : Int) : Prop := i = resolveFailure ∨ (0 ≤ i ∧ i < n)

theorem Below.mono {n m : Nat} {i : Int} (below : Below n i) (le : n ≤ m) : Below m i := by
  rcases below with failed | ⟨low, high⟩
  · exact .inl failed
  · exact .inr ⟨low, by omega⟩

/-- The types symbol.c adds to a table of n types and m variables. -/
inductive TypeMade (n m : Nat) : StabType → Prop where
  | pointer {target : Index} (older : Below n target) :
      TypeMade n m ⟨.pointer target, abiPointerSize, none⟩
  | record {fields : List (Name × Index)} (older : ∀ f ∈ fields, Below n f.2) :
      TypeMade n m ⟨.record fields, 0, none⟩
  | array {lower upper elt size : Int} (older : 0 ≤ elt ∧ elt < n) :
      TypeMade n m ⟨.array lower upper elt, size, none⟩
  | func {type : Subprogs} {args : List Int} {retty : Index}
      (added : ∀ a ∈ args, 0 ≤ a ∧ a < m) (older : Below n retty) :
      TypeMade n m ⟨.func type args retty, abiClosureSize, none⟩
  | magic {which : Magic} : TypeMade n m ⟨.func .function [] 0, 0, some which⟩

def StabResolvedType.isFunc : StabResolvedType → Bool
  | .func .. => true
  | _ => false

inductive StabStep : Stab × Int → Stab × Int → Prop where
  | enter {st : Stab} {d : Int} : StabStep (st, d) (stabEnter st, d)
  | leave {st st' : Stab} {d : Int} (left : stabLeave st = .ok st') : StabStep (st, d) (st', d)
  | pushType {st : Stab} {d : Int} {t : StabType} (made : TypeMade st.types.length st.vars.length t) :
      StabStep (st, d) ((st.pushType t).2, d)
  | addVar {st : Stab} {d off : Int} {type : Index} {name : Name}
      (resolved : Below st.types.length type) :
      StabStep (st, d) ((st.pushVar ⟨type, name, -1, off, false⟩).2.insertVar name st.vars.length, d)
  | insertFunc {st : Stab} {d : Int} {name : Name} {id : Index} {t : StabType}
      (found : stabType st id = some t) (func : t.ty.isFunc = true) :
      StabStep (st, d) (st.insertFunc name id, d)
  | insertType {st : Stab} {d : Int} {name : Name} {id : Index}
      (resolved : Below st.types.length id) : StabStep (st, d) (st.insertType name id, d)
  | capture {st : Stab} {d : Int} {idx : Index} {v : StabVar} (found : stabVar st idx = some v)
      (free : v.captured = false) :
      StabStep (st, d) (st.setVar idx { v with captured := true, dispOffset := d }, d + 1)

abbrev StabSteps : Stab × Int → Stab × Int → Prop := Relation.ReflTransGen StabStep

-- What every step preserves, every sequence of steps preserves.
theorem StabSteps.preserves {P : Stab × Int → Prop} (step : ∀ s t, StabStep s t → P s → P t)
    {s t : Stab × Int} (steps : StabSteps s t) (start : P s) : P t := by
  induction steps with
  | refl => exact start
  | tail _ last ih => exact step _ _ last ih

/-! ## Growth -/

/-- The arenas grow, and types do not change. -/
structure Grows (st st' : Stab) : Prop where
  types : st.types <+: st'.types
  vars : st.vars.length ≤ st'.vars.length

theorem StabStep.grows {s t : Stab × Int} (step : StabStep s t) : Grows s.1 t.1 := by
  cases step with
  | enter => exact ⟨List.prefix_rfl, Nat.le_refl _⟩
  | leave left =>
    obtain ⟨sc, rest, -, rfl⟩ := stabLeave_eq_ok.mp left
    exact ⟨List.prefix_rfl, Nat.le_refl _⟩
  | pushType _ => exact ⟨List.prefix_append _ _, Nat.le_refl _⟩
  | addVar _ =>
    refine ⟨List.prefix_rfl, ?_⟩
    simp [insertVar, pushVar]
  | insertFunc _ _ => exact ⟨List.prefix_rfl, Nat.le_refl _⟩
  | insertType _ => exact ⟨List.prefix_rfl, Nat.le_refl _⟩
  | capture _ _ =>
    refine ⟨List.prefix_rfl, ?_⟩
    simp [setVar]

theorem StabSteps.grows {s t : Stab × Int} (steps : StabSteps s t) : Grows s.1 t.1 := by
  induction steps with
  | refl => exact ⟨List.prefix_rfl, Nat.le_refl _⟩
  | tail _ last ih =>
    exact ⟨ih.types.trans last.grows.types, Nat.le_trans ih.vars last.grows.vars⟩

theorem Grows.typesLength {st st' : Stab} (grows : Grows st st') :
    st.types.length ≤ st'.types.length := grows.types.length_le

/-! ## The invariant -/

/-- An entry of the type arena refers to older types only. -/
def TypeWell (m i : Nat) (t : StabType) : Prop := stabNew.types[i]? = some t ∨ TypeMade i m t

namespace Stab

/-- What holds of every table: each index it holds is one of an entry, or is RESOLVE_FAILURE where
the index of a type name is kept. -/
structure Sound (st : Stab) : Prop where
  types : ∀ (i : Nat) (t : StabType), st.types[i]? = some t → TypeWell st.vars.length i t
  vars : ∀ v ∈ st.vars, Below st.types.length v.type
  typeNames : ∀ sc ∈ st.chain, ∀ n, Below st.types.length (sc.types.lookup n)
  varNames : ∀ sc ∈ st.chain, ∀ n, sc.vars.lookup n = resolveFailure ∨
    ∃ v, stabVar st (sc.vars.lookup n) = some v ∧ v.name = n
  funcNames : ∀ sc ∈ st.chain, ∀ n, sc.funcs.lookup n = resolveFailure ∨
    ∃ t, stabType st (sc.funcs.lookup n) = some t ∧ t.ty.isFunc = true
  builtin : stabNew.types <+: st.types

end Stab

theorem TypeMade.mono {n m n' m' : Nat} {t : StabType} (made : TypeMade n m t) (le : n ≤ n')
    (le' : m ≤ m') : TypeMade n' m' t := by
  cases made with
  | pointer older => exact .pointer (older.mono le)
  | record older => exact .record fun f member => (older f member).mono le
  | array older => exact .array ⟨older.1, by omega⟩
  | func added older =>
    refine .func ?_ (older.mono le)
    intro a member
    have bounds := added a member
    exact ⟨bounds.1, by omega⟩
  | magic => exact .magic

theorem Stab.sound_stabNew : stabNew.Sound where
  types := fun i t found => .inl found
  vars := by simp [stabNew]
  typeNames := by
    intro sc member n
    rw [List.mem_singleton.mp member]
    exact .inl (NameTable.lookup_empty n)
  varNames := by
    intro sc member n
    rw [List.mem_singleton.mp member]
    exact .inl (NameTable.lookup_empty n)
  funcNames := by
    intro sc member n
    rw [List.mem_singleton.mp member]
    exact .inl (NameTable.lookup_empty n)
  builtin := List.prefix_rfl

def StabResolvedType.isCompound : StabResolvedType → Bool
  | .array .. | .func .. | .pointer _ | .record _ => true
  | .boolean | .char | .integer | .real | .string | .void => false

theorem not_isCompound_of_builtin {t : StabType} (member : t ∈ stabNew.types) :
    t.ty.isCompound = false := by
  simp only [stabNew, List.mem_cons, List.not_mem_nil, or_false] at member
  rcases member with rfl | rfl | rfl | rfl | rfl | rfl <;> rfl

theorem Stab.Sound.madeAt {st : Stab} (sound : st.Sound) {k : Nat} {t : StabType}
    (here : st.types[k]? = some t) (compound : t.ty.isCompound = true) :
    TypeMade k st.vars.length t := by
  -- an entry that is not built in has been made from older ones
  rcases sound.types k t here with builtin | made
  · rw [not_isCompound_of_builtin (List.mem_of_getElem? builtin)] at compound
    cases compound
  · exact made

theorem Stab.Sound.voidEntry {st : Stab} (sound : st.Sound) :
    stabType st voidTypeIdx = some ⟨.void, 4, none⟩ :=
  @stabType_mono stabNew st sound.builtin voidTypeIdx _ rfl

theorem Stab.Sound.field_older {st : Stab} (sound : st.Sound) {i : Int} {t : StabType}
    {fields : List (Name × Index)} (found : stabType st i = some t) (record : t.ty = .record fields)
    {f : Name × Index} (member : f ∈ fields) :
    f.2 = resolveFailure ∨ (0 ≤ (f.2 : Int) ∧ (f.2 : Int) < i) := by
  obtain ⟨low, here⟩ := arenaGet_eq_some.mp found
  cases sound.madeAt here (by rw [record]; rfl) with
  | record older =>
    cases record
    rcases older f member with failed | ⟨nonneg, less⟩
    · exact .inl failed
    · exact .inr ⟨nonneg, Int.lt_of_lt_of_le less (Int.le_of_eq (Int.toNat_of_nonneg low))⟩
  | _ => cases record

theorem varName_mono {st st' : Stab} (vars : ∀ (i : Nat) (v : StabVar), st.vars[i]? = some v →
      ∃ w, st'.vars[i]? = some w ∧ w.name = v.name) {i : Index} {n : Name}
    (bound : i = resolveFailure ∨ ∃ v, stabVar st i = some v ∧ v.name = n) :
    i = resolveFailure ∨ ∃ v, stabVar st' i = some v ∧ v.name = n := by
  rcases bound with failed | ⟨v, found, rfl⟩
  · exact .inl failed
  · obtain ⟨low, here⟩ := arenaGet_eq_some.mp found
    obtain ⟨w, there, same⟩ := vars _ v here
    exact .inr ⟨w, arenaGet_eq_some.mpr ⟨low, there⟩, same⟩

theorem stabStep_vars {s t : Stab × Int} (step : StabStep s t) (i : Nat) (v : StabVar)
    (found : s.1.vars[i]? = some v) :
    ∃ w, t.1.vars[i]? = some w ∧ w.name = v.name ∧ w.type = v.type ∧
      w.stackBaseOffset = v.stackBaseOffset := by
  cases step with
  | leave left =>
    obtain ⟨sc, rest, -, rfl⟩ := stabLeave_eq_ok.mp left
    exact ⟨v, found, rfl, rfl, rfl⟩
  | addVar _ =>
    refine ⟨v, ?_, rfl, rfl, rfl⟩
    simp only [insertVar, pushVar]
    rw [List.getElem?_append_left (List.getElem?_eq_some_iff.mp found).1]
    exact found
  | @capture st d idx w here free =>
    -- the updated entry keeps its name, type and place
    simp only [setVar, List.getElem?_set]
    split
    next same =>
      rw [← same, (arenaGet_eq_some.mp here).2] at found
      cases found
      have small := (List.getElem?_eq_some_iff.mp (arenaGet_eq_some.mp here).2).1
      rw [if_pos small]
      exact ⟨_, rfl, rfl, rfl, rfl⟩
    next => exact ⟨v, found, rfl, rfl, rfl⟩
  | _ => exact ⟨v, found, rfl, rfl, rfl⟩

theorem StabSteps.vars {s t : Stab × Int} (steps : StabSteps s t) {i : Index} {v : StabVar}
    (found : stabVar s.1 i = some v) :
    ∃ w, stabVar t.1 i = some w ∧ w.name = v.name ∧ w.type = v.type ∧
      w.stackBaseOffset = v.stackBaseOffset := by
  induction steps with
  | refl => exact ⟨v, found, rfl, rfl, rfl⟩
  | tail _ last ih =>
    obtain ⟨w, there, name, type, offset⟩ := ih
    obtain ⟨low, here⟩ := arenaGet_eq_some.mp there
    obtain ⟨u, later, name', type', offset'⟩ := stabStep_vars last _ w here
    exact ⟨u, arenaGet_eq_some.mpr ⟨low, later⟩, name'.trans name, type'.trans type,
      offset'.trans offset⟩

theorem StabStep.sound {s t : Stab × Int} (step : StabStep s t) (sound : s.1.Sound) :
    t.1.Sound := by
  have grows := step.grows
  have vars' : ∀ (i : Nat) (v : StabVar), s.1.vars[i]? = some v →
      ∃ w, t.1.vars[i]? = some w ∧ w.name = v.name := by
    intro i v found
    obtain ⟨w, here, same, -⟩ := stabStep_vars step i v found
    exact ⟨w, here, same⟩
  have typeNames' : ∀ {i : Index}, Below s.1.types.length i → Below t.1.types.length i :=
    fun below => below.mono grows.typesLength
  have funcNames' : ∀ {i : Index}, (i = resolveFailure ∨
      ∃ u, stabType s.1 i = some u ∧ u.ty.isFunc = true) →
        i = resolveFailure ∨ ∃ u, stabType t.1 i = some u ∧ u.ty.isFunc = true := by
    rintro i (failed | ⟨u, found, func⟩)
    · exact .inl failed
    · exact .inr ⟨u, stabType_mono grows.types found, func⟩
  have oldTypes : ∀ (i : Nat) (u : StabType), TypeWell s.1.vars.length i u →
      TypeWell t.1.vars.length i u := by
    rintro i u (builtin | made)
    · exact .inl builtin
    · exact .inr (made.mono (Nat.le_refl i) grows.vars)
  have builtin' := sound.builtin.trans grows.types
  cases step with
  | enter =>
    refine ⟨sound.types, sound.vars, ?_, ?_, ?_, builtin'⟩
    all_goals
      intro sc member n
      rcases List.mem_cons.mp member with rfl | member
    · exact .inl (NameTable.lookup_empty n)
    · exact sound.typeNames sc member n
    · exact .inl (NameTable.lookup_empty n)
    · exact sound.varNames sc member n
    · exact .inl (NameTable.lookup_empty n)
    · exact sound.funcNames sc member n
  | leave left =>
    obtain ⟨sc, rest, open_, rfl⟩ := stabLeave_eq_ok.mp left
    have inside : ∀ sc' ∈ sc :: rest, sc' ∈ Stab.chain _ := fun sc' member =>
      List.mem_cons_of_mem _ (open_ ▸ member)
    exact ⟨sound.types, sound.vars, fun sc' member => sound.typeNames sc' (inside sc' member),
      fun sc' member => sound.varNames sc' (inside sc' member),
      fun sc' member => sound.funcNames sc' (inside sc' member), builtin'⟩
  | @pushType st d u made =>
    refine ⟨?_, ?_, ?_, ?_, ?_, builtin'⟩
    · intro i w found
      simp only [Stab.pushType, List.getElem?_append] at found
      split at found
      · exact sound.types i w found
      next above =>
        have here : i = st.types.length := by
          have small := (List.getElem?_eq_some_iff.mp found).1
          rw [List.length_singleton] at small
          omega
        subst here
        rw [Nat.sub_self] at found
        cases found
        exact .inr made
    · exact fun v member => typeNames' (sound.vars v member)
    · exact fun sc member n => typeNames' (sound.typeNames sc member n)
    · exact fun sc member n => varName_mono vars' (sound.varNames sc member n)
    · exact fun sc member n => funcNames' (sound.funcNames sc member n)
  | @addVar st d off type name resolved =>
    refine ⟨?_, ?_, ?_, ?_, ?_, builtin'⟩
    · exact fun i u found => oldTypes i u (sound.types i u found)
    · intro v member
      rcases List.mem_append.mp member with member | member
      · exact sound.vars v member
      · rw [List.mem_singleton.mp member]
        exact resolved
    · intro sc member n
      rcases List.mem_cons.mp member with rfl | member
      · exact sound.typeNames st.innermost List.mem_cons_self n
      · exact sound.typeNames sc (List.mem_cons_of_mem _ member) n
    · intro sc member n
      rcases List.mem_cons.mp member with rfl | member
      · -- the new binding is the new variable
        simp only [insertVar, pushVar, NameTable.lookup_insert]
        split
        next same =>
          subst same
          refine .inr ⟨⟨type, n, -1, off, false⟩, ?_, rfl⟩
          apply arenaGet_eq_some.mpr
          refine ⟨Int.natCast_nonneg _, ?_⟩
          simp
        next => exact varName_mono vars' (sound.varNames st.innermost List.mem_cons_self n)
      · exact varName_mono vars' (sound.varNames sc (List.mem_cons_of_mem _ member) n)
    · intro sc member n
      rcases List.mem_cons.mp member with rfl | member
      · exact sound.funcNames st.innermost List.mem_cons_self n
      · exact sound.funcNames sc (List.mem_cons_of_mem _ member) n
  | @insertFunc st d name id u found func =>
    refine ⟨sound.types, sound.vars, ?_, ?_, ?_, builtin'⟩
    · intro sc member n
      rcases List.mem_cons.mp member with rfl | member
      · exact sound.typeNames st.innermost List.mem_cons_self n
      · exact sound.typeNames sc (List.mem_cons_of_mem _ member) n
    · intro sc member n
      rcases List.mem_cons.mp member with rfl | member
      · exact sound.varNames st.innermost List.mem_cons_self n
      · exact sound.varNames sc (List.mem_cons_of_mem _ member) n
    · intro sc member n
      rcases List.mem_cons.mp member with rfl | member
      · simp only [Stab.insertFunc, NameTable.lookup_insert]
        split
        · exact .inr ⟨u, found, func⟩
        · exact sound.funcNames st.innermost List.mem_cons_self n
      · exact sound.funcNames sc (List.mem_cons_of_mem _ member) n
  | @insertType st d name id resolved =>
    refine ⟨sound.types, sound.vars, ?_, ?_, ?_, builtin'⟩
    · intro sc member n
      rcases List.mem_cons.mp member with rfl | member
      · simp only [Stab.insertType, NameTable.lookup_insert]
        split
        · exact resolved
        · exact sound.typeNames st.innermost List.mem_cons_self n
      · exact sound.typeNames sc (List.mem_cons_of_mem _ member) n
    · intro sc member n
      rcases List.mem_cons.mp member with rfl | member
      · exact sound.varNames st.innermost List.mem_cons_self n
      · exact sound.varNames sc (List.mem_cons_of_mem _ member) n
    · intro sc member n
      rcases List.mem_cons.mp member with rfl | member
      · exact sound.funcNames st.innermost List.mem_cons_self n
      · exact sound.funcNames sc (List.mem_cons_of_mem _ member) n
  | @capture st d idx v found free =>
    refine ⟨?_, ?_, sound.typeNames, ?_, sound.funcNames, builtin'⟩
    · exact fun i u found => oldTypes i u (sound.types i u found)
    · intro w member
      rcases List.mem_or_eq_of_mem_set member with old | rfl
      · exact sound.vars w old
      · exact sound.vars v (List.mem_of_getElem? (arenaGet_eq_some.mp found).2)
    · exact fun sc member n => varName_mono vars' (sound.varNames sc member n)

theorem StabSteps.sound {s t : Stab × Int} (steps : StabSteps s t) (sound : s.1.Sound) :
    t.1.Sound :=
  StabSteps.preserves (P := fun s => s.1.Sound) (fun _ _ step => step.sound) steps sound

/-! ## The functions of symbol.c as steps -/

theorem resolveIn_cases {table : StabScope → NameTable} {n : Name} {chain : List StabScope}
    {P : Int → Prop} (failed : P resolveFailure) (each : ∀ sc ∈ chain, P ((table sc).lookup n)) :
    P (resolveIn table n chain) := by
  induction chain with
  | nil => exact failed
  | cons sc rest ih =>
    simp only [resolveIn]
    split
    · exact ih fun sc' member => each sc' (List.mem_cons_of_mem _ member)
    · exact each sc List.mem_cons_self

theorem Stab.Sound.resolveTypeName {st : Stab} (sound : st.Sound) (n : Name) :
    Below st.types.length (stabResolveTypeName st n) :=
  resolveIn_cases (.inl rfl) fun sc member => sound.typeNames sc member n

theorem Stab.Sound.resolveVar {st : Stab} (sound : st.Sound) (n : Name) :
    stabResolveVar st n = resolveFailure ∨ ∃ v, stabVar st (stabResolveVar st n) = some v := by
  apply @resolveIn_cases _ _ _ fun i => i = resolveFailure ∨ ∃ v, stabVar st i = some v
  · exact .inl rfl
  · intro sc member
    exact (sound.varNames sc member n).imp_right fun ⟨v, found, _⟩ => ⟨v, found⟩

theorem Stab.Sound.below_builtin {st : Stab} (sound : st.Sound) {i : Int} (low : 0 ≤ i)
    (high : i < 6) : Below st.types.length i := by
  have six : 6 ≤ st.types.length := sound.builtin.length_le
  exact .inr ⟨low, by omega⟩

theorem Below.of_stabType {st : Stab} {i : Int} {t : StabType} (found : stabType st i = some t) :
    Below st.types.length i := .inr (arenaGet_lt found)

theorem StabSteps.pushType (st : Stab) (d : Int) {t : StabType}
    (made : TypeMade st.types.length st.vars.length t) :
    StabSteps (st, d) ((st.pushType t).2, d) ∧
      Below (st.pushType t).2.types.length (st.pushType t).1 := by
  refine ⟨.single (.pushType made), .inr ⟨Int.natCast_nonneg _, ?_⟩⟩
  simp only [Stab.pushType, List.length_append, List.length_singleton]
  omega

mutual

theorem stabResolveType_steps : ∀ (t : AstType) {st st' : Stab} {i : Index} (d : Int),
    st.Sound → stabResolveType st t = .ok (i, st') →
      StabSteps (st, d) (st', d) ∧ Below st'.types.length i
  | .ref name, _, _, _, d, sound, found => by
      cases found
      exact ⟨.refl, sound.resolveTypeName name⟩
  | .integer, _, _, _, d, sound, found | .real, _, _, _, d, sound, found
  | .string, _, _, _, d, sound, found | .boolean, _, _, _, d, sound, found
  | .char, _, _, _, d, sound, found | .void, _, _, _, d, sound, found => by
      cases found
      exact ⟨.refl, sound.below_builtin (by decide) (by decide)⟩
  | .pointer target, st, st', i, d, sound, found => by
      simp only [stabResolveType, except_bind_eq_ok] at found
      obtain ⟨⟨t, st₁⟩, inner, found⟩ := found
      cases found
      obtain ⟨steps, below⟩ := stabResolveType_steps target d sound inner
      obtain ⟨last, result⟩ := StabSteps.pushType st₁ d (.pointer below)
      exact ⟨steps.trans last, result⟩
  | .record fields, st, st', i, d, sound, found => by
      simp only [stabResolveType, except_bind_eq_ok] at found
      obtain ⟨⟨fields', st₁⟩, inner, found⟩ := found
      cases found
      obtain ⟨steps, below⟩ := stabResolveFields_steps fields d sound inner
      obtain ⟨last, result⟩ := StabSteps.pushType st₁ d (.record below)
      exact ⟨steps.trans last, result⟩
  | .array lower upper elt, st, st', i, d, sound, found => by
      simp only [stabResolveType, except_bind_eq_ok] at found
      obtain ⟨⟨t, st₁⟩, inner, found⟩ := found
      obtain ⟨steps, below⟩ := stabResolveType_steps elt d sound inner
      dsimp only at found
      split at found
      · cases found
      next u here =>
        cases found
        have older := arenaGet_lt here
        have made : TypeMade st₁.types.length st₁.vars.length
            ⟨.array (atoi lower) (atoi upper) t, u.size * (atoi upper - atoi lower), none⟩ :=
          .array older
        obtain ⟨last, result⟩ := StabSteps.pushType st₁ d made
        exact ⟨steps.trans last, result⟩

theorem stabResolveFields_steps : ∀ (fields : List (Name × AstType)) {st st' : Stab}
    {l : List (Name × Index)} (d : Int), st.Sound → stabResolveFields st fields = .ok (l, st') →
      StabSteps (st, d) (st', d) ∧ ∀ f ∈ l, Below st'.types.length f.2
  | [], _, _, _, d, _, found => by
      cases found
      exact ⟨.refl, by simp⟩
  | (name, type) :: fields, st, st', l, d, sound, found => by
      simp only [stabResolveFields, except_bind_eq_ok] at found
      obtain ⟨⟨t, st₁⟩, inner, ⟨rest, st₂⟩, more, found⟩ := found
      cases found
      obtain ⟨steps, below⟩ := stabResolveType_steps type d sound inner
      obtain ⟨steps', each⟩ := stabResolveFields_steps fields d (steps.sound sound) more
      refine ⟨steps.trans steps', ?_⟩
      intro f member
      rcases List.mem_cons.mp member with rfl | member
      · exact below.mono steps'.grows.typesLength
      · exact each f member

end

theorem stabResolveRetty_steps {retty : Option AstType} {st st' : Stab} {i : Index} (d : Int)
    (sound : st.Sound) (found : stabResolveRetty st retty = .ok (i, st')) :
    StabSteps (st, d) (st', d) ∧ Below st'.types.length i := by
  cases retty with
  | none =>
    cases found
    exact ⟨.refl, sound.below_builtin (by decide) (by decide)⟩
  | some type => exact stabResolveType_steps type d sound found

theorem stabAddVar_steps {st st' : Stab} {name : Name} {type id : Index} {off off' : Int} {up : Bool}
    (d : Int) (added : stabAddVar st name type off up = .ok (id, off', st')) :
    StabSteps (st, d) (st', d) := by
  unfold stabAddVar at added
  split at added
  · cases added
  next t found =>
    cases added
    exact .single (.addVar (.of_stabType found))

theorem stabAddNames_steps {names : List Name} {type : Index} {up : Bool} {st st' : Stab}
    {off off' : Int} (d : Int) (added : stabAddNames st type up names off = .ok (off', st')) :
    StabSteps (st, d) (st', d) := by
  induction names generalizing st off with
  | nil =>
    cases added
    exact .refl
  | cons var names ih =>
    simp only [stabAddNames] at added
    split at added
    · cases added
    · simp only [except_bind_eq_ok] at added
      obtain ⟨⟨id, off₁, st₁⟩, first, rest⟩ := added
      exact (stabAddVar_steps d first).trans (ih rest)

theorem stabAddAllDecls_steps {decls : List AstDecls} {up : Bool} {st st' : Stab} {off off' : Int}
    (d : Int) (sound : st.Sound) (added : stabAddAllDecls st up decls off = .ok (off', st')) :
    StabSteps (st, d) (st', d) := by
  induction decls generalizing st off with
  | nil =>
    cases added
    exact .refl
  | cons decl decls ih =>
    simp only [stabAddAllDecls, stabAddDecls, except_bind_eq_ok] at added
    obtain ⟨⟨off₁, st₁⟩, ⟨⟨type, st₂⟩, resolved, first⟩, rest⟩ := added
    have steps : StabSteps (st, d) (st₁, d) :=
      (stabResolveType_steps decl.type d sound resolved).1.trans (stabAddNames_steps d first)
    exact steps.trans (ih (steps.sound sound) rest)

theorem stabAddType_steps {name : Name} {type : AstType} {st st' : Stab} (d : Int)
    (sound : st.Sound) (added : stabAddType st name type = .ok st') :
    StabSteps (st, d) (st', d) := by
  obtain ⟨-, -, id, st₁, resolved, rfl⟩ := stabAddType_eq_ok.mp added
  obtain ⟨steps, below⟩ := stabResolveType_steps type d sound resolved
  exact steps.tail (.insertType below)

theorem stabAddAllTypes_steps {types : List AstTypeDecl} {st st' : Stab} (d : Int)
    (sound : st.Sound) (added : stabAddAllTypes st types = .ok st') :
    StabSteps (st, d) (st', d) := by
  induction types generalizing st with
  | nil =>
    cases added
    exact .refl
  | cons t types ih =>
    simp only [stabAddAllTypes, except_bind_eq_ok] at added
    obtain ⟨st₁, first, rest⟩ := added
    have steps := stabAddType_steps d sound first
    exact steps.trans (ih (steps.sound sound) rest)

theorem stabResolveFormals_steps {formals : List (Name × AstType)} {st st' : Stab}
    {ids : List Index} (d : Int) (sound : st.Sound)
    (found : stabResolveFormals st formals = .ok (ids, st')) :
    StabSteps (st, d) (st', d) ∧ ∀ i ∈ ids, 0 ≤ i ∧ i < st'.vars.length := by
  induction formals generalizing st ids with
  | nil =>
    cases found
    exact ⟨.refl, by simp⟩
  | cons formal formals ih =>
    obtain ⟨name, type⟩ := formal
    simp only [stabResolveFormals, except_bind_eq_ok] at found
    obtain ⟨⟨t, st₁⟩, inner, ⟨rest, st₂⟩, more, found⟩ := found
    cases found
    obtain ⟨steps, below⟩ := stabResolveType_steps type d sound inner
    have added : StabSteps (st, d) ((stabAddVarNoOffset st₁ name t).2, d) :=
      steps.tail (.addVar below)
    obtain ⟨steps', each⟩ := ih (added.sound sound) more
    refine ⟨added.trans steps', ?_⟩
    intro i member
    rcases List.mem_cons.mp member with rfl | member
    · have grown := steps'.grows.vars
      simp only [stabAddVarNoOffset, insertVar, pushVar, List.length_append,
        List.length_singleton] at grown ⊢
      exact ⟨Int.natCast_nonneg _, Int.ofNat_lt.mpr grown⟩
    · exact each i member

theorem stabType_pushType (st : Stab) (t : StabType) :
    stabType (st.pushType t).2 (st.pushType t).1 = some t := by
  apply arenaGet_eq_some.mpr
  refine ⟨Int.natCast_nonneg _, ?_⟩
  simp [Stab.pushType]

theorem stabResolveSig_steps {sig : AstSig} {st st' : Stab} {i : Index} (d : Int)
    (sound : st.Sound) (found : stabResolveSig st sig = .ok (i, st')) :
    StabSteps (st, d) (st', d) ∧ ∃ t, stabType st' i = some t ∧ t.ty.isFunc = true := by
  simp only [stabResolveSig, except_bind_eq_ok] at found
  obtain ⟨⟨retty, st₁⟩, result, ⟨args, st₂⟩, formals, found⟩ := found
  cases found
  obtain ⟨steps, below⟩ := stabResolveRetty_steps d sound result
  obtain ⟨steps', each⟩ := stabResolveFormals_steps d (steps.sound sound) formals
  exact ⟨(steps.trans steps').tail (.pushType (.func each (below.mono steps'.grows.typesLength))),
    _, stabType_pushType .., rfl⟩

theorem stabAddFunc_steps {name : Name} {sig : AstSig} {st st' : Stab} (d : Int)
    (sound : st.Sound) (added : stabAddFunc st name sig = .ok st') :
    StabSteps (st, d) (st', d) := by
  obtain ⟨-, type, st₁, resolved, rfl⟩ := stabAddFunc_eq_ok.mp added
  obtain ⟨steps, t, found, func⟩ := stabResolveSig_steps d sound resolved
  exact steps.tail (.insertFunc found func)

theorem stabAddMagicFunc_steps (st : Stab) (which : Magic) (d : Int) :
    StabSteps (st, d) (stabAddMagicFunc st which, d) := by
  have made : TypeMade st.types.length st.vars.length ⟨.func .function [] 0, 0, some which⟩ := .magic
  have steps := (StabSteps.pushType st d made).1
  exact steps.tail (.insertFunc (stabType_pushType ..) rfl)

end Dragon
