import Dragon.Codegen.Declarations
import Dragon.Symbol.Comparison

/-! The comparison of types in the tables that declarations build.

The grammar has no type void, so no pointer and no type name comes to stand for
it. Declarations of such types that mention declared type names leave a table
in which stab_types_eq is an equivalence.
-/

set_option autoImplicit false

namespace Dragon

open Analysis Stab

theorem Stab.NoVoid.push {st : Stab} {t : StabType} (noVoid : st.NoVoid)
    (target : ∀ p, t.ty = .pointer p → p ≠ voidTypeIdx) : (st.pushType t).2.NoVoid := by
  refine ⟨?_, noVoid.typeNames⟩
  intro u member
  rcases List.mem_append.mp member with old | fresh
  · exact noVoid.targets u old
  · rw [List.mem_singleton.mp fresh]
    exact target

theorem Stab.Sound.length_ne_void {st : Stab} (sound : st.Sound) :
    (st.types.length : Int) ≠ voidTypeIdx := by
  have six : 6 ≤ st.types.length := sound.builtin.length_le
  intro void
  have five : (st.types.length : Int) = 5 := void
  omega

mutual

theorem stabResolveType_noVoid : ∀ (T : AstType) {st st' : Stab} {i : Index}, T.written = true →
    st.Sound → st.NoVoid → stabResolveType st T = .ok (i, st') → st'.NoVoid ∧ i ≠ voidTypeIdx
  | .ref name, st, _, _, _, _, noVoid, found => by
      cases found
      refine ⟨noVoid, ?_⟩
      apply @resolveIn_cases StabScope.types name st.chain fun i => i ≠ voidTypeIdx
      · decide
      · exact fun sc member => noVoid.typeNames sc member name
  | .integer, _, _, _, _, _, noVoid, found | .real, _, _, _, _, _, noVoid, found
  | .string, _, _, _, _, _, noVoid, found | .boolean, _, _, _, _, _, noVoid, found
  | .char, _, _, _, _, _, noVoid, found => by
      cases found
      exact ⟨noVoid, by decide⟩
  | .void, _, _, _, written, _, _, _ => by cases written
  | .pointer target, st, st', i, written, sound, noVoid, found => by
      simp only [stabResolveType, except_bind_eq_ok] at found
      obtain ⟨⟨t, st₁⟩, inner, found⟩ := found
      cases found
      obtain ⟨noVoid₁, notVoid⟩ := stabResolveType_noVoid target written sound noVoid inner
      have sound₁ := (stabResolveType_steps target 0 sound inner).1.sound sound
      refine ⟨noVoid₁.push ?_, sound₁.length_ne_void⟩
      intro p pointer
      cases pointer
      exact notVoid
  | .record fields, st, st', i, written, sound, noVoid, found => by
      simp only [stabResolveType, except_bind_eq_ok] at found
      obtain ⟨⟨l, st₁⟩, inner, found⟩ := found
      cases found
      have noVoid₁ := stabResolveFields_noVoid fields written sound noVoid inner
      have sound₁ := (stabResolveFields_steps fields 0 sound inner).1.sound sound
      exact ⟨noVoid₁.push (fun _ pointer => by cases pointer), sound₁.length_ne_void⟩
  | .array lower upper elt, st, st', i, written, sound, noVoid, found => by
      obtain ⟨e, resolved, low, high⟩ := stabResolveType_standard written st
      simp only [stabResolveType, except_bind_eq_ok] at found
      obtain ⟨⟨t, st₁⟩, inner, found⟩ := found
      -- the elements have a built-in type
      cases resolved.symm.trans inner
      dsimp only at found
      split at found
      · cases found
      · cases found
        exact ⟨noVoid.push (fun _ pointer => by cases pointer), sound.length_ne_void⟩

theorem stabResolveFields_noVoid : ∀ (fields : List (Name × AstType)) {st st' : Stab}
    {l : List (Name × Index)}, fieldsWritten fields = true → st.Sound → st.NoVoid →
      stabResolveFields st fields = .ok (l, st') → st'.NoVoid
  | [], _, _, _, _, _, noVoid, found => by
      cases found
      exact noVoid
  | (name, type) :: fields, st, st', l, written, sound, noVoid, found => by
      rw [fieldsWritten, Bool.and_eq_true] at written
      simp only [stabResolveFields, except_bind_eq_ok] at found
      obtain ⟨⟨t, st₁⟩, inner, ⟨rest, st₂⟩, more, found⟩ := found
      cases found
      have noVoid₁ := (stabResolveType_noVoid type written.1 sound noVoid inner).1
      have sound₁ := (stabResolveType_steps type 0 sound inner).1.sound sound
      exact stabResolveFields_noVoid fields written.2 sound₁ noVoid₁ more

end

theorem noVoid_stabNew : stabNew.NoVoid where
  targets := by
    intro t member p pointer
    have basic := not_isCompound_of_builtin member
    rw [pointer] at basic
    cases basic
  typeNames := by
    intro sc member n
    rw [List.mem_singleton.mp member]
    exact (NameTable.lookup_empty n).symm ▸ (by decide)

theorem noVoid_kept : Kept (fun T => T.written = true) NoVoid fun i => i ≠ voidTypeIdx where
  resolve := fun T _ _ _ written sound noVoid found => stabResolveType_noVoid T written sound noVoid found
  func := by
  -- types of the grammar keep void away from pointers and type names
    intro st t func noVoid
    apply noVoid.push
    intro p pointer
    rw [pointer] at func
    cases func
  name := by
    intro st n i notVoid noVoid
    refine ⟨noVoid.targets, ?_⟩
    intro sc member m
    rcases List.mem_cons.mp member with rfl | member
    · rw [insertType, NameTable.lookup_insert]
      split
      · exact notVoid
      · exact noVoid.typeNames st.innermost List.mem_cons_self m
    · exact noVoid.typeNames sc (List.mem_cons_of_mem _ member) m
  enter := by
    intro st noVoid
    refine ⟨noVoid.targets, ?_⟩
    intro sc member m
    rcases List.mem_cons.mp member with rfl | member
    · exact (NameTable.lookup_empty m).symm ▸ (by decide)
    · exact noVoid.typeNames sc member m
  leave := by
    intro st st' left noVoid
    obtain ⟨sc, rest, open_, rfl⟩ := stabLeave_eq_ok.mp left
    exact ⟨noVoid.targets, fun sc' member => noVoid.typeNames sc' (List.mem_cons_of_mem _ (open_ ▸ member))⟩
  same := by
    intro st st' types names noVoid
    refine ⟨types ▸ noVoid.targets, ?_⟩
    intro sc member m
    have inside : sc.types ∈ st.chain.map StabScope.types := names ▸ List.mem_map_of_mem member
    obtain ⟨sc', member', same⟩ := List.mem_map.mp inside
    exact same ▸ noVoid.typeNames sc' member' m

/-- A declaration of types of the grammar in which every type name is declared. -/
def Declaration.Proper (e : Declaration) (st : Stab) : Prop :=
  e.Each (fun T => T.written = true) ∧ e.Known st

/-- Wherever a run of such declarations is, the comparison of types ends and is an equivalence. -/
theorem comparisonRight_of_proper (ds rest : List Declaration) (s : Stab × Int)
    (passes : Passes Declaration.Proper ds (stabNew, 0) rest s) : ComparisonRight s.1 := by
  have written := passes.mono fun e st proper => And.left proper
  have known := passes.mono fun e st proper => And.right proper
  obtain ⟨sound, clean⟩ := known.clean sound_stabNew clean_stabNew
  have noVoid := written.kept noVoid_kept sound_stabNew noVoid_stabNew
  exact noVoid.comparisonRight sound clean

-- The types t = ^integer are compared right.
theorem pointerTypes_comparisonRight : ComparisonRight pointerTypes := by
  apply comparisonRight_of_proper [.type ⟨"t", .pointer .integer⟩] [] (pointerTypes, 0)
  have type : (Declaration.type ⟨"t", .pointer .integer⟩).Step stabNew pointerTypes := .type rfl
  exact .declare ⟨rfl, fun n member => absurd member List.not_mem_nil⟩ type .here

end Dragon
