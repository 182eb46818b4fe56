import Dragon.Symbol.Steps

/-! Display slots.

A variable gets its slot when it is captured, and keeps it. Slots are numbered
in the order of the captures, so each number given out belongs to one variable.
-/

set_option autoImplicit false

namespace Dragon

open Stab

/-- The slots given out are those of the captured variables, one for each. -/
structure Slotted (s : Stab × Int) : Prop where
  nonneg : 0 ≤ s.2
  bounded : ∀ (i : Int) v, stabVar s.1 i = some v → v.captured = true → 0 ≤ v.dispOffset ∧ v.dispOffset < s.2
  distinct : ∀ (i j : Int) v w, stabVar s.1 i = some v → stabVar s.1 j = some w → v.captured = true →
    w.captured = true → v.dispOffset = w.dispOffset → i = j

theorem slotted_stabNew : Slotted (stabNew, 0) where
  nonneg := Int.le_refl 0
  bounded := by
    intro i v found
    simp [stabVar, arenaGet, stabNew] at found
  distinct := by
    intro i j v w found
    simp [stabVar, arenaGet, stabNew] at found

theorem stabVar_setVar {st : Stab} {i j : Int} {v w : StabVar} (low : 0 ≤ j)
    (found : stabVar st j = some v) :
    stabVar (st.setVar j w) i = if i = j then some w else stabVar st i := by
  have small := (arenaGet_lt found).2
  unfold stabVar arenaGet setVar
  by_cases nonneg : 0 ≤ i
  · rw [if_pos nonneg, if_pos nonneg, List.getElem?_set]
    by_cases same : i = j
    · subst same
      rw [if_pos rfl, if_pos rfl, if_pos (by omega)]
    · rw [if_neg same, if_neg (by omega)]
  · rw [if_neg nonneg, if_neg nonneg, if_neg (by omega)]

theorem stabVar_pushVar (st : Stab) (i : Int) (v : StabVar) (name : Name) :
    stabVar ((st.pushVar v).2.insertVar name st.vars.length) i =
      if i = st.vars.length then some v else stabVar st i := by
  unfold stabVar arenaGet insertVar pushVar
  by_cases nonneg : 0 ≤ i
  · simp only [nonneg, if_true, List.getElem?_append]
    by_cases same : i = st.vars.length
    · subst same
      simp
    · rw [if_neg same]
      split
      · rfl
      · rw [List.getElem?_eq_none (by rw [List.length_singleton]; omega),
          List.getElem?_eq_none (by omega)]
  · rw [if_neg nonneg, if_neg nonneg, if_neg (by omega)]

theorem StabStep.slots_le {s t : Stab × Int} (step : StabStep s t) : s.2 ≤ t.2 := by
  cases step <;> simp

theorem StabSteps.slots_le {s t : Stab × Int} (steps : StabSteps s t) : s.2 ≤ t.2 := by
  induction steps with
  | refl => exact Int.le_refl _
  | tail _ last ih => exact Int.le_trans ih last.slots_le

theorem StabStep.kept {s t : Stab × Int} (step : StabStep s t) {i : Int} {v : StabVar}
    (found : stabVar s.1 i = some v) (captured : v.captured = true) : stabVar t.1 i = some v := by
  cases step with
  | leave left =>
    obtain ⟨sc, rest, -, rfl⟩ := stabLeave_eq_ok.mp left
    exact found
  | addVar _ =>
    have small := (arenaGet_lt found).2
    rw [stabVar_pushVar, if_neg (by simp only at small; omega)]
    exact found
  | @capture st d j w here free =>
    rw [stabVar_setVar (arenaGet_lt here).1 here]
    split
    next same =>
      subst same
      rw [here] at found
      cases found
      rw [free] at captured
      cases captured
    next => exact found
  | _ => exact found

theorem StabSteps.kept {s t : Stab × Int} (steps : StabSteps s t) {i : Int} {v : StabVar}
    (found : stabVar s.1 i = some v) (captured : v.captured = true) : stabVar t.1 i = some v := by
  induction steps with
  | refl => exact found
  | tail _ last ih => exact last.kept ih captured

-- A captured variable was captured before, or its slot is one of those given out since.
theorem StabStep.fresh {s t : Stab × Int} (step : StabStep s t) {i : Int} {v : StabVar}
    (found : stabVar t.1 i = some v) (captured : v.captured = true) :
    stabVar s.1 i = some v ∨ (s.2 ≤ v.dispOffset ∧ v.dispOffset < t.2) := by
  cases step with
  | leave left =>
    obtain ⟨sc, rest, -, rfl⟩ := stabLeave_eq_ok.mp left
    exact .inl found
  | addVar _ =>
    rw [stabVar_pushVar] at found
    split at found
    · cases found
      cases captured
    · exact .inl found
  | @capture st d j w here free =>
    rw [stabVar_setVar (arenaGet_lt here).1 here] at found
    split at found
    · cases found
      exact .inr ⟨Int.le_refl _, Int.lt_succ _⟩
    · exact .inl found
  | _ => exact .inl found

theorem StabSteps.fresh {s t : Stab × Int} (steps : StabSteps s t) {i : Int} {v : StabVar}
    (found : stabVar t.1 i = some v) (captured : v.captured = true) :
    stabVar s.1 i = some v ∨ (s.2 ≤ v.dispOffset ∧ v.dispOffset < t.2) := by
  induction steps with
  | refl => exact .inl found
  | tail before last ih =>
    have more := last.slots_le
    have less := StabSteps.slots_le before
    rcases last.fresh found captured with earlier | ⟨low, high⟩
    · rcases ih earlier with first | ⟨low, high⟩
      · exact .inl first
      · exact .inr ⟨low, Int.lt_of_lt_of_le high more⟩
    · exact .inr ⟨Int.le_trans less low, high⟩

theorem StabSteps.captured_before {s t : Stab × Int} (steps : StabSteps s t) (same : t.2 = s.2)
    {i : Int} {v : StabVar} (found : stabVar t.1 i = some v) (captured : v.captured = true) :
    stabVar s.1 i = some v := by
  -- while no slot is given out, no variable is captured
  rcases steps.fresh found captured with before | ⟨low, high⟩
  · exact before
  · rw [same] at high
    exact absurd low (Int.not_le.mpr high)

theorem StabSteps.onto {s t : Stab × Int} (steps : StabSteps s t) {k : Int} (low : s.2 ≤ k)
    (high : k < t.2) : ∃ i v, stabVar t.1 i = some v ∧ v.captured = true ∧ v.dispOffset = k := by
  induction steps with
  | refl => exact absurd low (Int.not_le.mpr high)
  | @tail t u _ last ih =>
    by_cases early : k < t.2
    · obtain ⟨i, v, found, captured, slot⟩ := ih early
      exact ⟨i, v, last.kept found captured, captured, slot⟩
    · cases last with
      | @capture st d i v found free =>
        simp only at early high
        refine ⟨i, { v with captured := true, dispOffset := d }, ?_, rfl, ?_⟩
        · rw [stabVar_setVar (arenaGet_lt found).1 found, if_pos rfl]
        · simp only
          omega
      | _ => exact absurd high early

theorem StabStep.slotted {s t : Stab × Int} (step : StabStep s t) (slotted : Slotted s) :
    Slotted t := by
  have le := step.slots_le
  refine ⟨Int.le_trans slotted.nonneg le, ?_, ?_⟩
  · intro i v found captured
    rcases step.fresh found captured with before | ⟨low, high⟩
    · have bounds := slotted.bounded i v before captured
      exact ⟨bounds.1, Int.lt_of_lt_of_le bounds.2 le⟩
    · exact ⟨Int.le_trans slotted.nonneg low, high⟩
  · intro i j v w first second one two same
    rcases step.fresh first one with before | new
    · have above := slotted.bounded i v before one
      rcases step.fresh second two with before' | new
      · exact slotted.distinct i j v w before before' one two same
      · omega
    · rcases step.fresh second two with before' | new'
      · have above := slotted.bounded j w before' two
        omega
      · -- both are the variable this step captures
        cases step with
        | @capture st d k u here free =>
          rw [stabVar_setVar (arenaGet_lt here).1 here] at first second
          have low := new.1
          have low' := new'.1
          split at first
          next at_i =>
            split at second
            next at_j => exact at_i.trans at_j.symm
            next => exact absurd (slotted.bounded j w second two).2 (by simp only; omega)
          next => exact absurd (slotted.bounded i v first one).2 (by simp only; omega)
        | _ => simp only at new; omega

theorem StabSteps.slotted {s t : Stab × Int} (steps : StabSteps s t) (slotted : Slotted s) :
    Slotted t := StabSteps.preserves (fun _ _ step => step.slotted) steps slotted

end Dragon
