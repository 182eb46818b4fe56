import Dragon.Codegen.Tables
import Dragon.Machine.State

/-! Paths through records.

What a path x.f1...fk should mean is the declared type of fk and the place of
the field. The loop of type_of_path looks up the names x, f1, ..., f(k-1)
instead, because the step to the next component is skipped once, and its result
keeps the type of x.
-/

set_option autoImplicit false

namespace Dragon

open Analysis ByteMemory

/-! ## The meaning of a path -/

/-- The type of the first field of a name, and the sizes of the fields before it. -/
def declaredField (st : Stab) (n : Name) : List (Name × Index) → Option (Index × Int)
  | [] => none
  | (name, type) :: fields =>
      if name = n then some (type, 0)
      else do
        let t ← stabType st type
        let (i, offset) ← declaredField st n fields
        some (i, sizeOfType t + offset)

def declaredPath (st : Stab) : Index → List Name → Option (Index × Int)
  | i, [] => some (i, 0)
  | i, n :: names => do
      let t ← stabType st i
      match t.ty with
      | .record fields => do
          let (j, offset) ← declaredField st n fields
          let (k, rest) ← declaredPath st j names
          some (k, offset + rest)
      | _ => none

def varAddress (acx : Acx) (name : Name) (v : StabVar) (env : Env) (σ : State) : BitVec 64 :=
  if stabHasLocalVar acx.st name then σ.frame v.stackBaseOffset
  else readWord σ.mem (env.display + BitVec.ofInt 64
    ((if v.captured then v.dispOffset else acx.dispOffset) * abiPointerAlign))

/-- Accepted just when it names a field, with the type of the field, and in the register the
address of the field or the word there. -/
structure PathRight (p : AstPath) (rv : Bool) (acx : Acx) (v : StabVar) : Prop where
  accepts : (∃ res acx' code, typeOfPath p rv acx = .ok (res, acx', code)) ↔
    (declaredPath acx.st v.type p.rest).isSome
  result : ∀ res acx' code j offset, typeOfPath p rv acx = .ok (res, acx', code) →
    declaredPath acx.st v.type p.rest = some (j, offset) → res.type = j ∧
      ∀ (env : Env) (σ τ : State), runBlock env code σ = some τ →
        τ.reg res.reg.name =
          (if rv then readWord σ.mem (varAddress acx p.first v env σ + BitVec.ofInt 64 offset)
          else varAddress acx p.first v env σ + BitVec.ofInt 64 offset)

theorem declaredField_mem {st : Stab} {n : Name} {fields : List (Name × Index)} {i : Index}
    {offset : Int} (found : declaredField st n fields = some (i, offset)) :
    ∃ f ∈ fields, f.2 = i := by
  induction fields generalizing offset with
  | nil => cases found
  | cons field fields ih =>
    obtain ⟨name, type⟩ := field
    unfold declaredField at found
    split at found
    · cases found
      exact ⟨_, List.mem_cons_self, rfl⟩
    · simp only [Option.bind_eq_bind, Option.bind_eq_some_iff] at found
      obtain ⟨t, -, ⟨j, rest⟩, inner, last⟩ := found
      cases last
      obtain ⟨f, member, same⟩ := ih inner
      exact ⟨f, List.mem_cons_of_mem _ member, same⟩

theorem declaredPath_older {st : Stab} (sound : st.Sound) {names : List Name} {i k : Int}
    {offset : Int} (found : declaredPath st i names = some (k, offset)) :
    (names = [] ∧ k = i) ∨ k = resolveFailure ∨ (0 ≤ k ∧ k < i) := by
  -- the type a path ends at is the one it starts at, or older
  induction names generalizing i offset with
  | nil =>
    cases found
    exact .inl ⟨rfl, rfl⟩
  | cons n names ih =>
    simp only [declaredPath, Option.bind_eq_bind, Option.bind_eq_some_iff] at found
    obtain ⟨t, here, found⟩ := found
    cases shape : t.ty with
    | record fields =>
      simp only [shape, Option.bind_eq_some_iff] at found
      obtain ⟨⟨j, first⟩, field, ⟨k', rest⟩, inner, last⟩ := found
      cases last
      obtain ⟨f, member, same⟩ := declaredField_mem field
      have older := sound.field_older here shape member
      rw [same] at older
      right
      rcases ih inner with ⟨-, rfl⟩ | failed | ⟨low, high⟩
      · exact older
      · exact .inl failed
      · refine .inr ⟨low, ?_⟩
        rcases older with failed | ⟨-, less⟩
        · rw [failed, resolveFailure] at high
          omega
        · exact Int.lt_trans high less
    | _ => simp [shape] at found

/-! ## What type_of_path looks up -/

/-- The inner loop: the type a field leads to, through a pointer. -/
def selectField (st : Stab) (n : Name) : List (Name × Index) → Option StabResolvedType
  | [] => none
  | (name, type) :: fields => do
      let t ← stabType st type
      if name = n then
        match t.ty with
        | .pointer target => (stabType st target).map StabType.ty
        | ty => some ty
      else selectField st n fields

def selects (st : Stab) : StabResolvedType → List Name → Bool
  | _, [] => true
  | .record fields, n :: names =>
      match selectField st n fields with
      | some ty => selects st ty names
      | none => false
  | _, _ :: _ => false

theorem findField_accepted {reg : Reg} {n : Name} {fields : List (Name × Index)} {offset : Int}
    {acx acx' : Acx} {ty : StabResolvedType} {code : List Insn}
    (run : findField reg n fields offset acx = .ok (ty, acx', code)) :
    selectField acx.st n fields = some ty := by
  induction fields generalizing offset with
  | nil => simp [findField] at run
  | cons field fields ih =>
    obtain ⟨name, type⟩ := field
    simp only [findField, get_bind_eq_ok, ofOption_bind_eq_ok] at run
    obtain ⟨t, found, run⟩ := run
    simp only [selectField, found, Option.bind_eq_bind, Option.bind_some]
    split at run
    next here =>
      rw [if_pos here]
      cases shape : t.ty <;>
        simp only [shape, ofOption_bind_eq_ok, emit_bind_eq_ok, pure_eq_ok] at run
      case pointer target =>
        obtain ⟨u, there, _, ⟨rfl, -, -⟩, -⟩ := run
        simp [there]
      all_goals
        obtain ⟨_, ⟨rfl, -, -⟩, -⟩ := run
        rfl
    next other =>
      rw [if_neg other]
      exact ih run

theorem findField_of_select (reg : Reg) (offset : Int) {n : Name} {fields : List (Name × Index)}
    {acx : Acx} {ty : StabResolvedType} (selected : selectField acx.st n fields = some ty) :
    ∃ code, findField reg n fields offset acx = .ok (ty, acx, code) := by
  induction fields generalizing offset with
  | nil => cases selected
  | cons field fields ih =>
    obtain ⟨name, type⟩ := field
    simp only [selectField, Option.bind_eq_bind, Option.bind_eq_some_iff] at selected
    obtain ⟨t, found, selected⟩ := selected
    simp only [findField, get_bind_eq_ok, ofOption_bind_eq_ok]
    split at selected
    next here =>
      simp only [if_pos here]
      cases shape : t.ty <;> simp only [shape, Option.some.injEq] at selected
      case pointer target =>
        obtain ⟨u, there, rfl⟩ := Option.map_eq_some_iff.mp selected
        refine ⟨[.load reg.name reg.name 0], t, found, ?_⟩
        simp only [shape, ofOption_bind_eq_ok, emit_bind_eq_ok, pure_eq_ok]
        exact ⟨u, there, _, ⟨rfl, trivial, rfl⟩, rfl⟩
      all_goals
        refine ⟨[.addImm reg.name offset], t, found, ?_⟩
        simp only [shape, emit_bind_eq_ok, pure_eq_ok]
        exact ⟨_, ⟨selected, trivial, rfl⟩, rfl⟩
    next other =>
      simp only [if_neg other]
      obtain ⟨code, run⟩ := ih (offset + sizeOfType t) selected
      exact ⟨code, t, found, run⟩

theorem fieldLoop_accepted_iff {reg : Reg} {temp : List Name} {ty : StabResolvedType} {acx : Acx} :
    (∃ acx' code, fieldLoop reg (temp.length - 1) false temp ty acx = .ok ((), acx', code)) ↔
      selects acx.st ty temp.dropLast = true := by
  induction temp generalizing ty with
  | nil =>
    constructor
    · intro _
      rfl
    · intro _
      exact ⟨acx, [], rfl⟩
  | cons n next ih =>
    cases next with
    | nil =>
      constructor
      · intro _
        rfl
      · intro _
        exact ⟨acx, [], rfl⟩
    | cons m next =>
      have more : ¬ (m :: next) = [] := by simp
      have count : (n :: m :: next).length - 1 = ((m :: next).length - 1) + 1 := by simp
      have shorter : (n :: m :: next).dropLast = n :: (m :: next).dropLast := rfl
      rw [count, shorter]
      simp only [fieldLoop, if_neg more]
      cases ty with
      | record fields =>
        simp only [selects]
        constructor
        · rintro ⟨acx', code, run⟩
          rw [bind_eq_ok] at run
          obtain ⟨ty, acx₁, code₁, code₂, found, run, -⟩ := run
          rw [findField_accepted found]
          obtain ⟨rfl, -⟩ := findField_run found
          exact ih.mp ⟨acx', code₂, run⟩
        · intro selected
          split at selected
          next ty field =>
            obtain ⟨code₁, found⟩ := findField_of_select reg 0 field
            obtain ⟨acx', code₂, run⟩ := ih.mpr selected
            exact ⟨acx', code₁ ++ code₂, bind_eq_ok.mpr ⟨ty, acx, code₁, code₂, found, run, rfl⟩⟩
          next => cases selected
      | _ => simp [selects]

theorem selects_congr {st st' : Stab} (types : st'.types = st.types) (ty : StabResolvedType)
    (names : List Name) : selects st' ty names = selects st ty names := by
  have field : ∀ n fields, selectField st' n fields = selectField st n fields := by
    intro n fields
    induction fields with
    | nil => rfl
    | cons f fields ih => simp only [selectField, stabType, types, ih]
  induction names generalizing ty with
  | nil => rfl
  | cons n names ih =>
    cases ty <;> simp only [selects]
    rw [field]
    split
    · exact ih _
    · rfl

theorem typeOfPath_accepted_iff {p : AstPath} {rv : Bool} {acx : Acx} {v : StabVar} {t : StabType}
    (resolved : stabResolveVar acx.st p.first ≠ resolveFailure)
    (found : stabVar acx.st (stabResolveVar acx.st p.first) = some v)
    (type : stabType acx.st v.type = some t) :
    (∃ res acx' code, typeOfPath p rv acx = .ok (res, acx', code)) ↔
      selects acx.st t.ty p.components.dropLast = true := by
  have loop : ∀ (reg : Reg) (acx₁ : Acx), acx₁.st.types = acx.st.types →
      ((∃ acx' code, fieldLoop reg p.components.length true p.components t.ty acx₁ =
        .ok ((), acx', code)) ↔ selects acx.st t.ty p.components.dropLast = true) := by
    intro reg acx₁ types
    rw [← selects_congr types]
    -- the first component only uses up one round of the loop
    exact @fieldLoop_accepted_iff reg p.components t.ty acx₁
  constructor
  · rintro ⟨res, acx', code, run⟩
    simp only [typeOfPath, get_bind_eq_ok, if_neg resolved, regGimme_bind_eq_ok] at run
    obtain ⟨_, run, -⟩ := run
    rw [bind_eq_ok] at run
    obtain ⟨w, acx₁, _, _, address, run, -⟩ := run
    rw [ofOption_bind_eq_ok] at run
    obtain ⟨u, same, run⟩ := run
    rw [bind_eq_ok] at run
    obtain ⟨_, acx₂, code₂, _, looped, -, -⟩ := run
    obtain ⟨v₀, found₀, rfl, sameType, -⟩ := pathAddress_run address
    obtain rfl := Option.some.inj (found.symm.trans found₀)
    have types : ((acx.setRs acx.rs.gimme.2.1).use p.first (stabResolveVar acx.st p.first) v).st.types =
        acx.st.types := Acx.use_types _ _ _ _
    have here : stabType acx.st w.type = some u := same
    rw [sameType, type] at here
    cases here
    exact (loop _ _ types).mp ⟨acx₂, code₂, looped⟩
  · intro selected
    obtain ⟨w, acx₁, code₁, address⟩ := @pathAddress_accepted p.first acx.rs.gimme.1 _
      (acx.setRs acx.rs.gimme.2.1) v found
    obtain ⟨v₀, found₀, rfl, sameType, -⟩ := pathAddress_run address
    cases found.symm.trans found₀
    have types : ((acx.setRs acx.rs.gimme.2.1).use p.first (stabResolveVar acx.st p.first) v).st.types =
        acx.st.types := Acx.use_types _ _ _ _
    obtain ⟨acx₂, code₂, looped⟩ := (loop acx.rs.gimme.1 _ types).mpr selected
    have there : stabType acx.st w.type = some t := sameType ▸ type
    simp only [typeOfPath, get_bind_eq_ok, if_neg resolved, regGimme_bind_eq_ok]
    generalize reg : acx.rs.gimme.1 = r at address looped ⊢
    have last : (do
        emit (if rv then [.load r.name r.name 0] else [])
        return ⟨w.type, r⟩ : Analysis Resu) acx₂ =
          .ok (⟨w.type, r⟩, acx₂, (if rv then [.load r.name r.name 0] else []) ++ []) :=
      emit_bind_eq_ok.mpr ⟨[], pure_eq_ok.mpr ⟨rfl, rfl, rfl⟩, rfl⟩
    refine ⟨⟨w.type, r⟩, acx₂, acx.rs.gimme.2.2 ++ (code₁ ++ (code₂ ++
      ((if rv then [.load r.name r.name 0] else []) ++ []))), _, ?_, rfl⟩
    apply bind_eq_ok.mpr
    refine ⟨w, _, code₁, _, address, ?_, rfl⟩
    apply ofOption_bind_eq_ok.mpr
    refine ⟨t, there, ?_⟩
    exact bind_eq_ok.mpr ⟨(), acx₂, code₂, _, looped, last, rfl⟩

/-! ## When the two agree -/

theorem pathRight_iff_of_sound {p : AstPath} {rv : Bool} {acx : Acx} {v : StabVar} {t : StabType}
    (sound : acx.st.Sound) (resolved : stabResolveVar acx.st p.first ≠ resolveFailure)
    (found : stabVar acx.st (stabResolveVar acx.st p.first) = some v)
    (type : stabType acx.st v.type = some t) (some_ : p.rest ≠ []) :
    PathRight p rv acx v ↔ declaredPath acx.st v.type p.rest = none ∧
      selects acx.st t.ty p.components.dropLast = false := by
  have accepted := @typeOfPath_accepted_iff p rv acx v t resolved found type
  constructor
  · intro right
    have none_ : declaredPath acx.st v.type p.rest = none := by
      by_contra declared
      obtain ⟨⟨j, offset⟩, named⟩ := Option.ne_none_iff_exists'.mp declared
      obtain ⟨res, acx', code, run⟩ := right.accepts.mpr (Option.isSome_iff_exists.mpr ⟨_, named⟩)
      have same := (right.result res acx' code j offset run named).1
      obtain ⟨w, acx₁, lines, path, rfl, -, -⟩ := typeOfPath_run run
      cases found.symm.trans path.found
      -- the result has the type of the variable, and the field an older one
      have low := (arenaGet_lt type).1
      rcases declaredPath_older sound named with ⟨empty, -⟩ | failed | ⟨-, less⟩
      · exact some_ empty
      · have negative : v.type = resolveFailure := same.trans failed
        rw [negative] at low
        exact absurd low (by decide)
      · rw [← same] at less
        exact Int.lt_irrefl _ less
    refine ⟨none_, ?_⟩
    by_contra selected
    have isSome := right.accepts.mp (accepted.mpr (by simpa using selected))
    rw [none_] at isSome
    cases isSome
  · rintro ⟨none_, rejected⟩
    constructor
    · rw [accepted, none_, rejected]
      simp
    · intro res acx' code j offset _ named
      rw [none_] at named
      cases named

/-- In every table the analyzer can reach, a path of at least one field through a record means what
it says just when it names no field, and the names one place before it name none either. -/
theorem pathRight_iff (acx : Acx) (reached : StabSteps initialAcx.table acx.table) (p : AstPath)
    (rv : Bool) (v : StabVar) (t : StabType) (fields : List (Name × Index))
    (resolved : stabResolveVar acx.st p.first ≠ resolveFailure)
    (found : stabVar acx.st (stabResolveVar acx.st p.first) = some v)
    (type : stabType acx.st v.type = some t) (record : t.ty = .record fields)
    (some_ : p.rest ≠ []) :
    PathRight p rv acx v ↔ declaredPath acx.st v.type p.rest = none ∧
      selects acx.st (.record fields) p.components.dropLast = false := by
  rw [← record]
  exact pathRight_iff_of_sound (StabSteps.sound reached Stab.sound_stabNew) resolved found type some_

-- var r: record a: integer end; the path r.a
def recordProgram : AstProgram := ⟨[], [⟨["r"], .record [("a", .integer)]⟩], [], [], .null⟩

def recordPath : AstPath := ⟨"r", ["a"]⟩

theorem recordProgram_opened : ∃ acx : Acx, StabSteps initialAcx.table acx.table ∧
    stabVar acx.st (stabResolveVar acx.st "r") = some ⟨6, "r", -1, 0, false⟩ ∧
    stabType acx.st 6 = some ⟨.record [("a", integerTypeIdx)], 0, none⟩ := by
  have facts : (openProgram recordProgram initialAcx).toOption.map (fun r =>
      decide (stabVar r.2.1.st (stabResolveVar r.2.1.st "r") = some ⟨6, "r", -1, 0, false⟩ ∧
        stabType r.2.1.st 6 = some ⟨.record [("a", integerTypeIdx)], 0, none⟩)) = some true := by
    decide +kernel
  cases result : openProgram recordProgram initialAcx with
  | error s => simp [result, Except.toOption] at facts
  | ok r =>
    simp only [result, Except.toOption, Option.map_some, Option.some.injEq, decide_eq_true_eq] at facts
    exact ⟨r.2.1, openProgram_steps result, facts⟩

theorem recordPath_resolved {acx : Acx}
    (found : stabVar acx.st (stabResolveVar acx.st "r") = some ⟨6, "r", -1, 0, false⟩) :
    stabResolveVar acx.st recordPath.first ≠ resolveFailure := by
  intro failed
  change stabResolveVar acx.st "r" = resolveFailure at failed
  rw [failed] at found
  cases found

theorem recordPath_pathRight_iff : ∃ acx : Acx,
    (PathRight recordPath false acx ⟨6, "r", -1, 0, false⟩ ↔
      declaredPath acx.st 6 recordPath.rest = none ∧
        selects acx.st (.record [("a", integerTypeIdx)]) recordPath.components.dropLast = false) := by
  obtain ⟨acx, reached, found, type⟩ := recordProgram_opened
  exact ⟨acx, pathRight_iff acx reached recordPath false _ _ _ (recordPath_resolved found) found type
    rfl (by decide)⟩

-- The field a of r is looked up under the name r, and so it is not found.
theorem not_forall_pathRight : ¬ ∀ (acx : Acx), StabSteps initialAcx.table acx.table →
    ∀ (p : AstPath) (rv : Bool) (v : StabVar) (t : StabType) (fields : List (Name × Index)),
      stabResolveVar acx.st p.first ≠ resolveFailure →
      stabVar acx.st (stabResolveVar acx.st p.first) = some v → stabType acx.st v.type = some t →
      t.ty = .record fields → p.rest ≠ [] → PathRight p rv acx v := by
  intro all
  obtain ⟨acx, reached, found, type⟩ := recordProgram_opened
  have resolved := recordPath_resolved found
  have right := all acx reached recordPath false _ _ _ resolved found type rfl (by decide)
  have none_ := ((pathRight_iff_of_sound (StabSteps.sound reached Stab.sound_stabNew) resolved found type
    (by decide)).mp right).1
  change declaredPath acx.st 6 ["a"] = none at none_
  simp [declaredPath, type, declaredField] at none_

end Dragon
