import Dragon.Codegen.Bindings
import Dragon.Codegen.Frame

/-! Where the formals of a subprogram are looked for.

They are numbered downwards from an offset that counts the declarations they are
grouped in, by the sizes of their types. A name that the return slot or the
signature of a nested subprogram has taken stands for another cell in the body.
-/

set_option autoImplicit false

namespace Dragon

open Analysis Stab

/-! ## The cells of the formals -/

def AstType.scalarSize : AstType → Option Int
  | .integer | .real | .string => some 8
  | .boolean | .char => some 1
  | _ => none

def AstSig.Scalar (sig : AstSig) : Prop := ∀ g ∈ sig.args, g.type.scalarSize.isSome = true

instance (sig : AstSig) : Decidable sig.Scalar := inferInstanceAs (Decidable (∀ g ∈ _, _))

def AstSig.sizes (sig : AstSig) : List Int := sig.formals.map fun f => f.2.scalarSize.getD 0

def AstSig.formalOffset (sig : AstSig) (i : Nat) : Int :=
  8 * (sig.args.length + 1) - (sig.sizes.take i).sum

/-- The offset of the variable that has the name of the i-th formal in the body. The signature of a
nested subprogram and the return slot take names that are in use. -/
def AstSubdecl.formalCell (d : AstSubdecl) (ret : Int) (i : Nat) (name : Name) : Int :=
  if name ∈ signatureNames d.subprogs then -1
  else if name = d.name then ret
  else d.head.formalOffset i

def frameOffset (st : Stab) (i : Index) : Int := ((stabVar st i).map StabVar.stackBaseOffset).getD 0

theorem frameOffset_eq {st : Stab} {i : Index} {v : StabVar} (found : stabVar st i = some v) :
    frameOffset st i = v.stackBaseOffset := by
  simp [frameOffset, found]

theorem scalar_index {t : AstType} {size : Int} (scalar : t.scalarSize = some size) :
    ∃ i u, (∀ st, t.plainIndex st = some i) ∧ u.size = size ∧
      ∀ st : Stab, stabNew.types <+: st.types → stabType st i = some u := by
  have builtin : ∀ (i : Nat) (u : StabType), stabNew.types[i]? = some u →
      ∀ st : Stab, stabNew.types <+: st.types → stabType st i = some u :=
    fun i u found st more => stabType_mono more (arenaGet_eq_some.mpr ⟨Int.natCast_nonneg _, found⟩)
  cases t <;> cases scalar
  · exact ⟨booleanTypeIdx, _, fun _ => rfl, rfl, builtin 3 _ rfl⟩
  · exact ⟨charTypeIdx, _, fun _ => rfl, rfl, builtin 4 _ rfl⟩
  · exact ⟨integerTypeIdx, _, fun _ => rfl, rfl, builtin 0 _ rfl⟩
  · exact ⟨realTypeIdx, _, fun _ => rfl, rfl, builtin 1 _ rfl⟩
  · exact ⟨stringTypeIdx, _, fun _ => rfl, rfl, builtin 2 _ rfl⟩

theorem Laid.offset {st : Stab} {off low : Int} {vars : List StabVar} (laid : Laid st false off vars low)
    {i : Nat} {v : StabVar} (here : vars[i]? = some v) :
    v.stackBaseOffset = off - ((vars.map fun v => (span st v).size).take i).sum := by
  induction vars generalizing off i with
  | nil => cases here
  | cons w vars ih =>
    obtain ⟨first, t, found, rest⟩ := laid
    have size : (span st w).size = t.size := by simp [span, found]
    cases i with
    | zero =>
      cases here
      simpa using first
    | succ i =>
      have later := ih rest here
      rw [List.map_cons, List.take_succ_cons, List.sum_cons, size, later]
      simp only [Bool.false_eq_true, if_false]
      omega

def AstType.scalarIndex (t : AstType) : Index := (t.plainIndex stabNew).getD resolveFailure

theorem Opened.formalTypes {st st' : Stab} {head : AstSig} {name : Name} {types : List AstTypeDecl}
    {decls : List AstDecls} {retslot : Index} {off : Int}
    (opened : Opened st head name types decls retslot off st') (scalar : head.Scalar) :
    ∃ vars rest, st'.vars = st.vars ++ (vars ++ rest) ∧
      vars.map StabVar.type = head.formals.map fun f => f.2.scalarIndex := by
  obtain ⟨st₁, off₂, st₂, off₃, st₃, retty, st₄, added₁, added₂, added₃, result, added₄⟩ :=
    opened.steps
  obtain ⟨vars₁, -, -⟩ := stabAddAllTypes_keeps added₁
  have plain : ∀ g ∈ head.args, g.type.plainIndex st₁ = some g.type.scalarIndex := by
    intro g member
    obtain ⟨size, known⟩ := Option.isSome_iff_exists.mp (scalar g member)
    obtain ⟨i, u, index, -⟩ := scalar_index known
    rw [AstType.scalarIndex, index, index]
    rfl
  obtain ⟨vars, declared₂, -, -, indices⟩ := stabAddAllDecls_laid plain added₂
  obtain ⟨locals, declared₃, -⟩ := stabAddAllDecls_frame added₃
  obtain ⟨t, -, -, -, rfl⟩ := stabAddVar_eq_ok.mp added₄
  refine ⟨vars, locals ++ [⟨retty, name, -1, off₃, false⟩], ?_, ?_⟩
  · simp only [Stab.pushVar, insertVar, (stabResolveRetty_more result).vars, declared₃.vars_eq, declared₂.vars_eq, vars₁, stabEnter,
      List.append_assoc]
  · rw [indices, AstSig.formals, List.map_flatMap]
    simp only [List.map_map]
    rfl

theorem FrameLayout.sizes {st st' : Stab} {head : AstSig} {name : Name} {types : List AstTypeDecl}
    {decls : List AstDecls} {retslot : Index} {off : Int} {formals locals : List StabVar}
    {ret : StabVar} (layout : FrameLayout st head name decls retslot off st' formals locals ret)
    (opened : Opened st head name types decls retslot off st') (scalar : head.Scalar)
    (sound : st'.Sound) : formals.map (fun v => (span st' v).size) = head.sizes := by
  obtain ⟨vars, rest, split, indices⟩ := opened.formalTypes scalar
  have length : formals.length = vars.length := by
    have names := congrArg List.length layout.formalNames
    have types := congrArg List.length indices
    simp only [List.length_map, AstSig.formals, List.length_flatMap] at names types
    rw [names, types]
  rw [layout.vars] at split
  obtain ⟨rfl, -⟩ := List.append_inj (List.append_cancel_left split) length
  have size : ∀ v, (span st' v).size = ((stabType st' v.type).map StabType.size).getD 0 := fun _ => rfl
  have byType := congrArg (List.map fun i => ((stabType st' i).map StabType.size).getD 0) indices
  rw [List.map_map, List.map_map] at byType
  refine byType.trans (List.map_congr_left ?_)
  rintro ⟨n, t⟩ member
  obtain ⟨g, inside, named⟩ := List.mem_flatMap.mp member
  obtain ⟨m, -, same⟩ := List.mem_map.mp named
  cases same
  obtain ⟨size, known⟩ := Option.isSome_iff_exists.mp (scalar g inside)
  obtain ⟨i, u, index, sized, found⟩ := scalar_index known
  simp only [Function.comp_apply, AstType.scalarIndex, index, Option.getD_some, known,
    found st' sound.builtin, Option.map_some, sized]

/-! ## Names that are taken -/

theorem stabResolveFormals_offset {formals : List (Name × AstType)} {st st' : Stab} {ids : List Index}
    (sound : st.Sound) (found : stabResolveFormals st formals = .ok (ids, st')) {i : Int}
    (pushed : Pushed st st' i) : ∃ v, stabVar st' i = some v ∧ v.stackBaseOffset = -1 := by
  induction formals generalizing st ids with
  | nil =>
    cases found
    exact absurd pushed.2 (Int.not_lt.mpr pushed.1)
  | cons formal formals ih =>
    obtain ⟨name, type⟩ := formal
    simp only [stabResolveFormals, except_bind_eq_ok] at found
    obtain ⟨⟨t, st₁⟩, inner, ⟨rest, st₂⟩, more, same⟩ := found
    cases same
    obtain ⟨steps, below⟩ := stabResolveType_steps type 0 sound inner
    have added : StabSteps (st, 0) ((stabAddVarNoOffset st₁ name t).2, 0) :=
      steps.tail (.addVar below)
    have sound' := added.sound sound
    have later := (stabResolveFormals_steps 0 sound' more).1
    have vars : st₁.vars = st.vars := (stabResolveType_more type inner).vars
    have arena : ∀ j, stabVar (stabAddVarNoOffset st₁ name t).2 j =
        if j = st₁.vars.length then some ⟨t, name, -1, -1, false⟩ else stabVar st₁ j :=
      fun j => stabVar_pushVar st₁ j _ name
    by_cases first : i = st₁.vars.length
    · obtain ⟨w, there, -, -, offset⟩ := later.vars ((arena i).trans (if_pos first))
      exact ⟨w, there, offset⟩
    · refine ih sound' more ⟨?_, pushed.2⟩
      have low := pushed.1
      have longer : (stabAddVarNoOffset st₁ name t).2.vars.length = st₁.vars.length + 1 := by
        simp [stabAddVarNoOffset, Stab.pushVar, insertVar]
      rw [longer, vars]
      rw [vars] at first
      push_cast
      omega

theorem stabAddFunc_offset {st st' : Stab} {name : Name} {sig : AstSig} (sound : st.Sound)
    (added : stabAddFunc st name sig = .ok st') {i : Int} (pushed : Pushed st st' i) :
    ∃ v, stabVar st' i = some v ∧ v.stackBaseOffset = -1 := by
  obtain ⟨-, type, st₁, resolved, rfl⟩ := stabAddFunc_eq_ok.mp added
  simp only [stabResolveSig, except_bind_eq_ok] at resolved
  obtain ⟨⟨retty, st₂⟩, result, ⟨ids, st₃⟩, formals, last⟩ := resolved
  cases last
  have sound₂ : st₂.Sound := (stabResolveRetty_steps 0 sound result).1.sound sound
  have inside : Pushed st₂ st₃ i := by
    rw [Pushed, (stabResolveRetty_more result).vars]
    exact pushed
  exact stabResolveFormals_offset sound₂ formals inside

theorem SignatureOf.offset {i : Int} {subprogs : List AstSubdecl} {acx acx' : Acx} {u : Unit}
    {code : List Insn} (signature : SignatureOf i subprogs acx) (sound : acx.st.Sound)
    (run : analyzeSubprogs subprogs acx = .ok (u, acx', code)) :
    ∃ v, stabVar acx'.st i = some v ∧ v.stackBaseOffset = -1 := by
  induction signature generalizing acx' code with
  | @here d subprogs acx st added pushed =>
    obtain ⟨st', acx₁, code₁, code₂, added', first, rest, -⟩ := analyzeSubprogs_cons run
    obtain rfl := Except.ok.inj (added.symm.trans added')
    obtain ⟨v, found, offset⟩ := stabAddFunc_offset sound added pushed
    have sound₁ : st.Sound := (stabAddFunc_steps 0 sound added).sound sound
    have steps₁ := (analyzeSubprog_run d first).steps sound₁
    have after : StabSteps (acx.setSt st).table acx'.table :=
      steps₁.trans ((analyzeSubprogs_run _ rest).steps (steps₁.sound sound₁))
    obtain ⟨w, there, -, -, same⟩ := after.vars found
    exact ⟨w, there, same.trans offset⟩
  | later added first _ ih =>
    obtain ⟨st', acx₁, code₁, code₂, added', first', rest, -⟩ := analyzeSubprogs_cons run
    obtain rfl := Except.ok.inj (added.symm.trans added')
    cases Except.ok.inj (first.symm.trans first')
    have sound₁ := (stabAddFunc_steps 0 sound added).sound sound
    exact ih (((analyzeSubprog_run _ first).steps sound₁).sound sound₁) rest

theorem bindAll_of_mem {f : Name → Int} {ins : List (Name × Int)} {n : Name}
    (inside : n ∈ ins.map Prod.fst) : ∃ b ∈ ins, b.1 = n ∧ bindAll f ins n = b.2 := by
  induction ins generalizing f with
  | nil => cases inside
  | cons b ins ih =>
    by_cases again : n ∈ ins.map Prod.fst
    · obtain ⟨c, member, name, bound⟩ := @ih (fun n => if n = b.1 then b.2 else f n) again
      exact ⟨c, List.mem_cons_of_mem b member, name, bound⟩
    · have first : n = b.1 := (List.mem_cons.mp inside).resolve_right again
      refine ⟨b, List.mem_cons_self, first.symm, ?_⟩
      exact (bindAll_of_not_mem again).trans (if_pos first)

theorem FrameLayout.slotVar {st st' : Stab} {head : AstSig} {name : Name} {decls : List AstDecls}
    {retslot : Index} {off : Int} {formals locals : List StabVar} {ret : StabVar}
    (layout : FrameLayout st head name decls retslot off st' formals locals ret) :
    stabVar st' retslot = some ret := by
  rw [layout.slot]
  apply arenaGet_eq_some.mpr
  refine ⟨Int.natCast_nonneg _, ?_⟩
  rw [layout.vars, Int.toNat_natCast, ← List.append_assoc, ← List.append_assoc,
    ← List.length_append, ← List.length_append, List.getElem?_concat_length]

theorem FrameLayout.formal {st st' : Stab} {head : AstSig} {name : Name} {decls : List AstDecls}
    {retslot : Index} {off : Int} {formals locals : List StabVar} {ret : StabVar}
    (layout : FrameLayout st head name decls retslot off st' formals locals ret)
    (sizes : formals.map (fun v => (span st' v).size) = head.sizes) {i : Nat} {f : Name × AstType}
    (here : head.formals[i]? = some f) (other : f.1 ≠ name) :
    ∃ j v, st'.innermost.vars.lookup f.1 = j ∧ stabVar st' j = some v ∧
      v.stackBaseOffset = head.formalOffset i := by
  have named : (formals.map StabVar.name)[i]? = some f.1 := by
    have names : head.args.flatMap AstDecls.names = head.formals.map Prod.fst := by
      simp [AstSig.formals, List.map_flatMap, Function.comp_def]
    rw [layout.formalNames, names, List.getElem?_map, here]
    rfl
  rw [List.getElem?_map, Option.map_eq_some_iff] at named
  obtain ⟨v, found, same⟩ := named
  obtain ⟨low, laid⟩ := layout.down
  have inside : i < formals.length := (List.getElem?_eq_some_iff.mp found).1
  refine ⟨(st.vars.length + i : Nat), v, ?_, ?_, ?_⟩
  · rw [← same]
    exact layout.boundFormal i v found (same ▸ other)
  · apply arenaGet_eq_some.mpr
    refine ⟨Int.natCast_nonneg _, ?_⟩
    rw [layout.vars, Int.toNat_natCast, List.getElem?_append_right (Nat.le_add_right ..),
      Nat.add_sub_cancel_left, List.getElem?_append_left inside, found]
  · rw [laid.offset found, sizes, AstSig.formalOffset]

theorem Parts.formalCell_eq {d : AstSubdecl} {start inner : Acx} {retslot : Index} {off : Int}
    {nested own : List Insn} (parts : Parts d start inner retslot off nested own)
    (sound : start.st.Sound) (scalar : d.head.Scalar) {i : Nat} {f : Name × AstType}
    (here : d.head.formals[i]? = some f) :
    ∃ v, stabVar inner.st (stabResolveVar inner.st f.1) = some v ∧
      v.stackBaseOffset = d.formalCell (frameOffset inner.st retslot) i f.1 := by
  obtain ⟨acx, opened, ran⟩ := parts.nested
  have sound₁ : acx.st.Sound := (openSubprog_steps sound opened).sound sound
  have steps : StabSteps acx.table inner.table := (analyzeSubprogs_run _ ran).steps sound₁
  obtain ⟨st, entered, same, -⟩ := openSubprog_eq_ok.mp opened
  have table : acx.st = st := by rw [same]; rfl
  rw [← table] at entered
  obtain ⟨formals, locals, ret, layout⟩ := entered.frame
  obtain ⟨ins, inserts, names, signatures⟩ := analyzeSubprogs_enters sound₁ ran
  have resolves : ∀ j : Nat, inner.st.innermost.vars.lookup f.1 = j → stabResolveVar inner.st f.1 = j := by
    intro j bound
    rw [stabResolveVar_innermost (by rw [bound, resolveFailure]; omega), bound]
  unfold AstSubdecl.formalCell
  by_cases taken : f.1 ∈ signatureNames d.subprogs
  · rw [← names] at taken
    obtain ⟨b, member, -, bound⟩ := bindAll_of_mem (f := acx.st.innermost.vars.lookup) taken
    have low : 0 ≤ b.2 := Int.le_trans (Int.natCast_nonneg _) (inserts.fresh b member).1
    obtain ⟨j, natural⟩ := Int.eq_ofNat_of_zero_le low
    rw [← inserts.lookup, natural] at bound
    have signature := (signatures b.2).mpr (List.mem_map_of_mem member)
    rw [resolves j bound, ← natural]
    simp only [if_pos (names ▸ taken)]
    exact signature.offset sound₁ ran
  · have still : inner.st.innermost.vars.lookup f.1 = acx.st.innermost.vars.lookup f.1 := by
      rw [inserts.lookup]
      exact bindAll_of_not_mem (by rwa [names])
    simp only [if_neg taken]
    by_cases slot : f.1 = d.name
    · have bound := layout.boundSlot
      rw [← slot, ← still, layout.slot] at bound
      obtain ⟨w, there, -, -, -⟩ := steps.vars layout.slotVar
      rw [resolves _ bound, ← layout.slot]
      exact ⟨w, there, by rw [if_pos slot]; exact (frameOffset_eq there).symm⟩
    · obtain ⟨j, v, bound, found, offset⟩ :=
        layout.formal (layout.sizes entered scalar sound₁) here slot
      obtain ⟨w, there, -, -, kept⟩ := steps.vars found
      obtain ⟨k, natural⟩ := Int.eq_ofNat_of_zero_le (arenaGet_lt found).1
      rw [← still, natural] at bound
      rw [resolves k bound, ← natural, if_neg slot]
      exact ⟨w, there, kept.trans offset⟩

end Dragon
