import Dragon.Codegen.Tables
import Dragon.Library.Spans
import Dragon.Machine.State
import Dragon.Symbol.Layout

/-! The frame of a subprogram: its formals, locals and return slot, and the cells of the call.

The formals are numbered downwards from an offset that depends on the number of
declarations, the locals and the return slot upwards from zero. The call has put
the saved rbp at or above rbp, and the return address below it.
-/

set_option autoImplicit false

namespace Dragon

open Analysis ByteMemory Spans

/-! ## The variables of a frame -/

def frameVars (st st' : Stab) : List StabVar := st'.vars.drop st.vars.length

structure FrameLayout (st : Stab) (head : AstSig) (name : Name) (decls : List AstDecls)
    (retslot : Index) (off : Int) (st' : Stab) (formals locals : List StabVar) (ret : StabVar) :
    Prop where
  vars : st'.vars = st.vars ++ (formals ++ (locals ++ [ret]))
  formalNames : formals.map StabVar.name = head.args.flatMap AstDecls.names
  localNames : locals.map StabVar.name = decls.flatMap AstDecls.names
  retName : ret.name = name
  slot : retslot = (st.vars.length + formals.length + locals.length : Nat)
  down : ∃ low, Laid st' false (8 * (head.args.length + 1)) formals low
  up : Laid st' true 0 (locals ++ [ret]) off
  free : ∀ v ∈ formals ++ (locals ++ [ret]), v.captured = false
  boundFormal : ∀ (i : Nat) (v : StabVar), formals[i]? = some v → v.name ≠ name →
    st'.innermost.vars.lookup v.name = (st.vars.length + i : Nat)
  boundSlot : st'.innermost.vars.lookup name = retslot

theorem Opened.frame {st st' : Stab} {head : AstSig} {name : Name} {types : List AstTypeDecl}
    {decls : List AstDecls} {retslot : Index} {off : Int}
    (opened : Opened st head name types decls retslot off st') :
    ∃ formals locals ret, FrameLayout st head name decls retslot off st' formals locals ret := by
  obtain ⟨st₁, off₂, st₂, off₃, st₃, retty, st₄, added₁, added₂, added₃, result, added₄⟩ :=
    opened.steps
  obtain ⟨vars₁, -, -⟩ := stabAddAllTypes_keeps added₁
  obtain ⟨formals, declared₂, laid₂⟩ := stabAddAllDecls_frame added₂
  obtain ⟨locals, declared₃, laid₃⟩ := stabAddAllDecls_frame added₃
  have kept := stabResolveRetty_more result
  obtain ⟨t, found, rfl, rfl, rfl⟩ := stabAddVar_eq_ok.mp added₄
  have old : st₃.vars = st.vars ++ formals ++ locals := by
    rw [declared₃.vars_eq, declared₂.vars_eq, vars₁]
    rfl
  have length : st₄.vars.length = st.vars.length + formals.length + locals.length := by
    rw [kept.vars, old, List.length_append, List.length_append]
  generalize last : (st₄.pushVar ⟨retty, name, -1, off₃, false⟩).2.insertVar name st₄.vars.length = st'
  have types' : st₄.types = st'.types := by rw [← last]; rfl
  have lookup : ∀ n, st'.innermost.vars.lookup n =
      if n = name then (st₄.vars.length : Int) else st₃.innermost.vars.lookup n := by
    intro n
    rw [← last, ← kept.innermost]
    exact NameTable.lookup_insert ..
  refine ⟨formals, locals, ⟨retty, name, -1, off₃, false⟩, ?_, declared₂.names_eq,
    declared₃.names_eq, rfl, ?_, ?_, ?_, ?_, ?_, ?_⟩
  · rw [← List.append_assoc, ← List.append_assoc, ← old, ← kept.vars, ← last]
    rfl
  · rw [length]
  · refine ⟨off₂, laid₂.mono ?_⟩
    rw [← types']
    exact declared₃.types.trans kept.types
  · have one : Laid st' true off₃ [⟨retty, name, -1, off₃, false⟩]
        (off₃ + (if true then 1 else -1) * t.size) :=
      ⟨rfl, t, stabType_mono (types' ▸ List.prefix_rfl) found, rfl⟩
    exact (laid₃.mono (types' ▸ kept.types)).append one
  · intro v member
    simp only [List.mem_append, List.mem_singleton] at member
    rcases member with member | member | rfl
    · exact declared₂.unused v member
    · exact declared₃.unused v member
    · rfl
  · intro i v here other
    have outside : v.name ∉ decls.flatMap AstDecls.names := by
      intro again
      have fresh := declared₃.fresh v.name again
      rw [declared₂.bound i v here, resolveFailure] at fresh
      omega
    rw [lookup, if_neg other, declared₃.other _ outside, declared₂.bound i v here, vars₁]
    exact (Int.natCast_add _ _).symm
  · rw [lookup, if_pos rfl]

theorem FrameLayout.frameVars {st st' : Stab} {head : AstSig} {name : Name} {decls : List AstDecls}
    {retslot : Index} {off : Int} {formals locals : List StabVar} {ret : StabVar}
    (layout : FrameLayout st head name decls retslot off st' formals locals ret) :
    frameVars st st' = formals ++ (locals ++ [ret]) := by
  unfold Dragon.frameVars
  rw [layout.vars, List.drop_left]

/-! ## The cells of the call -/

/-- The frame offset of the rbp the caller saved, for a number of actuals. -/
def savedRbpOffset (count : Nat) : Int := if count = 0 then 8 else 0

def returnOffset : Int := -8

-- When control enters a subprogram, the caller's rbp is at its offset, and rsp, below which the
-- call instruction puts the return address, is rbp.
theorem enterCall_cells (env : Env) (f : Name) (count : Nat) (σ : State) :
    ∃ τ, runBlock env ((enterCall f count).take 3) σ = some τ ∧
      readWord τ.mem (τ.frame (savedRbpOffset count)) = σ.reg .rbp ∧ τ.reg .rsp = τ.reg .rbp := by
  have sp : RegName.rsp ≠ RegName.rbp := by decide
  have pushed : readWord (σ.push (σ.reg .rbp)).mem (below (σ.reg .rsp) 0) = σ.reg .rbp :=
    readWord_writeWord ..
  cases count with
  | zero =>
    -- the word below the saved rbp is for the result
    refine ⟨_, rfl, ?_, ?_⟩
    · simp only [State.frame, State.setReg_mem, State.alu_mem, State.setReg_reg_self]
      refine Eq.trans ?_ pushed
      congr 1
      have lowered : ((σ.push (σ.reg .rbp)).alu .sub .rsp (BitVec.ofInt 64 8)).reg .rsp =
          below (σ.reg .rsp) 0 - BitVec.ofInt 64 8 := State.alu_reg_self rfl
      rw [lowered]
      exact BitVec.sub_add_cancel _ _
    · rw [State.setReg_reg_self, State.setReg_reg_of_ne _ _ sp]
  | succ count =>
    refine ⟨_, rfl, ?_, ?_⟩
    · simp only [State.frame, State.setReg_mem, State.setReg_reg_self]
      refine Eq.trans ?_ pushed
      congr 1
      exact BitVec.add_zero _
    · rw [State.setReg_reg_self, State.setReg_reg_of_ne _ _ sp]

/-! ## Disjointness -/

/-- Scalars, pointers, and the void of a procedure. -/
def StabResolvedType.isPlain : StabResolvedType → Bool
  | .boolean | .char | .integer | .pointer _ | .real | .string | .void => true
  | .array .. | .func .. | .record _ => false

theorem TypeWell.size_pos {m i : Nat} {t : StabType} (well : TypeWell m i t)
    (plain : t.ty.isPlain = true) : 0 < t.size := by
  rcases well with builtin | made
  · have member := List.mem_of_getElem? builtin
    simp only [stabNew, List.mem_cons, List.not_mem_nil, or_false] at member
    rcases member with rfl | rfl | rfl | rfl | rfl | rfl <;> decide
  · cases made with
    | pointer => exact (by decide : (0 : Int) < abiPointerSize)
    | _ => cases plain

def span (st : Stab) (v : StabVar) : Span :=
  ⟨v.stackBaseOffset, ((stabType st v.type).map StabType.size).getD 0⟩

def savedRbp (count : Nat) : Span := ⟨savedRbpOffset count, 8⟩

def returnAddress : Span := ⟨returnOffset, 8⟩

/-- The variables of a frame share no byte, and none with the cells of the call. -/
def FrameDisjoint (st : Stab) (vars : List StabVar) (count : Nat) : Prop :=
  (vars.map (span st)).Pairwise Span.Apart ∧
    ∀ v ∈ vars, (span st v).Apart (savedRbp count) ∧ (span st v).Apart returnAddress

/-- Every variable has a type of the kinds that have a size. -/
def PlainVars (st : Stab) (vars : List StabVar) : Prop :=
  ∀ v ∈ vars, ∃ t, stabType st v.type = some t ∧ t.ty.isPlain = true

theorem PlainVars.size_pos {st : Stab} {vars : List StabVar} (sound : st.Sound)
    (plain : PlainVars st vars) {v : StabVar} (member : v ∈ vars) : 0 < (span st v).size := by
  obtain ⟨t, found, isPlain⟩ := plain v member
  obtain ⟨-, here⟩ := arenaGet_eq_some.mp found
  simp only [span, found, Option.map_some, Option.getD_some]
  exact (sound.types _ t here).size_pos isPlain

theorem Laid.chained {st : Stab} {off off' : Int} {vars : List StabVar}
    (laid : Laid st true off vars off') (sizes : ∀ v ∈ vars, 0 < (span st v).size) :
    Chained off (vars.map (span st)) off' := by
  induction vars generalizing off with
  | nil => exact laid
  | cons v vars ih =>
    obtain ⟨here, t, found, rest⟩ := laid
    have size : (span st v).size = t.size := by simp [span, found]
    refine ⟨here, Int.le_of_lt (sizes v List.mem_cons_self), ?_⟩
    rw [size]
    have same : (if true then (1 : Int) else -1) * t.size = t.size := Int.one_mul _
    rw [same] at rest
    exact ih rest fun w member => sizes w (List.mem_cons_of_mem v member)

theorem FrameLayout.disjoint_iff {st st' : Stab} {head : AstSig} {name : Name}
    {decls : List AstDecls} {retslot : Index} {off : Int} {formals locals : List StabVar}
    {ret : StabVar}
    (layout : FrameLayout st head name decls retslot off st' formals locals ret)
    (sound : st'.Sound) (plain : PlainVars st' (Dragon.frameVars st st')) :
    FrameDisjoint st' (Dragon.frameVars st st') head.formals.length ↔
      head.formals = [] ∧ ((Dragon.frameVars st st').map fun v => (span st' v).size).sum ≤ 8 := by
  have names : formals.length = head.formals.length := by
    have same := congrArg List.length layout.formalNames
    rw [List.length_map] at same
    rw [same]
    simp [AstSig.formals, List.length_flatMap]
  rw [layout.frameVars] at plain ⊢
  have sizes : ∀ v ∈ formals ++ (locals ++ [ret]), 0 < (span st' v).size :=
    fun v member => plain.size_pos sound member
  have chained : Chained 0 ((locals ++ [ret]).map (span st')) off :=
    layout.up.chained fun v member => sizes v (List.mem_append_right _ member)
  constructor
  · rintro ⟨-, cells⟩
    have none_ : head.formals = [] := by
      by_contra some_
      -- the first of the locals and the return slot starts at rbp, where the saved rbp is
      have count : head.formals.length ≠ 0 := fun zero => some_ (List.length_eq_zero_iff.mp zero)
      have total : 0 < off := by
        have inside := chained.bounds (List.mem_map_of_mem (List.mem_append_right locals
          (List.mem_singleton.mpr rfl)))
        have positive := sizes ret (by simp)
        omega
      obtain ⟨s, member, has⟩ := chained.covers (Int.le_refl 0) total
      obtain ⟨v, isVar, rfl⟩ := List.mem_map.mp member
      refine (cells v (List.mem_append_right _ isVar)).1 0 ⟨has, ?_⟩
      simp [Span.Has, savedRbp, savedRbpOffset, count]
    refine ⟨none_, ?_⟩
    by_contra large
    have empty : formals = [] := List.length_eq_zero_iff.mp (by rw [names, none_, List.length_nil])
    rw [empty, List.nil_append] at large
    have sum := chained.sum
    rw [List.map_map, Int.zero_add] at sum
    have above : 8 < off := by
      rw [sum]
      exact Int.not_le.mp large
    obtain ⟨s, member, has⟩ := chained.covers (by decide) above
    obtain ⟨v, isVar, rfl⟩ := List.mem_map.mp member
    refine (cells v (List.mem_append_right _ isVar)).1 8 ⟨has, ?_⟩
    simp [Span.Has, savedRbp, savedRbpOffset, none_]
  · rintro ⟨none_, small⟩
    have empty : formals = [] := List.length_eq_zero_iff.mp (by rw [names, none_, List.length_nil])
    rw [empty, List.nil_append] at small ⊢
    have sum := chained.sum
    rw [List.map_map, Int.zero_add] at sum
    have total : off ≤ 8 := by
      rw [sum]
      exact small
    refine ⟨chained.apart, ?_⟩
    intro v member
    have inside := chained.bounds (List.mem_map_of_mem member)
    constructor
    · apply Span.apart_of_le
      simp only [savedRbp, savedRbpOffset, none_, List.length_nil, if_true]
      omega
    · apply Span.Apart.symm
      apply Span.apart_of_le
      simp only [returnAddress, returnOffset]
      omega

theorem AstProgram.Visits.disjoint_iff {prog : AstProgram} {path : List Nat} {d : AstSubdecl}
    {start acx₁ : Acx} {before opening : List Insn} {retslot : Index} {off : Int}
    (visits : prog.Visits path d start before)
    (opened : openSubprog d.head d.name d.types d.decls start = .ok ((retslot, off), acx₁, opening))
    (plain : PlainVars acx₁.st (frameVars start.st acx₁.st)) :
    FrameDisjoint acx₁.st (frameVars start.st acx₁.st) d.head.formals.length ↔
      d.head.formals = [] ∧
        ((frameVars start.st acx₁.st).map fun v => (span acx₁.st v).size).sum ≤ 8 := by
  have steps : StabSteps start.table acx₁.table := openSubprog_steps visits.sound opened
  have sound : acx₁.st.Sound := steps.sound visits.sound
  obtain ⟨st, entered, rfl, -⟩ := openSubprog_eq_ok.mp opened
  obtain ⟨formals, locals, ret, layout⟩ := entered.frame
  exact layout.disjoint_iff sound plain

/-- For every subprogram of an accepted program whose formals, locals and result are all scalars or
pointers, the frame cells are disjoint just when it has no formals and the locals and the return
slot take at most eight bytes. -/
theorem frameDisjoint_iff (prog : AstProgram) (acx : Acx) (code : List Insn)
    (accepted : analyze prog = .ok (acx, code)) (path : List Nat) (d : AstSubdecl)
    (declared : prog.subprogAt path = some d) :
    (∃ start before, prog.Visits path d start before) ∧
    ∀ start before retslot off acx₁ opening, prog.Visits path d start before →
      openSubprog d.head d.name d.types d.decls start = .ok ((retslot, off), acx₁, opening) →
      PlainVars acx₁.st (frameVars start.st acx₁.st) →
        (FrameDisjoint acx₁.st (frameVars start.st acx₁.st) d.head.formals.length ↔
          d.head.formals = [] ∧
            ((frameVars start.st acx₁.st).map fun v => (span acx₁.st v).size).sum ≤ 8) := by
  constructor
  · obtain ⟨start, before, _, _, _, _, _, _, visits, -⟩ := analyze_visits accepted declared
    exact ⟨start, before, visits⟩
  · intro start before retslot off acx₁ opening visits opened plain
    exact visits.disjoint_iff opened plain

-- procedure p(a: integer); begin end
def unaryDecl : AstSubdecl := .mk ⟨.procedure, [⟨["a"], .integer⟩], none⟩ "p" [] [] [] .null

def unaryProgram : AstProgram := ⟨[], [], [unaryDecl], [], .null⟩

def firstFrame (prog : AstProgram) (d : AstSubdecl) : Except Stop (Stab × Stab) := do
  let (_, acx, _) ← openProgram prog initialAcx
  let st ← stabAddFunc acx.st d.name d.head
  let (_, acx₁, _) ← openSubprog d.head d.name d.types d.decls (acx.setSt st)
  return (st, acx₁.st)

theorem unary_opened : ∃ start retslot off acx₁ before opening,
    unaryProgram.Visits [0] unaryDecl start before ∧
    openSubprog unaryDecl.head unaryDecl.name unaryDecl.types unaryDecl.decls start =
      .ok ((retslot, off), acx₁, opening) ∧
    PlainVars acx₁.st (frameVars start.st acx₁.st) := by
  have facts : (firstFrame unaryProgram unaryDecl).toOption.map (fun r =>
      (frameVars r.1 r.2).all fun v => (stabType r.2 v.type).any fun t => t.ty.isPlain) =
        some true := by
    decide +kernel
  cases result : firstFrame unaryProgram unaryDecl with
  | error s => simp [result, Except.toOption] at facts
  | ok r =>
    simp only [result, Except.toOption, Option.map_some, Option.some.injEq] at facts
    simp only [firstFrame, except_bind_eq_ok] at result
    obtain ⟨⟨off₀, acx₀, opening₀⟩, program, st, added, ⟨⟨retslot, off⟩, acx₁, opening⟩, opened, last⟩ :=
      result
    cases last
    refine ⟨acx₀.setSt st, retslot, off, acx₁, opening₀ ++ [], opening,
      ⟨off₀, acx₀, opening₀, [], program, .here added, rfl⟩, opened, ?_⟩
    intro v member
    have plain := List.all_eq_true.mp facts v member
    obtain ⟨t, found, isPlain⟩ := (Option.any_eq_true _ _).mp plain
    exact ⟨t, found, isPlain⟩

theorem unary_accepted : ∃ acx code, analyze unaryProgram = .ok (acx, code) := by
  have accepted : (analyze unaryProgram).toBool = true := by decide +kernel
  cases result : analyze unaryProgram with
  | error s =>
    rw [result] at accepted
    cases accepted
  | ok r => exact ⟨r.1, r.2, rfl⟩

theorem unary_frameDisjoint_iff : ∃ start acx₁ : Acx,
    PlainVars acx₁.st (frameVars start.st acx₁.st) ∧
    (FrameDisjoint acx₁.st (frameVars start.st acx₁.st) 1 ↔ unaryDecl.head.formals = [] ∧
      ((frameVars start.st acx₁.st).map fun v => (span acx₁.st v).size).sum ≤ 8) := by
  obtain ⟨acx, code, accepted⟩ := unary_accepted
  obtain ⟨start, retslot, off, acx₁, before, opening, visits, opened, plain⟩ := unary_opened
  exact ⟨start, acx₁, plain, (frameDisjoint_iff unaryProgram acx code accepted [0] unaryDecl rfl).2
    start before retslot off acx₁ opening visits opened plain⟩

-- The return slot of a procedure with a formal lies on the saved rbp.
theorem not_forall_frameDisjoint : ¬ ∀ (prog : AstProgram) (acx : Acx) (code : List Insn),
    analyze prog = .ok (acx, code) → ∀ (path : List Nat) (d : AstSubdecl),
      prog.subprogAt path = some d → ∀ start before retslot off acx₁ opening,
        prog.Visits path d start before →
        openSubprog d.head d.name d.types d.decls start = .ok ((retslot, off), acx₁, opening) →
        PlainVars acx₁.st (frameVars start.st acx₁.st) →
          FrameDisjoint acx₁.st (frameVars start.st acx₁.st) d.head.formals.length := by
  intro all
  obtain ⟨acx, code, accepted⟩ := unary_accepted
  obtain ⟨start, retslot, off, acx₁, before, opening, visits, opened, plain⟩ := unary_opened
  have disjoint := all unaryProgram acx code accepted [0] unaryDecl rfl start before retslot off acx₁
    opening visits opened plain
  cases ((visits.disjoint_iff opened plain).mp disjoint).1

end Dragon
