import Dragon.Codegen.Tables
import Dragon.Machine.State
import Dragon.Symbol.Layout
import Dragon.Symbol.Steps

/-! Where an array element is.

EXPR_IDX has the address of the array in one register and the index in another,
and returns the second one. The size of an array type has no room for its last
element.
-/

set_option autoImplicit false

namespace Dragon

open Analysis Stab

/-! ## The declaration -/

theorem takeWhile_eq_self {α : Type} {p : α → Bool} {l : List α} (all : l.all p = true) :
    l.takeWhile p = l := by
  induction l with
  | nil => rfl
  | cons a l ih =>
    rw [List.all_cons, Bool.and_eq_true] at all
    rw [List.takeWhile_cons_of_pos all.1, ih all.2]

theorem atoi_of_decimal {lit : Name} {n : Nat} (digits : decimal lit = some n) : atoi lit = n := by
  unfold decimal at digits
  split at digits
  next only =>
    cases digits
    unfold atoi
    rw [takeWhile_eq_self only.2]
  next => cases digits

def scalarSize : AstType → Option Int
  | .integer | .real => some 8
  | .string => some abiPointerSize
  | .boolean | .char => some 1
  | _ => none

theorem scalarSize_pos {t : AstType} {size : Int} (scalar : scalarSize t = some size) : 0 < size := by
  cases t <;> cases scalar <;> decide

/-- The size that the table has for the type of a variable. stab_add_var moves the frame offset
by it, and so reserves as many bytes. -/
def slotSize (st : Stab) (v : StabVar) : Option Int := (stabType st v.type).map StabType.size

theorem stabResolveType_scalar {st st' : Stab} {t : AstType} {size : Int} {i : Index}
    (builtin : stabNew.types <+: st.types) (scalar : scalarSize t = some size)
    (resolved : stabResolveType st t = .ok (i, st')) :
    st' = st ∧ ∃ u, stabType st i = some u ∧ u.size = size := by
  have known : ∀ {i : Index} {u : StabType}, stabType stabNew i = some u → stabType st i = some u :=
    stabType_mono builtin
  cases t <;> cases scalar <;> cases resolved
  all_goals exact ⟨rfl, _, known rfl, rfl⟩

theorem stabAddDecls_array {st st' : Stab} {names : List Name} {lower upper : Name} {elt : AstType}
    {l u : Nat} {size off off' : Int} {up : Bool} (sound : st.Sound)
    (scalar : scalarSize elt = some size) (low : decimal lower = some l)
    (high : decimal upper = some u)
    (declared : stabAddDecls st ⟨names, .array lower upper elt⟩ off up = .ok (off', st'))
    {name : Name} (member : name ∈ names) :
    ∃ v, stabVar st' (st'.innermost.vars.lookup name) = some v ∧
      slotSize st' v = some (size * (u - l)) := by
  simp only [stabAddDecls, stabResolveType, except_bind_eq_ok] at declared
  obtain ⟨⟨type, st₁⟩, ⟨⟨i, st₂⟩, element, array⟩, added⟩ := declared
  obtain ⟨rfl, t, found, rfl⟩ := stabResolveType_scalar sound.builtin scalar element
  simp only [found] at array
  cases array
  obtain ⟨vars, declares, -, types, all⟩ := stabAddNames_laid added
  rw [← declares.names_eq] at member
  obtain ⟨v, inside, rfl⟩ := List.mem_map.mp member
  obtain ⟨k, small, rfl⟩ := List.mem_iff_getElem.mp inside
  have here := List.getElem?_eq_getElem small
  have bound := declares.bound k _ here
  refine ⟨vars[k], ?_, ?_⟩
  · rw [bound]
    apply arenaGet_eq_some.mpr
    refine ⟨Int.add_nonneg (Int.natCast_nonneg _) (Int.natCast_nonneg _), ?_⟩
    rw [← Int.natCast_add, Int.toNat_natCast, declares.vars_eq, List.getElem?_append_right (by omega)]
    rw [Nat.add_sub_cancel_left]
    exact here
  · have same : vars[k].type = (st₂.types.length : Int) := by
      have each : ∀ i ∈ vars.map StabVar.type, i = (st₂.types.length : Int) := by
        rw [all]
        intro i among
        obtain ⟨n, -, rfl⟩ := List.mem_map.mp among
        rfl
      exact each _ (List.mem_map_of_mem inside)
    have type : stabType st' vars[k].type =
        some ⟨.array (atoi lower) (atoi upper) i, t.size * (atoi upper - atoi lower), none⟩ := by
      rw [same]
      apply arenaGet_eq_some.mpr
      refine ⟨Int.natCast_nonneg _, ?_⟩
      rw [types, Int.toNat_natCast]
      exact List.getElem?_concat_length ..
    rw [slotSize, type, Option.map_some, atoi_of_decimal low, atoi_of_decimal high]

/-! ## The code of an element -/

def arrayAddress (env : Env) (st : Stab) (name : Name) (v : StabVar) (σ : State) : BitVec 64 :=
  if stabHasLocalVar st name then σ.frame v.stackBaseOffset
  else ByteMemory.readWord σ.mem (env.display + BitVec.ofInt 64 (v.dispOffset * abiPointerAlign))

def IndexValue (env : Env) (acx : Acx) (name : Name) (e : AstExpr) (σ : State) (x : BitVec 64) :
    Prop :=
  ∃ pathty acx₁ code₁ ety acx₂ code₂ σ₁ τ,
    typeOfPath (astPath name) false acx = .ok (pathty, acx₁, code₁) ∧
    analyzeExpr e true acx₁ = .ok (ety, acx₂, code₂) ∧ runBlock env code₁ σ = some σ₁ ∧
    runBlock env code₂ σ₁ = some τ ∧ τ.reg ety.reg.name = x

/-- The bytes of an element, from the start of its array on: the first one, and the one after the
last. -/
def elementBytes (l size i : Int) : Int × Int := ((i - l) * size, (i - l) * size + size)

/-- The code of an element leaves its address in the returned register; the elements of an array
have no byte in common and are inside its slot. -/
structure ElementRight (env : Env) (address x : BitVec 64) (l u : Nat) (size slot : Int)
    (code : List Insn) (r : Resu) (σ : State) : Prop where
  addressed : ∃ τ, runBlock env code σ = some τ ∧
    τ.reg r.reg.name = address + (x - BitVec.ofNat 64 l) * BitVec.ofInt 64 size
  apart : ∀ i j : Int, l ≤ i → i < j → j ≤ u →
    (elementBytes l size i).2 ≤ (elementBytes l size j).1 ∧ 0 ≤ (elementBytes l size i).1 ∧
      (elementBytes l size j).2 ≤ slot

theorem analyzeExpr_idx {p : AstPath} {e : AstExpr} {acx acx' : Acx} {r : Resu} {code : List Insn}
    (run : analyzeExpr (.idx p e) false acx = .ok (r, acx', code)) :
    ∃ pathty acx₁ code₁ ety code₂, typeOfPath p false acx = .ok (pathty, acx₁, code₁) ∧
      analyzeExpr e true acx₁ = .ok (ety, acx', code₂) ∧ r.reg = ety.reg ∧ code = code₁ ++ code₂ := by
  have run := analyzeExpr_run _ run
  cases run with
  | idx path found array index integer =>
    have accepted := path.accepted
    obtain ⟨r', single, again⟩ := index.accepted
    cases single
    refine ⟨_, _, _, _, _, accepted, again, rfl, ?_⟩
    simp

theorem IndexValue.returned {env : Env} {acx acx' : Acx} {name : Name} {e : AstExpr} {σ : State}
    {x : BitVec 64} {r : Resu} {code : List Insn} (value : IndexValue env acx name e σ x)
    (run : analyzeExpr (.idx (astPath name) e) false acx = .ok (r, acx', code)) :
    ∃ τ, runBlock env code σ = some τ ∧ τ.reg r.reg.name = x := by
  obtain ⟨pathty, acx₁, code₁, ety, acx₂, code₂, σ₁, τ, path, index, first, second, rfl⟩ := value
  obtain ⟨pathty', acx₁', code₁', ety', code₂', path', index', same, rfl⟩ := analyzeExpr_idx run
  cases path.symm.trans path'
  cases index.symm.trans index'
  exact ⟨τ, runBlock_append_some first second, by rw [same]⟩

/-- The code of an element leaves the index itself: it is right for an array of one element, in a
state in which the index is the address of that element. -/
theorem elementRight_iff (st st' : Stab) (names : List Name) (lower upper : Name) (elt : AstType)
    (l u : Nat) (size off off' : Int) (up : Bool) (name : Name) (e : AstExpr) (acx acx' : Acx)
    (r : Resu) (code : List Insn) (env : Env) (σ : State) (x : BitVec 64) (sound : st.Sound)
    (scalar : scalarSize elt = some size) (low : decimal lower = some l)
    (high : decimal upper = some u) (ordered : l ≤ u)
    (declared : stabAddDecls st ⟨names, .array lower upper elt⟩ off up = .ok (off', st'))
    (member : name ∈ names) (d : Int) (later : StabSteps (st', d) acx.table)
    (resolved : stabResolveVar acx.st name = st'.innermost.vars.lookup name)
    (accepted : analyzeExpr (.idx (astPath name) e) false acx = .ok (r, acx', code))
    (value : IndexValue env acx name e σ x) :
    ∃ v slot, stabVar acx'.st (stabResolveVar acx.st name) = some v ∧ slotSize acx'.st v = some slot ∧
      (ElementRight env (arrayAddress env acx'.st name v σ) x l u size slot code r σ ↔
        l = u ∧ x = arrayAddress env acx'.st name v σ +
          (x - BitVec.ofNat 64 l) * BitVec.ofInt 64 size) := by
  have steps : StabSteps (st', d) acx'.table := later.trans (analyzeExpr_run _ accepted).steps
  obtain ⟨v₀, bound, bytes⟩ := stabAddDecls_array sound scalar low high declared member
  obtain ⟨v, found, -, type, -⟩ := steps.vars bound
  have slot : slotSize acx'.st v = some (size * (u - l)) := by
    unfold slotSize at bytes ⊢
    obtain ⟨t, there, bytes⟩ := Option.map_eq_some_iff.mp bytes
    have still : stabType acx'.st v₀.type = some t :=
      stabType_mono (StabSteps.grows steps).types there
    rw [type, still, ← bytes]
    rfl
  rw [← resolved] at found
  refine ⟨v, _, found, slot, ?_⟩
  obtain ⟨τ, run, leaves⟩ := value.returned accepted
  constructor
  · intro right
    obtain ⟨τ', run', address⟩ := right.addressed
    cases run.symm.trans run'
    refine ⟨?_, leaves.symm.trans address⟩
    by_contra other
    -- the last element ends behind the slot
    have apart := right.apart l u (Int.le_refl _) (Int.ofNat_lt.mpr (by omega)) (Int.le_refl _)
    have inside := apart.2.2
    simp only [elementBytes] at inside
    rw [Int.mul_comm] at inside
    have positive := scalarSize_pos scalar
    omega
  · rintro ⟨rfl, coincides⟩
    refine ⟨⟨τ, run, leaves.trans coincides⟩, ?_⟩
    intro i j low less high
    omega

structure ElementParts where
  result : RegName
  path : List Insn
  index : List Insn
  resolved : Int
  bound : Int
  isLocal : Bool
  offset : Option Int
  deriving DecidableEq

-- The code for a[7], with a declared as an array in an empty table.
def seventhElement (lower upper : Name) (elt : AstType) : Except Stop ElementParts := do
  let (_, st) ← stabAddDecls stabNew ⟨["a"], .array lower upper elt⟩ 0 true
  let (_, acx₁, code₁) ← typeOfPath (astPath "a") false (initialAcx.setSt st)
  let (ety, _, code₂) ← analyzeExpr (.lit "7") true acx₁
  let (_, acx, _) ← analyzeExpr (.idx (astPath "a") (.lit "7")) false (initialAcx.setSt st)
  .ok ⟨ety.reg.name, code₁, code₂, stabResolveVar st "a", st.innermost.vars.lookup "a",
    stabHasLocalVar acx.st "a", (stabVar acx.st 0).map StabVar.stackBaseOffset⟩

structure Seventh (lower upper : Name) (elt : AstType) (off' : Int) (st' : Stab) (r : Resu)
    (acx' : Acx) (code : List Insn) : Prop where
  declared : stabAddDecls stabNew ⟨["a"], .array lower upper elt⟩ 0 true = .ok (off', st')
  accepted : analyzeExpr (.idx (astPath "a") (.lit "7")) false (initialAcx.setSt st') =
    .ok (r, acx', code)
  value : IndexValue noCalls (initialAcx.setSt st') "a" (.lit "7") zeroState 7
  resolved : stabResolveVar st' "a" = st'.innermost.vars.lookup "a"
  address : ∀ v, stabVar acx'.st (stabResolveVar st' "a") = some v →
    arrayAddress noCalls acx'.st "a" v zeroState = 0

theorem exists_seventh {lower upper : Name} {elt : AstType}
    (result : (seventhElement lower upper elt).toOption =
      some ⟨.rcx, [.lea .rbx 0], [.movLit .rcx "7"], 0, 0, true, some 0⟩) :
    ∃ off' st' r acx' code, Seventh lower upper elt off' st' r acx' code := by
  cases parts : seventhElement lower upper elt with
  | error s =>
    rw [parts] at result
    cases result
  | ok found =>
    rw [parts] at result
    unfold seventhElement at parts
    obtain ⟨⟨off', st'⟩, declared, parts⟩ := except_bind_eq_ok.mp parts
    obtain ⟨⟨pathty, acx₁, code₁⟩, path, parts⟩ := except_bind_eq_ok.mp parts
    obtain ⟨⟨ety, acx₂, code₂⟩, index, parts⟩ := except_bind_eq_ok.mp parts
    obtain ⟨⟨r, acx', code⟩, accepted, last⟩ := except_bind_eq_ok.mp parts
    rw [← Except.ok.inj last] at result
    simp only [Except.toOption, Option.some.injEq, ElementParts.mk.injEq] at result
    obtain ⟨reg, rfl, rfl, zero, zero', isLocal, offset⟩ := result
    refine ⟨off', st', r, acx', code, declared, accepted, ?_, zero.trans zero'.symm, ?_⟩
    · refine ⟨pathty, acx₁, _, ety, acx₂, _, _, _, path, index, rfl, rfl, ?_⟩
      rw [reg]
      decide
    · intro v found
      rw [zero] at found
      rw [found] at offset
      rw [arrayAddress, if_pos isLocal, Option.some.inj offset]
      decide

theorem seventhElement_right : ∃ st' r acx' code v slot,
    analyzeExpr (.idx (astPath "a") (.lit "7")) false (initialAcx.setSt st') = .ok (r, acx', code) ∧
    ElementRight noCalls (arrayAddress noCalls acx'.st "a" v zeroState) 7 0 0 1 slot code r zeroState := by
  obtain ⟨off', st', r, acx', code, a⟩ := @exists_seventh "0" "0" .char (by decide +kernel)
  obtain ⟨v, slot, found, -, same⟩ := elementRight_iff stabNew st' ["a"] "0" "0" .char 0 0 1 0 off'
    true "a" (.lit "7") (initialAcx.setSt st') acx' r code noCalls zeroState 7 sound_stabNew rfl rfl
    rfl (Nat.le_refl 0) a.declared (List.mem_singleton_self _) 0 .refl a.resolved a.accepted a.value
  refine ⟨st', r, acx', code, v, slot, a.accepted, same.mpr ⟨rfl, ?_⟩⟩
  rw [a.address v found]
  decide

-- a[7] of an array [1 .. 9] of integers has no right code.
theorem not_forall_elementRight : ¬ ∀ (st st' : Stab) (names : List Name) (lower upper : Name)
    (elt : AstType) (l u : Nat) (size off off' : Int) (up : Bool) (name : Name) (e : AstExpr)
    (acx acx' : Acx) (r : Resu) (code : List Insn) (env : Env) (σ : State) (x : BitVec 64),
    st.Sound → scalarSize elt = some size → decimal lower = some l → decimal upper = some u → l ≤ u →
    stabAddDecls st ⟨names, .array lower upper elt⟩ off up = .ok (off', st') → name ∈ names →
    ∀ d : Int, StabSteps (st', d) acx.table →
    stabResolveVar acx.st name = st'.innermost.vars.lookup name →
    analyzeExpr (.idx (astPath name) e) false acx = .ok (r, acx', code) →
    IndexValue env acx name e σ x →
    ∃ v slot, stabVar acx'.st (stabResolveVar acx.st name) = some v ∧ slotSize acx'.st v = some slot ∧
      ElementRight env (arrayAddress env acx'.st name v σ) x l u size slot code r σ := by
  intro all
  obtain ⟨off', st', r, acx', code, a⟩ := @exists_seventh "1" "9" .integer (by decide +kernel)
  obtain ⟨v, slot, found, -, right⟩ := all stabNew st' ["a"] "1" "9" .integer 1 9 8 0 off' true "a"
    (.lit "7") (initialAcx.setSt st') acx' r code noCalls zeroState 7 sound_stabNew rfl rfl rfl
    (by decide) a.declared (List.mem_singleton_self _) 0 .refl a.resolved a.accepted a.value
  obtain ⟨τ, run, leaves⟩ := a.value.returned a.accepted
  obtain ⟨τ', run', address⟩ := right.addressed
  cases run.symm.trans run'
  rw [leaves, a.address v found] at address
  revert address
  decide

end Dragon
