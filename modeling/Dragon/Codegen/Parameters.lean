import Dragon.Codegen.CallFrames
import Dragon.Codegen.FormalCells

/-! Where actuals are pushed and where formals are looked for.

The actuals are pushed as words one below the other, and rbp points below the
last one. What the code of an actual or a spilled result register leaves on the
stack comes between.
-/

set_option autoImplicit false

namespace Dragon

open Analysis ByteMemory

/-! ## The slots of the actuals -/

/-- How an actual was passed: the address it was pushed at, and by how many bytes the code that
computed it had moved the stack down. -/
structure Passing where
  slot : BitVec 64
  moved : BitVec 64

inductive PassesAll (env : Env) : List AstExpr → Acx → State → List Passing → Acx → State → Prop where
  | nil {acx : Acx} {σ : State} : PassesAll env [] acx σ [] acx σ
  | cons {e : AstExpr} {args : List AstExpr} {acx acx₁ acx₂ : Acx} {et : Resu} {code : List Insn}
      {σ τ υ ω : State} {passed : List Passing} (value : analyzeExpr e true acx = .ok (et, acx₁, code))
      (ran : runBlock env code σ = some τ) (pushed : exec env (.push et.reg.name) τ = some υ)
      (rest : PassesAll env args acx₁ υ passed acx₂ ω) :
      PassesAll env (e :: args) acx σ (⟨υ.reg .rsp, σ.reg .rsp - τ.reg .rsp⟩ :: passed) acx₂ ω

/-- A run of a call up to the line that calls. The result register is the last thing that can move
the stack, by the bytes in spare. -/
structure CallPasses (env : Env) (args : List AstExpr) (acx : Acx) (σ : State) (passed : List Passing)
    (spare : BitVec 64) (entered : State) : Prop where
  run : ∃ acx₁ σ₁ σ₂ σ₃, runBlock env (acx.rs.saved.map fun i => .push (REGS i)) σ = some σ₁ ∧
    PassesAll env args acx σ₁ passed acx₁ σ₂ ∧ runBlock env acx₁.rs.gimme.2.2 σ₂ = some σ₃ ∧
    spare = σ₂.reg .rsp - σ₃.reg .rsp ∧ σ₃.enter args.length = entered

def movedBy (passed : List Passing) : BitVec 64 := passed.foldr (fun p below_ => p.moved + below_) 0#64

theorem movedBy_cons (p : Passing) (passed : List Passing) :
    movedBy (p :: passed) = p.moved + movedBy passed := rfl

theorem PassesAll.length {env : Env} {args : List AstExpr} {acx acx' : Acx} {σ τ : State}
    {passed : List Passing} (passes : PassesAll env args acx σ passed acx' τ) :
    passed.length = args.length := by
  induction passes with
  | nil => rfl
  | cons _ _ _ _ ih => rw [List.length_cons, List.length_cons, ih]

theorem exec_push_rsp {env : Env} {r : RegName} {σ τ : State} (pushed : exec env (.push r) σ = some τ) :
    τ.reg .rsp = σ.reg .rsp - 8 := by
  unfold exec at pushed
  split at pushed
  · cases pushed
  · cases pushed
    exact σ.push_rsp _

theorem PassesAll.rsp {env : Env} {args : List AstExpr} {acx acx' : Acx} {σ τ : State}
    {passed : List Passing} (passes : PassesAll env args acx σ passed acx' τ) :
    σ.reg .rsp = τ.reg .rsp + (BitVec.ofNat 64 (8 * passed.length) + movedBy passed) := by
  induction passes with
  | nil => simp [movedBy]
  | @cons _ _ _ _ _ _ _ σ τ υ ω passed _ _ pushed _ ih =>
    have one := exec_push_rsp pushed
    have words : BitVec.ofNat 64 (8 * (passed.length + 1)) =
        BitVec.ofNat 64 (8 * passed.length) + 8 := by
      rw [Nat.mul_succ, BitVec.ofNat_add]
      rfl
    rw [List.length_cons, words, movedBy_cons]
    grind

theorem PassesAll.slot {env : Env} {args : List AstExpr} {acx acx' : Acx} {σ τ : State}
    {passed : List Passing} (passes : PassesAll env args acx σ passed acx' τ) {i : Nat} {p : Passing}
    (here : passed[i]? = some p) :
    p.slot = τ.reg .rsp +
      (BitVec.ofNat 64 (8 * (passed.length - (i + 1))) + movedBy (passed.drop (i + 1))) := by
  induction passes generalizing i with
  | nil => cases here
  | cons _ _ _ rest ih =>
    cases i with
    | zero =>
      cases here
      simpa using rest.rsp
    | succ i =>
      have later := ih here
      simpa using later

theorem Run.passesAll {env : Env} {args : List AstExpr} {formals : List Index} {acx acx' : Acx}
    {results : List Resu} {code : List Insn} {σ τ : State}
    (run : Run (.actuals args formals) acx results acx' code) (ran : runBlock env code σ = some τ) :
    ∃ passed, PassesAll env args acx σ passed acx' τ := by
  induction args generalizing formals acx results code σ with
  | nil =>
    cases run
    cases ran
    exact ⟨[], .nil⟩
  | cons e args ih =>
    cases run with
    | actual value _ _ rest =>
      rw [runBlock_append, Option.bind_eq_some_iff] at ran
      obtain ⟨σ₁, computed, ran⟩ := ran
      rw [runBlock_cons, Option.bind_eq_some_iff] at ran
      obtain ⟨σ₂, pushed, ran⟩ := ran
      obtain ⟨passed, passes⟩ := ih rest ran
      exact ⟨_, .cons value.expr_accepted computed pushed passes⟩

theorem CallEntered.passes {env : Env} {p : AstPath} {args : List AstExpr} {acx acx' : Acx} {r : Resu}
    {code : List Insn} {σ entered : State}
    (called : CallEntered env p.first code σ entered)
    (accepted : analyzeCall p (analyzeArgs args) acx = .ok (r, acx', code))
    (subprog : isMagic acx.st p = false) : ∃ passed spare, CallPasses env args acx σ passed spare entered := by
  obtain ⟨formals, results, acx₁, code₁, run, rfl, -⟩ := analyzeCall_lines accepted subprog
  obtain ⟨σ₃, upTo, enter⟩ := called.upTo
  rw [runBlock_append, Option.bind_eq_some_iff] at upTo
  obtain ⟨σ₂, upTo, result⟩ := upTo
  rw [runBlock_append, Option.bind_eq_some_iff] at upTo
  obtain ⟨σ₁, saves, ran⟩ := upTo
  obtain ⟨passed, passes⟩ := run.passesAll ran
  exact ⟨passed, _, acx₁, σ₁, σ₂, σ₃, saves, passes, result, rfl, enter⟩

theorem State.enter_rbp_below (σ : State) {count : Nat} (some_ : count ≠ 0) :
    (σ.enter count).reg .rbp = σ.reg .rsp - 8 := by
  rw [State.enter, if_neg some_, State.setReg_reg_self]
  exact σ.push_rsp _

theorem CallPasses.slot {env : Env} {args : List AstExpr} {acx : Acx} {σ entered : State}
    {passed : List Passing} {spare : BitVec 64} (passes : CallPasses env args acx σ passed spare entered)
    {i : Nat} {p : Passing} (here : passed[i]? = some p) :
    p.slot = entered.reg .rbp +
      (BitVec.ofNat 64 (8 * (args.length - i)) + (movedBy (passed.drop (i + 1)) + spare)) := by
  obtain ⟨acx₁, σ₁, σ₂, σ₃, -, all, -, rfl, rfl⟩ := passes.run
  have length := all.length
  have inside := (List.getElem?_eq_some_iff.mp here).1
  have words : BitVec.ofNat 64 (8 * (args.length - i)) =
      BitVec.ofNat 64 (8 * (args.length - (i + 1))) + 8 := by
    have more : 8 * (args.length - i) = 8 * (args.length - (i + 1)) + 8 := by omega
    rw [more, BitVec.ofNat_add]
    rfl
  rw [all.slot here, length, σ₃.enter_rbp_below (by omega), words]
  grind

/-- In the state the callee is entered in, each actual is in the cell that the name of its formal
stands for in the body. -/
def SlotsMeet (d : AstSubdecl) (inner : Acx) (passed : List Passing) (entered : State) : Prop :=
  ∀ (i : Nat) (f : Name × AstType) (p : Passing), d.head.formals[i]? = some f → passed[i]? = some p →
    ∃ v, stabVar inner.st (stabResolveVar inner.st f.1) = some v ∧
      p.slot = entered.frame v.stackBaseOffset

/-- Each formal is declared as many bytes above rbp as the actuals from its own on take, with what
was moved between. -/
def AstSubdecl.Fits (d : AstSubdecl) (ret : Int) (passed : List Passing) (spare : BitVec 64) : Prop :=
  ∀ (i : Nat) (f : Name × AstType), d.head.formals[i]? = some f →
    BitVec.ofInt 64 (d.formalCell ret i f.1) =
      BitVec.ofNat 64 (8 * (d.head.formals.length - i)) + (movedBy (passed.drop (i + 1)) + spare)

theorem Parts.meet_iff_fits {d : AstSubdecl} {start inner : Acx} {retslot : Index} {off : Int}
    {nested own : List Insn} (parts : Parts d start inner retslot off nested own)
    (sound : start.st.Sound) (scalar : d.head.Scalar) {env : Env} {args : List AstExpr} {acx : Acx}
    {σ entered : State} {passed : List Passing} {spare : BitVec 64}
    (passes : CallPasses env args acx σ passed spare entered)
    (count : args.length = d.head.formals.length) :
    SlotsMeet d inner passed entered ↔ d.Fits (frameOffset inner.st retslot) passed spare := by
  have length : passed.length = d.head.formals.length := by
    obtain ⟨_, _, _, _, -, all, -⟩ := passes.run
    exact all.length.trans count
  constructor
  · intro meet i f here
    have inside : i < passed.length := length ▸ (List.getElem?_eq_some_iff.mp here).1
    obtain ⟨v, found, slot⟩ := meet i f _ here (List.getElem?_eq_getElem inside)
    obtain ⟨w, found', cell⟩ := parts.formalCell_eq sound scalar here
    cases found.symm.trans found'
    rw [passes.slot (List.getElem?_eq_getElem inside), State.frame, cell, count] at slot
    exact ((BitVec.add_right_inj _).mp slot).symm
  · intro fits i f p here there
    obtain ⟨v, found, cell⟩ := parts.formalCell_eq sound scalar here
    refine ⟨v, found, ?_⟩
    rw [passes.slot there, State.frame, cell, fits i f here, count]

/-! ## Calls that leave the stack alone -/

theorem scalarSize_cases {t : AstType} {size : Int} (scalar : t.scalarSize = some size) :
    size = 8 ∨ size = 1 := by
  cases t <;> cases scalar <;> decide

theorem AstSig.Scalar.sizes_range {sig : AstSig} (scalar : sig.Scalar) :
    ∀ s ∈ sig.sizes, 0 ≤ s ∧ s ≤ 8 := by
  intro s member
  obtain ⟨f, formal, rfl⟩ := List.mem_map.mp member
  obtain ⟨g, inside, named⟩ := List.mem_flatMap.mp formal
  obtain ⟨n, -, rfl⟩ := List.mem_map.mp named
  obtain ⟨size, known⟩ := Option.isSome_iff_exists.mp (scalar g inside)
  simp only [known, Option.getD_some]
  have cases_ := scalarSize_cases known
  omega

theorem sum_take_range {l : List Int} (range : ∀ s ∈ l, 0 ≤ s ∧ s ≤ 8) (i : Nat) :
    0 ≤ (l.take i).sum ∧ (l.take i).sum ≤ 8 * i := by
  induction l generalizing i with
  | nil => simp
  | cons s l ih =>
    cases i with
    | zero => simp
    | succ i =>
      have here := range s List.mem_cons_self
      have later := ih (fun t member => range t (List.mem_cons_of_mem s member)) i
      rw [List.take_succ_cons, List.sum_cons]
      push_cast
      omega

theorem sum_take_eights {l : List Int} :
    (∀ i < l.length, (l.take i).sum = 8 * i) ↔ ∀ s ∈ l.dropLast, s = 8 := by
  -- the sums up to each place are those of eights just when all numbers but the last are
  have next : ∀ i (inside : i < l.length), (l.take (i + 1)).sum = (l.take i).sum + l[i] := by
    intro i inside
    rw [List.take_succ_eq_append_getElem inside, List.sum_append, List.sum_singleton]
  constructor
  · intro sums s member
    obtain ⟨i, inside, rfl⟩ := List.mem_iff_getElem.mp member
    rw [List.length_dropLast] at inside
    have here := sums i (by omega)
    have later := sums (i + 1) (by omega)
    rw [next i (by omega), here] at later
    rw [List.getElem_dropLast]
    push_cast at later
    omega
  · intro eights i
    induction i with
    | zero => simp
    | succ i ih =>
      intro inside
      have here := ih (by omega)
      have member : l[i] ∈ l.dropLast :=
        List.mem_iff_getElem.mpr ⟨i, by rw [List.length_dropLast]; omega, List.getElem_dropLast _⟩
      rw [next i (by omega), here, eights _ member]
      push_cast
      omega

theorem movedBy_still {passed : List Passing} (still : ∀ p ∈ passed, p.moved = 0) : movedBy passed = 0 := by
  induction passed with
  | nil => rfl
  | cons p passed ih =>
    rw [movedBy_cons, still p List.mem_cons_self, ih fun q member => still q (List.mem_cons_of_mem p member)]
    rfl

/-- The code of the actuals leaves the stack where it was, the result register is not spilled, and no
name of a formal is taken. -/
structure StackStill (d : AstSubdecl) (passed : List Passing) (spare : BitVec 64) : Prop where
  still : ∀ p ∈ passed, p.moved = 0
  spare : spare = 0
  own : ∀ f ∈ d.head.formals, f.1 ∉ signatureNames d.subprogs ∧ f.1 ≠ d.name
  few : d.head.formals.length < 2 ^ 32 ∧ d.head.args.length < 2 ^ 32

/-- There is one name more than there are declarations, and the formals but the last are words. -/
def AstSig.Aligned (sig : AstSig) : Prop :=
  sig.formals.length = sig.args.length + 1 ∧ ∀ s ∈ sig.sizes.dropLast, s = 8

instance (sig : AstSig) : Decidable sig.Aligned := inferInstanceAs (Decidable (_ ∧ _))

theorem StackStill.fits_iff {d : AstSubdecl} {passed : List Passing} {spare : BitVec 64}
    (calm : StackStill d passed spare) (scalar : d.head.Scalar) (ret : Int) :
    d.Fits ret passed spare ↔ d.head.formals = [] ∨ d.head.Aligned := by
  obtain ⟨still, rfl, own, few, groups⟩ := calm
  have length : d.head.sizes.length = d.head.formals.length := List.length_map _
  -- no address wraps around, so the words are equal when the numbers are
  have one : ∀ (i : Nat) (f : Name × AstType), d.head.formals[i]? = some f →
      (BitVec.ofInt 64 (d.formalCell ret i f.1) =
          BitVec.ofNat 64 (8 * (d.head.formals.length - i)) + (movedBy (passed.drop (i + 1)) + 0) ↔
        (d.head.sizes.take i).sum = 8 * (d.head.args.length + 1) - 8 * (d.head.formals.length - i)) := by
    intro i f here
    have inside := (List.getElem?_eq_some_iff.mp here).1
    obtain ⟨free, other⟩ := own f (List.mem_of_getElem? here)
    have range := sum_take_range scalar.sizes_range i
    have flat : movedBy (passed.drop (i + 1)) + 0 = 0#64 := by
      rw [movedBy_still fun p member => still p (List.mem_of_mem_drop member)]
      rfl
    rw [flat, BitVec.add_zero, ← BitVec.ofInt_natCast, AstSubdecl.formalCell, if_neg free,
      if_neg other, AstSig.formalOffset, ofInt_injective (by omega) (by omega)]
    omega
  have all : d.Fits ret passed 0 ↔ ∀ i < d.head.sizes.length,
      (d.head.sizes.take i).sum = 8 * (d.head.args.length + 1) - 8 * (d.head.formals.length - i) := by
    constructor
    · intro fits i inside
      have here := List.getElem?_eq_getElem (length ▸ inside)
      exact (one i _ here).mp (fits i _ here)
    · intro sums i f here
      exact (one i f here).mpr (sums i (length ▸ (List.getElem?_eq_some_iff.mp here).1))
  rw [all]
  constructor
  · intro sums
    rw [or_iff_not_imp_left]
    intro some_
    have positive : 0 < d.head.formals.length := List.length_pos_iff.mpr some_
    have first := sums 0 (by omega)
    rw [List.take_zero, List.sum_nil] at first
    have count : d.head.formals.length = d.head.args.length + 1 := by omega
    refine ⟨count, ?_⟩
    apply sum_take_eights.mp
    intro i inside
    rw [sums i inside]
    omega
  · rintro (none_ | ⟨count, eights⟩) i inside
    · rw [length, none_] at inside
      exact absurd inside (Nat.not_lt_zero i)
    · rw [sum_take_eights.mpr eights i inside]
      omega

theorem gimme_of_room {rs : RegisterSet} (room : 0 < rs.free.card) :
    ∃ i, i ∈ rs.free ∧ rs.gimme = (⟨REGS i, i, false⟩, rs.mark i, []) := by
  obtain ⟨j, member⟩ := Finset.card_pos.mp room
  obtain ⟨i, unused, gimme⟩ := gimme_of_free (RegisterSet.mem_free.mp member)
  exact ⟨i, RegisterSet.mem_free.mpr unused, gimme⟩

theorem movLit_rsp {env : Env} {r : RegName} {s : Name} {σ τ : State} (stack : r ≠ .rsp)
    (ran : runBlock env [.movLit r s] σ = some τ) : τ.reg .rsp = σ.reg .rsp := by
  rw [runBlock_cons, Option.bind_eq_some_iff] at ran
  obtain ⟨υ, next, same⟩ := ran
  cases same
  unfold exec at next
  split at next
  · cases next
  · obtain ⟨n, -, rfl⟩ := Option.map_eq_some_iff.mp next
    exact σ.setReg_reg_of_ne _ stack.symm

theorem PassesAll.literals {env : Env} {names : List Name} {acx acx' : Acx} {σ τ : State}
    {passed : List Passing} (passes : PassesAll env (names.map .lit) acx σ passed acx' τ)
    (room : names.length < acx.rs.free.card) :
    (∀ p ∈ passed, p.moved = 0) ∧ acx'.rs.gimme.2.2 = [] := by
  obtain ⟨i, member, gimme⟩ := gimme_of_room (Nat.zero_lt_of_lt room)
  induction names generalizing acx σ passed i with
  | nil =>
    cases passes
    exact ⟨nofun, by rw [gimme]⟩
  | cons s names ih =>
    cases passes with
    | cons value ran pushed rest =>
      have lit := (Run.lit : Run (.expr (.lit s) true) acx _ _ _).expr_accepted.symm.trans value
      cases lit
      rw [gimme] at ran rest
      have fewer : names.length < (acx.setRs (acx.rs.mark i)).rs.free.card := by
        rw [Acx.setRs_rs, RegisterSet.free_mark, Finset.card_erase_of_mem member]
        rw [List.length_cons] at room
        omega
      obtain ⟨j, member', gimme'⟩ := gimme_of_room (Nat.zero_lt_of_lt fewer)
      obtain ⟨still, last⟩ := ih rest fewer j member' gimme'
      refine ⟨?_, last⟩
      rintro p (_ | ⟨_, inside⟩)
      · exact (congrArg (_ - ·) (movLit_rsp (REGS_ne i).1 ran)).trans (BitVec.sub_self _)
      · exact still p inside

theorem CallPasses.still {env : Env} {names : List Name} {acx : Acx} {σ entered : State}
    {passed : List Passing} {spare : BitVec 64}
    (passes : CallPasses env (names.map .lit) acx σ passed spare entered)
    (room : names.length < acx.rs.free.card) {d : AstSubdecl}
    (own : ∀ f ∈ d.head.formals, f.1 ∉ signatureNames d.subprogs ∧ f.1 ≠ d.name)
    (few : d.head.formals.length < 2 ^ 32 ∧ d.head.args.length < 2 ^ 32) :
    StackStill d passed spare := by
  obtain ⟨acx₁, σ₁, σ₂, σ₃, -, all, result, rfl, -⟩ := passes.run
  obtain ⟨still, none_⟩ := all.literals room
  rw [none_] at result
  cases result
  exact ⟨still, BitVec.sub_self _, own, few⟩

/-- In an accepted program the analyzer comes to every subprogram. In every run of a call of it, of
whatever actuals, these are where the formals are looked for just when the offsets fit; in a run that
leaves the stack alone, just when there are no formals or the declaration is aligned. -/
theorem slotsMeet_iff (prog : AstProgram) (acx₀ : Acx) (code₀ : List Insn)
    (accepted₀ : analyze prog = .ok (acx₀, code₀)) (path : List Nat) (d : AstSubdecl)
    (declared : prog.subprogAt path = some d) (scalar : d.head.Scalar) :
    (∃ start before inner retslot off nested own, prog.Visits path d start before ∧
      Parts d start inner retslot off nested own) ∧
    ∀ start before inner retslot off nested own, prog.Visits path d start before →
      Parts d start inner retslot off nested own →
        ∀ (env : Env) (p : AstPath) (args : List AstExpr) (acx acx' : Acx) (r : Resu) (code : List Insn)
          (σ entered : State), p.first = d.name →
          analyzeCall p (analyzeArgs args) acx = .ok (r, acx', code) → isMagic acx.st p = false →
          args.length = d.head.formals.length → CallEntered env d.name code σ entered →
            ∃ passed spare, CallPasses env args acx σ passed spare entered ∧
              (SlotsMeet d inner passed entered ↔ d.Fits (frameOffset inner.st retslot) passed spare) ∧
              (StackStill d passed spare →
                (SlotsMeet d inner passed entered ↔ d.head.formals = [] ∨ d.head.Aligned)) := by
  constructor
  · obtain ⟨start, before, inner, retslot, off, nested, own, after, visits, parts, -⟩ :=
      analyze_visits accepted₀ declared
    exact ⟨start, before, inner, retslot, off, nested, own, visits, parts⟩
  · intro start before inner retslot off nested own visits parts env p args acx acx' r code σ entered
      name accepted subprog count called
    rw [← name] at called
    obtain ⟨passed, spare, passes⟩ := called.passes accepted subprog
    have meet := parts.meet_iff_fits visits.sound scalar passes count
    exact ⟨passed, spare, passes, meet, fun calm => meet.trans (calm.fits_iff scalar _)⟩

-- procedure p(a, b: integer); begin end
def pairDecl : AstSubdecl := .mk ⟨.procedure, [⟨["a", "b"], .integer⟩], none⟩ "p" [] [] [] .null

-- A program of one subprogram, whose body is not looked at.
def oneSubprog (d : AstSubdecl) : AstProgram := ⟨[], [], [d], [], .null⟩

-- What the call p(1, 2) is compiled to.
def pairCall : List Insn :=
  [.movLit .rbx "1", .push .rbx, .movLit .rcx "2", .push .rcx, .push .rbp, .blank, .mov .rbp .rsp,
    .call "p", .pop .r8, .pop .rbp, .pop .rcx, .pop .rbx]

theorem pair_slotsMeet : ∃ acx code inner passed spare entered, analyze (oneSubprog pairDecl) = .ok (acx, code) ∧
    CallPasses atOnce [.lit "1", .lit "2"] (plainAcx pairDecl.head) zeroState passed spare entered ∧
    SlotsMeet pairDecl inner passed entered := by
  have accepts : (analyze (oneSubprog pairDecl)).toOption.isSome = true := by decide +kernel
  obtain ⟨⟨acx, code⟩, result⟩ := exists_ok_of_isSome accepts
  have scalar : pairDecl.head.Scalar := by decide
  obtain ⟨r, acx', accepted⟩ := @accepted_of_code (astPath "p") (analyzeArgs [.lit "1", .lit "2"])
    (plainAcx pairDecl.head) pairCall (by decide +kernel)
  have called : CallEntered atOnce "p" pairCall zeroState
      ((((zeroState.setReg .rbx 1).push 1).setReg .rcx 2).push 2 |>.enter 2) :=
    ⟨[.movLit .rbx "1", .push .rbx, .movLit .rcx "2", .push .rcx, .push .rbp, .blank,
      .mov .rbp .rsp], [.pop .r8, .pop .rbp, .pop .rcx, .pop .rbx], rfl, by simp, rfl⟩
  obtain ⟨⟨start, before, inner, retslot, off, nested, own, visits, parts⟩, meets⟩ :=
    slotsMeet_iff (oneSubprog pairDecl) acx code result [0] pairDecl rfl scalar
  obtain ⟨passed, spare, passes, -, meet⟩ := meets start before inner retslot off nested own visits parts
    atOnce (astPath "p") [.lit "1", .lit "2"] _ acx' r pairCall zeroState _ rfl accepted
    (by decide +kernel) rfl called
  refine ⟨acx, code, inner, passed, spare, _, result, passes, ?_⟩
  have calm : StackStill pairDecl passed spare :=
    @CallPasses.still atOnce ["1", "2"] _ _ _ _ _ passes (by decide) pairDecl (by decide) (by decide)
  exact (meet calm).mpr (.inr (by decide))

-- The only actual is a word below the cell of the only formal.
theorem not_forall_slotsMeet : ¬ ∀ (prog : AstProgram) (acx₀ : Acx) (code₀ : List Insn),
    analyze prog = .ok (acx₀, code₀) → ∀ (path : List Nat) (d : AstSubdecl),
      prog.subprogAt path = some d → d.head.Scalar →
      ∀ start before inner retslot off nested own, prog.Visits path d start before →
        Parts d start inner retslot off nested own →
          ∀ (env : Env) (p : AstPath) (args : List AstExpr) (acx acx' : Acx) (r : Resu)
            (code : List Insn) (σ entered : State), p.first = d.name →
            analyzeCall p (analyzeArgs args) acx = .ok (r, acx', code) → isMagic acx.st p = false →
            args.length = d.head.formals.length → CallEntered env d.name code σ entered →
              ∀ passed spare, CallPasses env args acx σ passed spare entered →
                SlotsMeet d inner passed entered := by
  intro every
  obtain ⟨acx₀, code₀, result⟩ := unary_accepted
  have scalar : unaryDecl.head.Scalar := by decide
  obtain ⟨start, before, inner, retslot, off, nested, own, after, visits, parts, -⟩ :=
    @analyze_visits _ _ _ result [0] unaryDecl rfl
  obtain ⟨r, acx', accepted⟩ := @accepted_of_code (astPath "p") (analyzeArgs [.lit "1"])
    (plainAcx integerSig) passingCall (by decide +kernel)
  have called : CallEntered atOnce "p" passingCall zeroState
      (((zeroState.setReg .rbx 1).push 1).enter 1) :=
    ⟨[.movLit .rbx "1", .push .rbx, .push .rbp, .blank, .mov .rbp .rsp],
      [.pop .rcx, .pop .rbp, .pop .rbx], rfl, by simp, rfl⟩
  have subprog : isMagic (plainAcx integerSig).st (astPath "p") = false := by decide +kernel
  obtain ⟨passed, spare, passes⟩ := @CallEntered.passes _ (astPath "p") _ _ _ _ _ _ _ called accepted subprog
  have meet := every unaryProgram acx₀ code₀ result [0] unaryDecl rfl scalar start before inner retslot
    off nested own visits parts atOnce (astPath "p") [.lit "1"] _ acx' r passingCall zeroState _ rfl
    accepted subprog rfl called passed spare passes
  have calm : StackStill unaryDecl passed spare :=
    @CallPasses.still atOnce ["1"] _ _ _ _ _ passes (by decide) unaryDecl (by decide) (by decide)
  have fits := (parts.meet_iff_fits visits.sound scalar passes rfl).mp meet
  exact absurd ((calm.fits_iff scalar _).mp fits) (by decide)

end Dragon
