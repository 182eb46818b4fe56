import Dragon.Codegen.Registers
import Dragon.Codegen.Tables
import Dragon.Machine.Brackets

/-! The frame of the caller across a call.

A call without actuals is a bracket around the callee: the registers in use and
rbp are pushed and popped in reverse order, with a word for the result between.
With actuals no word is reserved. The result is left on the saved rbp, and what
is popped into rbp is the last actual.
-/

set_option autoImplicit false

namespace Dragon

open Analysis ByteMemory

/-- A callee returns with the stack pointer and the frame pointer it was entered with, and with the
words above its result as they were. -/
structure Returned (entered left : State) : Prop where
  rsp : left.reg .rsp = entered.reg .rsp
  rbp : left.reg .rbp = entered.reg .rbp
  word : ∀ k, 0 < k → k < 2 ^ 32 → readWord left.mem (entered.reg .rsp + BitVec.ofNat 64 (8 * k)) =
    readWord entered.mem (entered.reg .rsp + BitVec.ofNat 64 (8 * k))

/-- A run of the lines of a call up to the last one that calls. -/
def CallEntered (env : Env) (f : Name) (code : List Insn) (σ entered : State) : Prop :=
  ∃ before after, code = before ++ .call f :: after ∧ (∀ g, Insn.call g ∉ after) ∧
    runBlock env before σ = some entered

/-- A run of the lines of a call, from σ to τ. The last line that calls is entered in one state and
left in another. -/
def CallRun (env : Env) (f : Name) (code : List Insn) (σ entered left τ : State) : Prop :=
  ∃ before after, code = before ++ .call f :: after ∧ (∀ g, Insn.call g ∉ after) ∧
    runBlock env before σ = some entered ∧ env.call f entered = some left ∧
    runBlock env after left = some τ

/-- The stack pointer, the frame pointer and the registers in use are as before, and the result
register holds the word at [rbp] when the callee returned. -/
structure FrameKept (rs : RegisterSet) (r : Reg) (σ left τ : State) : Prop where
  rsp : τ.reg .rsp = σ.reg .rsp
  rbp : τ.reg .rbp = σ.reg .rbp
  held : ∀ i, rs.regsUsed i = true → τ.reg (REGS i) = σ.reg (REGS i)
  result : τ.reg r.name = readWord left.mem (left.reg .rbp)

/-! ## The last call -/

theorem lastCall_unique {f : Name} {before before' after after' : List Insn}
    (same : before ++ .call f :: after = before' ++ .call f :: after')
    (last : ∀ g, Insn.call g ∉ after) (last' : ∀ g, Insn.call g ∉ after') :
    before = before' ∧ after = after' := by
  rcases List.append_eq_append_iff.mp same with ⟨between, longer, rest⟩ | ⟨between, longer, rest⟩
  · cases between with
    | nil =>
      rw [List.append_nil] at longer
      exact ⟨longer.symm, (List.cons.inj rest).2⟩
    | cons i between =>
      obtain ⟨-, inside⟩ := List.cons.inj rest
      exact absurd (inside ▸ List.mem_append_right between List.mem_cons_self) (last f)
  · cases between with
    | nil =>
      rw [List.append_nil] at longer
      exact ⟨longer, (List.cons.inj rest).2.symm⟩
    | cons i between =>
      obtain ⟨-, inside⟩ := List.cons.inj rest
      exact absurd (inside ▸ List.mem_append_right between List.mem_cons_self) (last' f)

theorem CallEntered.at_last {env : Env} {f : Name} {before after : List Insn} {σ entered : State}
    (called : CallEntered env f (before ++ .call f :: after) σ entered)
    (last : ∀ g, Insn.call g ∉ after) : runBlock env before σ = some entered := by
  obtain ⟨before', after', split, last', upTo⟩ := called
  obtain ⟨rfl, rfl⟩ := lastCall_unique split last last'
  exact upTo

theorem CallRun.at_last {env : Env} {f : Name} {before after : List Insn}
    {σ entered left τ : State} (called : CallRun env f (before ++ .call f :: after) σ entered left τ)
    (last : ∀ g, Insn.call g ∉ after) :
    runBlock env before σ = some entered ∧ env.call f entered = some left ∧
      runBlock env after left = some τ := by
  obtain ⟨before', after', split, last', rest⟩ := called
  obtain ⟨rfl, rfl⟩ := lastCall_unique split last last'
  exact rest

def enterLines (count : Nat) : List Insn :=
  [.push .rbp, if count = 0 then .subImm .rsp 8 else .blank, .mov .rbp .rsp]

def State.enter (σ : State) (count : Nat) : State :=
  let υ := σ.push (σ.reg .rbp)
  let υ := if count = 0 then υ.alu .sub .rsp 8 else υ
  υ.setReg .rbp (υ.reg .rsp)

theorem runBlock_enterLines (env : Env) (count : Nat) (σ : State) :
    runBlock env (enterLines count) σ = some (σ.enter count) := by
  unfold enterLines State.enter
  split <;> rfl

def popped (r : Reg) (rs : RegisterSet) : List RegName := r.name :: .rbp :: (rs.restored r).map REGS

theorem popped_named {rs : RegisterSet} (rs' : RegisterSet) : .blank ∉ popped rs.gimme.1 rs' := by
  have some_ := gimme_ne_blank rs
  have others : ∀ i ∈ rs'.restored rs.gimme.1, REGS i ≠ .blank := fun i _ => (REGS_ne i).2.2
  simp only [popped, List.mem_cons, List.mem_map, not_or, not_exists, not_and]
  exact ⟨some_.symm, by decide, others⟩

theorem call_split (f : Name) (count : Nat) (rs : RegisterSet) (code : List Insn) :
    code ++ finishCall f count rs = (code ++ rs.gimme.2.2 ++ enterLines count) ++
      .call f :: (popped rs.gimme.1 rs.gimme.2.1).map .pop := by
  simp [finishCall, enterCall, enterLines, popped]

theorem pops_callNothing (rs : List RegName) (g : Name) : Insn.call g ∉ rs.map Insn.pop := by simp

theorem runBlock_entry_iff {env : Env} {count : Nat} {rs : RegisterSet} {code : List Insn}
    {σ entered : State} :
    runBlock env (code ++ rs.gimme.2.2 ++ enterLines count) σ = some entered ↔
      ∃ σ', runBlock env (code ++ rs.gimme.2.2) σ = some σ' ∧ σ'.enter count = entered := by
  rw [runBlock_append, Option.bind_eq_some_iff]
  simp only [runBlock_enterLines, Option.some.injEq]

theorem CallEntered.upTo {env : Env} {f : Name} {count : Nat} {rs : RegisterSet} {code : List Insn}
    {σ entered : State} (called : CallEntered env f (code ++ finishCall f count rs) σ entered) :
    ∃ σ', runBlock env (code ++ rs.gimme.2.2) σ = some σ' ∧ σ'.enter count = entered := by
  rw [call_split] at called
  exact runBlock_entry_iff.mp (called.at_last (pops_callNothing _))

theorem callRun_iff {env : Env} {f : Name} {count : Nat} {rs : RegisterSet} {code : List Insn}
    {σ entered left τ : State} :
    CallRun env f (code ++ finishCall f count rs) σ entered left τ ↔
      (∃ σ', runBlock env (code ++ rs.gimme.2.2) σ = some σ' ∧ σ'.enter count = entered) ∧
        env.call f entered = some left ∧ left.popAll (popped rs.gimme.1 rs.gimme.2.1) = τ := by
  rw [call_split, ← runBlock_entry_iff]
  constructor
  · intro called
    obtain ⟨first, callee, after⟩ := called.at_last (pops_callNothing _)
    rw [runBlock_popAll env left (popped_named _)] at after
    exact ⟨first, callee, Option.some.inj after⟩
  · rintro ⟨first, callee, rfl⟩
    exact ⟨_, _, rfl, pops_callNothing _, first, callee, runBlock_popAll env left (popped_named _)⟩

theorem State.enter_rbp (σ : State) (count : Nat) : (σ.enter count).reg .rbp = (σ.enter count).reg .rsp := by
  rw [State.enter, State.setReg_reg_self, State.setReg_reg_of_ne _ _ (by decide)]

/-! ## Calls without actuals -/

theorem gimme_of_free {rs : RegisterSet} {j : Fin numRegs} (free : rs.regsUsed j = false) :
    ∃ i, rs.regsUsed i = false ∧ rs.gimme = (⟨REGS i, i, false⟩, rs.mark i, []) := by
  unfold RegisterSet.gimme
  cases first : rs.firstFree with
  | none => exact absurd (free.symm.trans (rs.firstFree_none first j)) Bool.false_ne_true
  | some i => exact ⟨i, RegisterSet.firstFree_some first, rfl⟩

theorem restored_six {rs : RegisterSet} {i : Fin numRegs} (unused : rs.regsUsed i = false) :
    (rs.mark i).restored ⟨REGS i, i, false⟩ = rs.saved.reverse := by
  -- what is pushed is popped in reverse order
  unfold RegisterSet.restored RegisterSet.saved
  rw [← List.filter_reverse]
  refine List.filter_congr ?_
  intro j _
  by_cases same : j = i
  · subst same
    simp [unused]
  · have differ : j.val ≠ i.val := fun equal => same (Fin.ext equal)
    simp [RegisterSet.mark, same, differ]

theorem mem_saved {rs : RegisterSet} {i : Fin numRegs} :
    i ∈ rs.saved ↔ i.val < 6 ∧ rs.regsUsed i = true := by
  unfold RegisterSet.saved
  rw [List.mem_filter]
  have first : i ∈ (List.finRange numRegs).take 6 ↔ i.val < 6 := by
    revert i
    decide
  rw [first]

theorem saved_length (rs : RegisterSet) : rs.saved.length ≤ 6 :=
  (List.length_filter_le _ _).trans (List.length_take_le ..)

/-- The registers besides the stack pointer and the frame pointer. -/
def general : List RegName :=
  [.rax, .rbx, .rcx, .rdx, .rsi, .rdi, .r8, .r9, .r10, .r11, .r12, .r13, .r14, .r15]

theorem eq_rsp_of_lost {r : RegName} (named : r ≠ .blank) (kept : r ∉ .rbp :: general) : r = .rsp := by
  revert named kept
  cases r <;> decide

theorem keptOff_result {σ left : State} {r : RegName} {n : Nat} (stack : r ≠ .rsp)
    (returned : Returned (σ.enter 0) left) (fits : n + 1 < 2 ^ 32) :
    KeptOff (.rbp :: general) n (σ.push (σ.reg .rbp)) (left.pop r) := by
  have below_ : (σ.enter 0).reg .rsp + 8 = (σ.push (σ.reg .rbp)).reg .rsp := by
    rw [State.enter, if_pos rfl, State.setReg_reg_of_ne _ _ (by decide), State.alu_reg_self rfl]
    bv_omega
  have mem : (σ.enter 0).mem = (σ.push (σ.reg .rbp)).mem := by
    rw [State.enter, if_pos rfl, State.setReg_mem, State.alu_mem]
  refine ⟨?_, ?_⟩
  · intro s named kept
    obtain rfl := eq_rsp_of_lost named kept
    rw [State.pop_rsp stack, returned.rsp, below_]
  · intro k less
    have word := returned.word (k + 1) (by omega) (by omega)
    have same : (σ.enter 0).reg .rsp + BitVec.ofNat 64 (8 * (k + 1)) =
        (σ.push (σ.reg .rbp)).reg .rsp + BitVec.ofNat 64 (8 * k) := by
      rw [← below_]
      bv_omega
    rwa [same, mem] at word

theorem keptOff_call {σ left : State} {r : RegName} {rs : List RegName} (stack : r ≠ .rsp)
    (others : .rsp ∉ rs) (few : rs.length + 2 < 2 ^ 32)
    (returned : Returned ((σ.pushAll rs).enter 0) left) :
    KeptOff (general.filter (· ∉ rs)) 0 σ (left.popAll (r :: .rbp :: rs.reverse)) := by
  -- rbp is the innermost bracket of a call without actuals, the registers in use are around it
  have result := keptOff_result (n := rs.length + 1) stack returned few
  have inner : KeptOff general (0 + rs.length) (σ.pushAll rs) ((left.pop r).pop .rbp) := by
    rw [Nat.zero_add]
    exact (result.bracket (by decide) (by decide) (by omega)).mono (by decide)
  exact inner.brackets rs (by decide) others (by omega)

theorem saves_eq (rs : RegisterSet) :
    (rs.saved.map fun i => Insn.push (REGS i)) = (rs.saved.map REGS).map .push := by
  rw [List.map_map]
  rfl

theorem not_mem_map_REGS {r : RegName} (other : ∀ i, REGS i ≠ r) (l : List (Fin numRegs)) :
    r ∉ l.map REGS := by
  rw [List.mem_map]
  rintro ⟨i, -, same⟩
  exact other i same

theorem frameKept_of_none {env : Env} {f : Name} {rs : RegisterSet} {σ entered left τ : State}
    (six : ∀ i, rs.regsUsed i = true → i.val < 6)
    (called : CallRun env f ((rs.saved.map fun i => .push (REGS i)) ++ finishCall f 0 rs) σ entered
      left τ)
    (returned : Returned entered left) : FrameKept rs rs.gimme.1 σ left τ := by
  obtain ⟨⟨σ', pushed, rfl⟩, -, rfl⟩ := callRun_iff.mp called
  have seventh : rs.regsUsed 6 = false :=
    Bool.eq_false_iff.mpr fun used => absurd (six 6 used) (by decide)
  obtain ⟨i, unused, gimme⟩ := gimme_of_free seventh
  have few := saved_length rs
  have others : .rsp ∉ rs.saved.map REGS := not_mem_map_REGS (fun j => (REGS_ne j).1) _
  have names : .blank ∉ rs.saved.map REGS := not_mem_map_REGS (fun j => (REGS_ne j).2.2) _
  rw [gimme, List.append_nil, saves_eq, runBlock_pushAll env σ names] at pushed
  obtain rfl := Option.some.inj pushed
  have order : popped rs.gimme.1 rs.gimme.2.1 = REGS i :: .rbp :: (rs.saved.map REGS).reverse := by
    rw [popped, gimme, restored_six unused, List.map_reverse]
  have kept := keptOff_call (REGS_ne i).1 others (by rw [List.length_map]; omega) returned
  rw [order, gimme]
  refine ⟨kept.reg _ (by decide) ?_, kept.reg _ (by decide) ?_, ?_, ?_⟩
  · exact fun lost => absurd (List.mem_filter.mp lost).1 (by decide)
  · exact fun lost => absurd (List.mem_filter.mp lost).1 (by decide)
  · intro j used
    have member : REGS j ∈ rs.saved.map REGS :=
      List.mem_map_of_mem (mem_saved.mpr ⟨six j used, used⟩)
    refine kept.reg _ (REGS_ne j).2.2 ?_
    rw [List.mem_filter]
    simp [member]
  · have free : REGS i ∉ (rs.saved.map REGS).reverse := by
      rw [List.mem_reverse, List.mem_map]
      rintro ⟨j, member, same⟩
      obtain rfl := REGS_injective same
      exact Bool.false_ne_true (unused.symm.trans (mem_saved.mp member).2)
    calc (left.popAll (REGS i :: .rbp :: (rs.saved.map REGS).reverse)).reg (REGS i)
      _ = ((left.pop (REGS i)).pop .rbp).reg (REGS i) := State.popAll_reg free (REGS_ne i).1
      _ = (left.pop (REGS i)).reg (REGS i) := State.pop_reg (REGS_ne i).2.1 (REGS_ne i).1
      _ = readWord left.mem (left.reg .rsp) := State.pop_reg_self ..
      _ = readWord left.mem (left.reg .rbp) := by rw [returned.rsp, returned.rbp, State.enter_rbp]

/-! ## Calls with actuals -/

theorem rbp_of_call {env : Env} {f : Name} {count : Nat} {rs : RegisterSet} {code : List Insn}
    {σ entered left τ : State} (called : CallRun env f (code ++ finishCall f count rs) σ entered left τ)
    (returned : Returned entered left) :
    τ.reg .rbp = readWord entered.mem (entered.reg .rsp + 8) := by
  -- what is popped into rbp is the word above the one the callee left its result on
  obtain ⟨-, -, rfl⟩ := callRun_iff.mp called
  have others : .rbp ∉ (rs.gimme.2.1.restored rs.gimme.1).map REGS :=
    not_mem_map_REGS (fun j => (REGS_ne j).2.1) _
  have stack : rs.gimme.1.name ≠ .rsp := gimme_ne_rsp rs
  calc (left.popAll (popped rs.gimme.1 rs.gimme.2.1)).reg .rbp
    _ = ((left.pop rs.gimme.1.name).pop .rbp).reg .rbp := State.popAll_reg others (by decide)
    _ = readWord left.mem (left.reg .rsp + 8) := by rw [State.pop_reg_self, State.pop_rsp stack]; rfl
    _ = readWord entered.mem (entered.reg .rsp + 8) := by
      rw [returned.rsp]
      exact returned.word 1 (by decide) (by decide)

theorem analyzeCall_lines {p : AstPath} {args : List AstExpr} {acx acx' : Acx} {r : Resu}
    {code : List Insn} (accepted : analyzeCall p (analyzeArgs args) acx = .ok (r, acx', code))
    (subprog : isMagic acx.st p = false) :
    ∃ formals results acx₁ code₁, Run (.actuals args formals) acx results acx₁ code₁ ∧
      code = (acx.rs.saved.map fun i => .push (REGS i)) ++ code₁ ++
        finishCall p.first args.length acx₁.rs ∧ r.reg = acx₁.rs.gimme.1 := by
  obtain ⟨actuals, writes, reads⟩ := analyzeArgs_run args
  have run := analyzeCall_run actuals writes reads (analyzeArgs_length args) accepted
  cases run with
  | magic callee magic _ => exact absurd (isMagic_of_magic callee magic) (by simp [subprog])
  | call _ _ _ inner => exact ⟨_, _, _, _, inner, (List.append_assoc ..).symm, rfl⟩

/-- A call without actuals leaves the frame of the caller as it was. A call with actuals does only
when the word above the return, which is the last actual, happens to be the rbp of the caller. -/
theorem call_frameKept (env : Env) (p : AstPath) (args : List AstExpr) (acx acx' : Acx) (r : Resu)
    (code : List Insn) (σ entered left τ : State)
    (accepted : analyzeCall p (analyzeArgs args) acx = .ok (r, acx', code))
    (subprog : isMagic acx.st p = false) (six : ∀ i, acx.rs.regsUsed i = true → i.val < 6)
    (called : CallRun env p.first code σ entered left τ) (returned : Returned entered left) :
    (args = [] → FrameKept acx.rs r.reg σ left τ) ∧
      (FrameKept acx.rs r.reg σ left τ →
        args = [] ∨ readWord entered.mem (entered.reg .rsp + 8) = σ.reg .rbp) := by
  obtain ⟨formals, results, acx₁, code₁, run, rfl, reg⟩ := analyzeCall_lines accepted subprog
  rw [reg]
  constructor
  · rintro rfl
    cases run
    rw [List.append_nil] at called
    exact frameKept_of_none six called returned
  · intro kept
    exact .inr ((rbp_of_call called returned).symm.trans kept.rbp)

-- A callee that returns at once.
def atOnce : Env := ⟨0, fun _ σ => some σ⟩

theorem returned_atOnce (entered : State) : Returned entered entered :=
  ⟨rfl, rfl, fun _ _ _ => rfl⟩

-- A callee that uses two registers of its caller.
def spoiling : Env := ⟨0, fun _ σ => some ((σ.setReg .rbx 0).setReg .rcx 0)⟩

theorem returned_spoiling (entered : State) :
    Returned entered ((entered.setReg .rbx 0).setReg .rcx 0) := by
  refine ⟨?_, ?_, fun _ _ _ => rfl⟩
  · rw [State.setReg_reg_of_ne _ _ (by decide), State.setReg_reg_of_ne _ _ (by decide)]
  · rw [State.setReg_reg_of_ne _ _ (by decide), State.setReg_reg_of_ne _ _ (by decide)]

-- procedure p
def plainSig : AstSig := ⟨.procedure, [], none⟩

-- procedure p(a: integer)
def integerSig : AstSig := ⟨.procedure, [⟨["a"], .integer⟩], none⟩

def plainAcx (sig : AstSig) : Acx :=
  initialAcx.setSt (((stabAddFunc stabNew "p" sig).toOption).getD stabNew)

-- Where rbx and rcx are in use.
def busyAcx : Acx := (plainAcx plainSig).setRs regInit.gimme.2.1.gimme.2.1

-- What the call p is compiled to there.
def plainCall : List Insn :=
  [.push .rbx, .push .rcx, .push .rbp, .subImm .rsp 8, .mov .rbp .rsp, .call "p", .pop .r8, .pop .rbp,
    .pop .rcx, .pop .rbx]

-- What the call p(1) is compiled to.
def passingCall : List Insn :=
  [.movLit .rbx "1", .push .rbx, .push .rbp, .blank, .mov .rbp .rsp, .call "p", .pop .rcx, .pop .rbp,
    .pop .rbx]

theorem accepted_of_code {p : AstPath} {args : List Actual} {acx : Acx} {code : List Insn}
    (printed : (analyzeCall p args acx).toOption.map (fun out => out.2.2) = some code) :
    ∃ r acx', analyzeCall p args acx = .ok (r, acx', code) := by
  cases result : analyzeCall p args acx with
  | error s =>
    rw [result] at printed
    cases printed
  | ok out =>
    rw [result] at printed
    obtain ⟨r, acx', code'⟩ := out
    cases printed
    exact ⟨r, acx', rfl⟩

theorem plainCall_frameKept : ∃ r acx' entered left τ,
    analyzeCall (astPath "p") (analyzeArgs []) busyAcx = .ok (r, acx', plainCall) ∧
      CallRun spoiling "p" plainCall busyState entered left τ ∧
      FrameKept busyAcx.rs r.reg busyState left τ := by
  obtain ⟨r, acx', accepted⟩ := @accepted_of_code (astPath "p") (analyzeArgs []) busyAcx plainCall
    (by decide +kernel)
  let entered := ((busyState.push 2).push 3).enter 0
  let left := (entered.setReg .rbx 0).setReg .rcx 0
  have called : CallRun spoiling "p" plainCall busyState entered left
      (left.popAll [.r8, .rbp, .rcx, .rbx]) :=
    ⟨.push .rbx :: .push .rcx :: enterLines 0, [.pop .r8, .pop .rbp, .pop .rcx, .pop .rbx], rfl,
      by simp, rfl, rfl, rfl⟩
  exact ⟨r, acx', _, _, _, accepted, called, (call_frameKept spoiling (astPath "p") [] _ acx' r plainCall
    busyState _ _ _ accepted (by decide +kernel) (by decide) called (returned_spoiling _)).1 rfl⟩

-- The actual is popped into rbp.
theorem not_forall_frameKept : ¬ ∀ (env : Env) (p : AstPath) (args : List AstExpr) (acx acx' : Acx)
    (r : Resu) (code : List Insn) (σ entered left τ : State),
      analyzeCall p (analyzeArgs args) acx = .ok (r, acx', code) → isMagic acx.st p = false →
      (∀ i, acx.rs.regsUsed i = true → i.val < 6) → CallRun env p.first code σ entered left τ →
      Returned entered left → FrameKept acx.rs r.reg σ left τ := by
  intro every
  obtain ⟨r, acx', accepted⟩ := @accepted_of_code (astPath "p") (analyzeArgs [.lit "1"])
    (plainAcx integerSig) passingCall (by decide +kernel)
  have called : CallRun atOnce "p" passingCall zeroState (((zeroState.setReg .rbx 1).push 1).enter 1)
      (((zeroState.setReg .rbx 1).push 1).enter 1)
      ((((zeroState.setReg .rbx 1).push 1).enter 1).popAll [.rcx, .rbp, .rbx]) :=
    ⟨[.movLit .rbx "1", .push .rbx, .push .rbp, .blank, .mov .rbp .rsp],
      [.pop .rcx, .pop .rbp, .pop .rbx], rfl, by simp, rfl, rfl, rfl⟩
  have kept := every atOnce (astPath "p") [.lit "1"] _ acx' r passingCall zeroState _ _ _ accepted
    (by decide +kernel) (by decide) called (returned_atOnce _)
  exact absurd kept.rbp (by decide +kernel)

end Dragon
