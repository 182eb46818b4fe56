import Dragon.Codegen.Core
import Dragon.Codegen.Loads

/-! Conditions: AND and OR of comparisons.

A comparison sets the byte register that is named by the second character of the
register of its right operand and an l. Only four of the fourteen registers have
such a low byte, and dl is also made of rdi. Which register the right operand
gets depends on how many values are live, so on where the comparison stands.
-/

set_option autoImplicit false

namespace Dragon

open Analysis ByteMemory

/-! ## Integer variables -/

structure IntegerVar (st : Stab) (x : Name) (v : StabVar) : Prop where
  resolved : stabResolveVar st x ≠ resolveFailure
  found : stabVar st (stabResolveVar st x) = some v
  integer : v.type = integerTypeIdx

def addressIn (env : Env) (st : Stab) (σ : State) (x : Name) : BitVec 64 :=
  match stabVar st (stabResolveVar st x) with
  | some v =>
      if stabHasLocalVar st x = true then σ.frame v.stackBaseOffset
      else readWord σ.mem (env.display + BitVec.ofInt 64 (v.dispOffset * abiPointerAlign))
  | none => 0

def valuesIn (env : Env) (st : Stab) (σ : State) (x : Name) : BitVec 64 :=
  readWord σ.mem (addressIn env st σ x)

/-- The variable has its place: its address does not change with the next use of a variable. -/
def HasPlace (st : Stab) (x : Name) : Prop :=
  ∃ v, stabVar st (stabResolveVar st x) = some v ∧
    (stabHasLocalVar st x = true ∨ v.captured = true)

/-- What uses of variables change: a nonlocal variable gets its word of the display. -/
structure Uses (st st' : Stab) : Prop where
  resolve : ∀ x, stabResolveVar st' x = stabResolveVar st x
  locals : ∀ x, stabHasLocalVar st' x = stabHasLocalVar st x
  types : ∀ i, stabType st' i = stabType st i
  vars : ∀ i v, stabVar st i = some v → ∃ w, stabVar st' i = some w ∧ w.type = v.type ∧
    w.stackBaseOffset = v.stackBaseOffset ∧ (v.captured = true → w = v)

namespace Uses

variable {st st' st'' : Stab}

theorem refl (st : Stab) : Uses st st :=
  ⟨fun _ => rfl, fun _ => rfl, fun _ => rfl, fun _ v found => ⟨v, found, rfl, rfl, fun _ => rfl⟩⟩

theorem trans (first : Uses st st') (second : Uses st' st'') : Uses st st'' := by
  refine ⟨fun x => (second.resolve x).trans (first.resolve x),
    fun x => (second.locals x).trans (first.locals x),
    fun i => (second.types i).trans (first.types i), ?_⟩
  intro i v found
  obtain ⟨w, there, type, offset, same⟩ := first.vars i v found
  obtain ⟨u, later, type', offset', same'⟩ := second.vars i w there
  refine ⟨u, later, type'.trans type, offset'.trans offset, ?_⟩
  intro captured
  have unchanged := same captured
  rw [← unchanged]
  exact same' (unchanged ▸ captured)

theorem of_use {acx : Acx} {name : Name} {idx : Index} {v : StabVar}
    (found : stabVar acx.st idx = some v) : Uses acx.st (acx.use name idx v).st := by
  unfold Acx.use
  split
  next fresh =>
    refine ⟨fun _ => rfl, fun _ => rfl, fun _ => rfl, ?_⟩
    intro i w there
    rw [stabVar_setVar (arenaGet_lt found).1 found]
    by_cases same : i = idx
    · subst same
      rw [found] at there
      cases there
      rw [if_pos rfl]
      refine ⟨_, rfl, rfl, rfl, ?_⟩
      intro captured
      rw [fresh.2] at captured
      cases captured
    · rw [if_neg same]
      exact ⟨w, there, rfl, rfl, fun _ => rfl⟩
  next => exact .refl _

theorem integerVar (uses : Uses st st') {x : Name} {v : StabVar} (var : IntegerVar st x v) :
    ∃ w, IntegerVar st' x w := by
  obtain ⟨w, found, type, -⟩ := uses.vars _ v var.found
  rw [← uses.resolve] at found
  exact ⟨w, by rw [uses.resolve]; exact var.resolved, found, type.trans var.integer⟩

theorem hasPlace (uses : Uses st st') {x : Name} (place : HasPlace st x) : HasPlace st' x := by
  obtain ⟨v, found, place⟩ := place
  obtain ⟨w, there, -, -, same⟩ := uses.vars _ v found
  refine ⟨w, by rw [uses.resolve]; exact there, ?_⟩
  rcases place with isLocal | captured
  · exact .inl ((uses.locals x).trans isLocal)
  · rw [same captured]
    exact .inr captured

theorem addressIn (uses : Uses st st') {x : Name} (place : HasPlace st x) (env : Env) (σ : State) :
    addressIn env st' σ x = addressIn env st σ x := by
  obtain ⟨v, found, place⟩ := place
  obtain ⟨w, there, -, offset, same⟩ := uses.vars _ v found
  unfold Dragon.addressIn
  rw [uses.resolve, uses.locals, there, found]
  rcases place with isLocal | captured
  · simp only [isLocal, if_true, offset]
  · rw [same captured]

end Uses

theorem addressIn_congr (env : Env) (st : Stab) {σ τ : State} (rbp : τ.reg .rbp = σ.reg .rbp)
    (mem : τ.mem = σ.mem) (x : Name) : addressIn env st τ x = addressIn env st σ x := by
  unfold addressIn State.frame
  rw [rbp, mem]

theorem valuesIn_congr (env : Env) (st : Stab) {σ τ : State} (rbp : τ.reg .rbp = σ.reg .rbp)
    (mem : τ.mem = σ.mem) : valuesIn env st τ = valuesIn env st σ := by
  funext x
  rw [valuesIn, valuesIn, addressIn_congr env st rbp mem, mem]

def addressLine (st : Stab) (x : Name) (v : StabVar) (r : RegName) : Insn :=
  if stabHasLocalVar st x = true then .lea r v.stackBaseOffset
  else .loadDisplay r (v.dispOffset * abiPointerAlign)

theorem exec_addressLine {env : Env} {st : Stab} {x : Name} {v : StabVar}
    (found : stabVar st (stabResolveVar st x) = some v) {r : RegName} (named : r ≠ .blank) (σ : State) :
    exec env (addressLine st x v r) σ = some (σ.setReg r (addressIn env st σ x)) := by
  unfold addressLine addressIn
  rw [found]
  by_cases isLocal : stabHasLocalVar st x = true
  · simp only [isLocal, if_true]
    rw [exec_of_named (by simp [Insn.operands, named.symm])]
    rfl
  · simp only [isLocal]
    rw [exec_of_named (by simp [Insn.operands, named.symm])]
    rfl

theorem runBlock_variable {env : Env} {st : Stab} {x : Name} {v : StabVar}
    (found : stabVar st (stabResolveVar st x) = some v) {r : RegName} (named : r ≠ .blank) (σ : State) :
    runBlock env [addressLine st x v r, .load r r 0] σ = some (σ.setReg r (valuesIn env st σ x)) := by
  refine runBlock_cons_some (exec_addressLine found named σ) (runBlock_one ?_)
  rw [exec_of_named (by simp [Insn.operands, named.symm])]
  simp only [execNamed, State.setReg_reg_self, State.setReg_mem, Option.some.injEq]
  rw [show BitVec.ofInt 64 0 = 0#64 from rfl, BitVec.add_zero, valuesIn]
  simp only [State.setReg]
  congr 1
  funext q
  split <;> rfl

theorem pathAddress_place {acx : Acx} {x : Name} {v : StabVar}
    (found : stabVar acx.st (stabResolveVar acx.st x) = some v) :
    ∃ w, stabVar (acx.use x (stabResolveVar acx.st x) v).st (stabResolveVar acx.st x) = some w ∧
      (stabHasLocalVar acx.st x = true ∨ w.captured = true) ∧ w.type = v.type ∧
      ∀ (reg : Reg) (rs : RegisterSet),
        pathAddress x (stabResolveVar acx.st x) reg (acx.setRs rs) =
          .ok (w, (acx.use x (stabResolveVar acx.st x) v).setRs rs, [addressLine acx.st x w reg.name]) := by
  obtain ⟨w, acx', code, run⟩ := pathAddress_accepted x ⟨.blank, 0, false⟩ found
  obtain ⟨v', found', rfl, type, lines, -, -, -, again⟩ := pathAddress_run run
  rw [found] at found'
  cases found'
  by_cases isLocal : stabHasLocalVar acx.st x = true
  · have stays : acx.use x (stabResolveVar acx.st x) v = acx := by simp [Acx.use, isLocal]
    have same : w = v := by
      simp only [pathAddress, get_bind_eq_ok, ofOption_bind_eq_ok] at run
      obtain ⟨v', found', run⟩ := run
      rw [found] at found'
      cases found'
      rw [if_neg (by simp [isLocal])] at run
      simp only [emit_bind_eq_ok, pure_eq_ok] at run
      obtain ⟨_, ⟨same, -, -⟩, -⟩ := run
      exact same.symm
    subst same
    refine ⟨w, by rw [stays]; exact found, .inl isLocal, rfl, ?_⟩
    intro reg rs
    have here := again reg rs
    obtain ⟨-, printed⟩ := pathAddress_local here (by simp [isLocal])
    rw [here, printed, addressLine, if_pos isLocal]
  · have nonlocal : stabHasLocalVar acx.st x = false := by simpa using isLocal
    obtain ⟨there, captured, -⟩ := pathAddress_nonlocal run nonlocal
    refine ⟨w, there, .inr captured, type, ?_⟩
    intro reg rs
    have here := again reg rs
    obtain ⟨-, -, printed, -⟩ := pathAddress_nonlocal here nonlocal
    rw [here, printed, addressLine, if_neg isLocal]

theorem IntegerVar.pathRun {acx : Acx} {x : Name} {v : StabVar} {t : StabType}
    (var : IntegerVar acx.st x v) (known : stabType acx.st integerTypeIdx = some t) :
    ∃ acx' w, PathRun (astPath x) true acx v acx' (fun r => [addressLine acx'.st x w r, .load r r 0]) ∧
      stabVar acx'.st (stabResolveVar acx'.st x) = some w ∧ HasPlace acx'.st x ∧
        Uses acx.st acx'.st := by
  have uses := @Uses.of_use acx x _ _ var.found
  obtain ⟨w, there, place, type, address⟩ := pathAddress_place var.found
  have line : ∀ r, addressLine (acx.use x (stabResolveVar acx.st x) v).st x w r = addressLine acx.st x w r := by
    intro r
    unfold addressLine
    rw [uses.locals]
  have found : stabVar (acx.use x (stabResolveVar acx.st x) v).st
      (stabResolveVar (acx.use x (stabResolveVar acx.st x) v).st x) = some w := by
    rw [uses.resolve]
    exact there
  refine ⟨acx.use x (stabResolveVar acx.st x) v, w, ⟨var.found, var.resolved, rfl, ?_, ?_, ?_⟩, found,
    ⟨w, found, by rwa [uses.locals]⟩, uses⟩
  · intro r i member
    simp only [line] at member
    rcases List.mem_cons.mp member with rfl | member
    · unfold addressLine
      split
      · exact .lea _
      · exact .loadDisplay _
    · rw [List.mem_singleton.mp member]
      exact .load
  · intro _ isLocal
    have isLocal : stabHasLocalVar acx.st x = true := isLocal
    have same : w = v := by
      have stays : acx.use x (stabResolveVar acx.st x) v = acx := by simp [Acx.use, isLocal]
      rw [stays] at there
      exact Option.some.inj (there.symm.trans var.found)
    funext r
    rw [line, same, addressLine, if_pos isLocal]
    rfl
  · intro rs
    simp only [typeOfPath, get_bind_eq_ok]
    rw [if_neg (show ¬ stabResolveVar (acx.setRs rs).st (astPath x).first = resolveFailure from
      var.resolved), regGimme_bind_eq_ok]
    refine ⟨_, ?_, rfl⟩
    rw [bind_eq_ok]
    refine ⟨w, _, _, [.load rs.gimme.1.name rs.gimme.1.name 0], address rs.gimme.1 rs.gimme.2.1, ?_, ?_⟩
    · rw [ofOption_bind_eq_ok]
      refine ⟨t, ?_, ?_⟩
      · rw [type, var.integer]
        exact known
      · simp [astPath, AstPath.components, fieldLoop, pure_eq_ok, type]
    · rw [line]
      rfl

/-! ## Byte registers -/

/-- The line is an instruction: it names registers, and number literals in digits. -/
def Insn.Valid (i : Insn) : Prop :=
  RegName.blank ∉ i.operands ∧
    match i with
    | .set _ byte | .movzx _ byte => (RegName.ofLowByte byte).isSome = true
    | .movLit _ s => (decimal s).isSome = true
    | .storeDisplayFrame .. => False
    | _ => True

def Insn.compares (last : Option RegName) : Insn → Option RegName
  | .alu .cmp _ r => some r
  | _ => last

def Insn.InByte (last : Option RegName) : Insn → Prop
  | .set _ byte | .movzx _ byte => ∃ r, last = some r ∧ RegName.ofLowByte byte = some r
  | _ => True

/-- Every set and every movzx names the low byte of the right operand of the comparison before
it. -/
def NamesLowBytes : Option RegName → List Insn → Prop
  | _, [] => True
  | last, i :: code => i.InByte last ∧ NamesLowBytes (i.compares last) code

theorem namesLowBytes_append {last : Option RegName} {first second : List Insn} :
    NamesLowBytes last (first ++ second) ↔
      NamesLowBytes last first ∧ NamesLowBytes (first.foldl Insn.compares last) second := by
  induction first generalizing last with
  | nil => exact (and_iff_right trivial).symm
  | cons i first ih =>
    simp only [List.cons_append, NamesLowBytes, List.foldl_cons, ih, and_assoc]

theorem namesLowBytes_plain {code : List Insn} (plain : ∀ i ∈ code, ∀ last, i.InByte last)
    (last : Option RegName) : NamesLowBytes last code := by
  induction code generalizing last with
  | nil => trivial
  | cons i code ih =>
    exact ⟨plain i List.mem_cons_self last, ih (fun j member => plain j (List.mem_cons_of_mem i member)) _⟩

/-- The registers whose low byte is their second character and an l. -/
def RegName.hasLowByte : RegName → Bool
  | rax | rbx | rcx | rdx => true
  | _ => false

theorem ihatex86_lowByte {r : RegName} (named : r ≠ .blank) :
    ∃ byte, ihatex86 r.chars = .ok byte ∧ (RegName.ofLowByte byte = some r ↔ r.hasLowByte = true) := by
  cases r <;> first | exact ⟨_, rfl, by decide⟩ | exact absurd rfl named

/-- Whether every comparison of a condition has its right operand in rax, rbx, rcx or rdx, by the
registers that are left where the condition starts. -/
def AstExpr.comparesInBytes : AstExpr → List (Fin numRegs) → Bool
  | .bin op left right, free =>
      left.comparesInBytes free && right.comparesInBytes free.tail &&
        (!isRelop op || (target free.tail).hasLowByte)
  | _, _ => true

/-! ## The lines of an operation -/

structure Operates (op : Token) (l r : RegName) (f : BitVec 64 → BitVec 64 → BitVec 64)
    (lines : List Insn) : Prop where
  print : binCode op l r = .ok lines
  bytes : ∀ last, NamesLowBytes last lines ↔ (!isRelop op || r.hasLowByte) = true
  valid : (!isRelop op || r.hasLowByte) = true → ∀ i ∈ lines, i.Valid
  runs : (!isRelop op || r.hasLowByte) = true → ∀ (env : Env) (σ : State),
    ∃ τ, runBlock env lines σ = some τ ∧ τ.reg l = f (σ.reg l) (σ.reg r) ∧
      (∀ q, q ≠ l → q ≠ r → τ.reg q = σ.reg q) ∧ τ.mem = σ.mem

section

variable {op : Token} {l r : RegName}

theorem operates_alu {alu : Alu} {f : BitVec 64 → BitVec 64 → BitVec 64}
    (print : binCode op l r = .ok [.alu alu l r]) (plain : isRelop op = false)
    (writes : ∀ a b, (alu.eval a b).1 = some (f a b)) (left : l ≠ .blank) (right : r ≠ .blank) :
    Operates op l r f [.alu alu l r] := by
  have free : ∀ last, (Insn.alu alu l r).InByte last := fun _ => trivial
  refine ⟨print, ?_, ?_, ?_⟩
  · intro last
    simp [plain, NamesLowBytes, free]
  · intro _ i member
    rw [List.mem_singleton.mp member]
    exact ⟨by simp [Insn.operands, left.symm, right.symm], trivial⟩
  · intro _ env σ
    refine ⟨_, runBlock_one (exec_alu env σ left right), State.alu_reg_self (writes _ _), ?_,
      State.alu_mem ..⟩
    intro q other _
    exact State.alu_reg_of_ne σ alu _ other

def flagWord (b : Bool) : BitVec 64 := BitVec.ofNat 64 b.toNat

theorem operates_compare (relop : isRelop op = true) (left : l ≠ .blank) (right : r ≠ .blank) :
    ∃ lines, Operates op l r (fun a b => flagWord (op.compare a b)) lines := by
  obtain ⟨byte, made, low⟩ := ihatex86_lowByte right
  have same : binCode op l r = (ihatex86 r.chars).bind fun byte =>
      .ok [.alu .cmp l r, .set (relopCond op) byte, .movzx l byte] := by
    cases op <;> first | rfl | cases relop
  have print : binCode op l r = .ok [.alu .cmp l r, .set (relopCond op) byte, .movzx l byte] := by
    rw [same, made]
    rfl
  have own : (!isRelop op || r.hasLowByte) = r.hasLowByte := by rw [relop]; rfl
  refine ⟨_, print, ?_, ?_, ?_⟩
  · intro last
    rw [own, ← low]
    simp [NamesLowBytes, Insn.InByte, Insn.compares]
  · rw [own, ← low]
    intro known i member
    simp only [List.mem_cons, List.not_mem_nil, or_false] at member
    rcases member with rfl | rfl | rfl
    · exact ⟨by simp [Insn.operands, left.symm, right.symm], trivial⟩
    · exact ⟨by simp [Insn.operands], by simp [known]⟩
    · exact ⟨by simp [Insn.operands, left.symm], by simp [known]⟩
  · rw [own, ← low]
    intro known env σ
    have flag := relopCond_holds relop (σ.reg l) (σ.reg r)
    let b := op.compare (σ.reg l) (σ.reg r)
    let σ₁ := σ.alu .cmp l (σ.reg r)
    let σ₂ := σ₁.setReg r ((σ₁.reg r).extractLsb' 8 56 ++ BitVec.ofNat 8 b.toNat)
    have one : exec env (.alu .cmp l r) σ = some σ₁ := exec_alu env σ left right
    have two : exec env (.set (relopCond op) byte) σ₁ = some σ₂ := by
      have flags : σ₁.flags = some ⟨decide (σ.reg l = σ.reg r), (σ.reg l).slt (σ.reg r)⟩ := rfl
      simp only [exec, Insn.operands, List.not_mem_nil, if_false, execNamed, known, flags]
      simp only [Option.bind_eq_bind, Option.bind_some, flag]
      rfl
    have three : exec env (.movzx l byte) σ₂ = some (σ₂.setReg l (flagWord b)) := by
      rw [exec_of_named (by simp [Insn.operands, left.symm])]
      simp only [execNamed, known, Option.bind_eq_bind, Option.bind_some, Option.some.injEq]
      rw [State.setReg_reg_self, setByte_movzx]
      rfl
    refine ⟨σ₂.setReg l (flagWord b), runBlock_cons_some one (runBlock_cons_some two
      (runBlock_one three)), State.setReg_reg_self .., ?_, rfl⟩
    intro q notLeft notRight
    rw [State.setReg_reg_of_ne _ _ notLeft, State.setReg_reg_of_ne _ _ notRight]
    rfl

end

/-! ## Expressions and conditions -/

/-- The code of an expression of a type, and what it leaves of a state whose variables have some
values. Where a comparison would name another byte register, nothing is said of the runs. -/
structure Evaluated (e : AstExpr) (type : Index) (v : (Name → BitVec 64) → BitVec 64)
    (acx acx' : Acx) (code : List Insn) : Prop where
  run : Run (.expr e true) acx [⟨type, acx.rs.gimme.1⟩] (acx'.setRs acx.rs.gimme.2.1) code
  uses : Uses acx.st acx'.st
  places : ∀ x ∈ e.vars, HasPlace acx'.st x
  depends : ∀ s s', (∀ x ∈ e.vars, s x = s' x) → v s = v s'
  bytes : ∀ last, NamesLowBytes last code ↔ e.comparesInBytes acx.rs.freeList = true
  valid : e.comparesInBytes acx.rs.freeList = true → ∀ i ∈ code, i.Valid
  runs : e.comparesInBytes acx.rs.freeList = true → ∀ (env : Env) (σ : State),
    ∃ τ, runBlock env code σ = some τ ∧ τ.reg (target acx.rs.freeList) = v (valuesIn env acx'.st σ) ∧
      (∀ q, q ∉ acx.rs.freeList.map REGS → τ.reg q = σ.reg q) ∧ τ.mem = σ.mem

section

variable {e left right : AstExpr} {type : Index} {acx acx₁ acx₂ : Acx}

theorem evaluated_leaf {v : (Name → BitVec 64) → BitVec 64} {lines : List Insn} {acx' : Acx}
    (leaf : ∀ op l r, e ≠ .bin op l r) (enough : acx.rs.freeList ≠ [])
    (run : Run (.expr e true) acx [⟨type, acx.rs.gimme.1⟩] (acx'.setRs acx.rs.gimme.2.1)
      (acx.rs.gimme.2.2 ++ lines))
    (uses : Uses acx.st acx'.st) (places : ∀ x ∈ e.vars, HasPlace acx'.st x)
    (depends : ∀ s s', (∀ x ∈ e.vars, s x = s' x) → v s = v s')
    (plain : ∀ i ∈ lines, ∀ last, i.InByte last) (valid : ∀ i ∈ lines, i.Valid)
    (runs : ∀ (env : Env) (σ : State), runBlock env lines σ =
      some (σ.setReg (target acx.rs.freeList) (v (valuesIn env acx'.st σ)))) :
    Evaluated e type v acx acx' lines := by
  have always : ∀ free, e.comparesInBytes free = true := by
    intro free
    cases e <;> first | rfl | exact absurd rfl (leaf _ _ _)
  obtain ⟨i, rest, free⟩ := List.exists_cons_of_ne_nil enough
  rw [(RegisterSet.gimme_free free).2.1] at run
  refine ⟨run, uses, places, depends, ?_, fun _ => valid, ?_⟩
  · intro last
    exact iff_of_true (namesLowBytes_plain plain last) (always _)
  · intro _ env σ
    refine ⟨_, runs env σ, State.setReg_reg_self .., ?_, rfl⟩
    intro q outside
    apply State.setReg_reg_of_ne
    rintro rfl
    apply outside
    rw [free]
    exact List.mem_cons_self

theorem Evaluated.bin {op : Token} {v₁ v₂ : (Name → BitVec 64) → BitVec 64}
    {f : BitVec 64 → BitVec 64 → BitVec 64} {code₁ code₂ lines : List Insn}
    (first : Evaluated left type v₁ acx acx₁ code₁)
    (second : Evaluated right type v₂ (acx₁.setRs acx.rs.gimme.2.1) acx₂ code₂)
    (enough : 1 < acx.rs.freeList.length)
    (operates : Operates op (target acx.rs.freeList) (target acx.rs.freeList.tail) f lines) :
    Evaluated (.bin op left right) (if isRelop op then booleanTypeIdx else type)
      (fun s => f (v₁ s) (v₂ s)) acx acx₂ (code₁ ++ (code₂ ++ lines)) := by
  obtain ⟨i, others, free⟩ := List.exists_cons_of_ne_nil (List.ne_nil_of_length_pos (Nat.lt_of_succ_lt enough))
  have more : others ≠ [] := by
    rintro rfl
    rw [free] at enough
    exact absurd enough (Nat.lt_irrefl 1)
  obtain ⟨j, rest, rfl⟩ := List.exists_cons_of_ne_nil more
  have nodup := acx.rs.nodup_freeList
  rw [free, List.nodup_cons] at nodup
  have later : (acx₁.setRs acx.rs.gimme.2.1).rs.freeList = acx.rs.freeList.tail := freeList_gimme acx.rs
  have uses := first.uses.trans second.uses
  have bytes₂ := second.bytes
  have valid₂ := second.valid
  have runs₂ := second.runs
  rw [later] at bytes₂ valid₂ runs₂
  have all : (AstExpr.bin op left right).comparesInBytes acx.rs.freeList = true ↔
      left.comparesInBytes acx.rs.freeList = true ∧
        right.comparesInBytes acx.rs.freeList.tail = true ∧
        (!isRelop op || (target acx.rs.freeList.tail).hasLowByte) = true := by
    rw [AstExpr.comparesInBytes, Bool.and_eq_true, Bool.and_eq_true, and_assoc]
  refine ⟨?_, uses, ?_, ?_, ?_, ?_, ?_⟩
  · have print := operates.print
    rw [← target_gimme, ← freeList_gimme, ← target_gimme] at print
    have run := @Run.bin op left right true _ _ _ _ _ _ _ _ first.run second.run rfl print
    simp only [Acx.setRs_rs, Acx.setRs_setRs, RegisterSet.takeitback_gimme, takeitback_gimme_lines,
      freeList_gimme, free, List.tail_cons, handback, List.append_nil] at run
    exact run
  · intro x member
    rcases List.mem_append.mp member with member | member
    · exact second.uses.hasPlace (first.places x member)
    · exact second.places x member
  · intro s s' same
    have one := first.depends s s' fun x member => same x (List.mem_append_left _ member)
    have two := second.depends s s' fun x member => same x (List.mem_append_right _ member)
    simp only [one, two]
  · intro last
    rw [namesLowBytes_append, namesLowBytes_append, first.bytes, bytes₂, operates.bytes, all]
  · intro right_ i member
    obtain ⟨one, two, own⟩ := all.mp right_
    rcases List.mem_append.mp member with member | member
    · exact first.valid one i member
    · rcases List.mem_append.mp member with member | member
      · exact valid₂ two i member
      · exact operates.valid own i member
  · intro right_ env σ
    obtain ⟨one, two, own⟩ := all.mp right_
    obtain ⟨τ₁, ran₁, value₁, same₁, mem₁⟩ := first.runs one env σ
    obtain ⟨τ₂, ran₂, value₂, same₂, mem₂⟩ := runs₂ two env τ₁
    obtain ⟨τ₃, ran₃, value₃, same₃, mem₃⟩ := operates.runs own env τ₂
    have rbp := same₁ .rbp (not_mem_REGS (fun k => (REGS_ne k).2.1) _)
    -- the left operand is not among the registers left for the right one
    have kept : τ₂.reg (target acx.rs.freeList) = τ₁.reg (target acx.rs.freeList) := by
      apply same₂
      rw [free, List.tail_cons, target, List.mem_map_of_injective REGS_injective]
      exact nodup.1
    have stays : v₁ (valuesIn env acx₁.st σ) = v₁ (valuesIn env acx₂.st σ) := by
      apply first.depends
      intro x member
      exact congrArg (readWord σ.mem) (second.uses.addressIn (first.places x member) env σ).symm
    refine ⟨τ₃, runBlock_append_some ran₁ (runBlock_append_some ran₂ ran₃), ?_, ?_, ?_⟩
    · rw [value₃, kept, value₁, value₂, stays, valuesIn_congr env acx₂.st rbp mem₁]
    · intro q outside
      have ne : ∀ k ∈ acx.rs.freeList, q ≠ REGS k := fun k member same =>
        outside (same ▸ List.mem_map_of_mem member)
      rw [free] at ne outside
      rw [same₃ q, same₂ q, same₁ q]
      · rw [free]
        exact outside
      · rw [free]
        intro member
        exact outside (List.mem_cons_of_mem _ member)
      · rw [free]
        exact ne i List.mem_cons_self
      · rw [free]
        exact ne j (List.mem_cons_of_mem i List.mem_cons_self)
    · rw [mem₃, mem₂, mem₁]

end

/-- Expressions over literals in digits, integer variables, +, - and *. -/
inductive IntegerExpr (st : Stab) : AstExpr → Prop where
  | lit {s : Name} {n : Nat} (digits : decimal s = some n) : IntegerExpr st (.lit s)
  | var {x : Name} {v : StabVar} (var : IntegerVar st x v) : IntegerExpr st (.path (astPath x))
  | bin {op : Token} {alu : Alu} {left right : AstExpr} (arithmetic : op.alu = some alu)
      (first : IntegerExpr st left) (second : IntegerExpr st right) :
      IntegerExpr st (.bin op left right)

/-- Relational operators on such expressions, and AND and OR of these. -/
inductive Condition (st : Stab) : AstExpr → Prop where
  | compare {op : Token} {left right : AstExpr} (relop : isRelop op = true)
      (first : IntegerExpr st left) (second : IntegerExpr st right) :
      Condition st (.bin op left right)
  | and {left right : AstExpr} (first : Condition st left) (second : Condition st right) :
      Condition st (.bin .and left right)
  | or {left right : AstExpr} (first : Condition st left) (second : Condition st right) :
      Condition st (.bin .or left right)

/-- Whether a condition is true, for the values of its variables. -/
def AstExpr.truth (s : Name → BitVec 64) : AstExpr → Bool
  | .bin .and left right => left.truth s && right.truth s
  | .bin .or left right => left.truth s || right.truth s
  | .bin op left right => op.compare (left.value s) (right.value s)
  | _ => false

theorem truth_compare {op : Token} (relop : isRelop op = true) (left right : AstExpr)
    (s : Name → BitVec 64) :
    (AstExpr.bin op left right).truth s = op.compare (left.value s) (right.value s) := by
  cases op <;> first | rfl | cases relop

theorem flagWord_and (a b : Bool) : flagWord a &&& flagWord b = flagWord (a && b) := by
  cases a <;> cases b <;> rfl

theorem flagWord_or (a b : Bool) : flagWord a ||| flagWord b = flagWord (a || b) := by
  cases a <;> cases b <;> rfl

theorem need_bin {op : Token} {left right : AstExpr} {acx acx₁ : Acx}
    (enough : (AstExpr.bin op left right).need ≤ acx.rs.freeList.length) :
    left.need ≤ acx.rs.freeList.length ∧
      right.need ≤ (acx₁.setRs acx.rs.gimme.2.1).rs.freeList.length ∧
        1 < acx.rs.freeList.length := by
  have positive := right.need_pos
  rw [AstExpr.need] at enough
  rw [Acx.setRs_rs, freeList_gimme, List.length_tail]
  omega

theorem freeList_ne_nil {e : AstExpr} {acx : Acx} (enough : e.need ≤ acx.rs.freeList.length) :
    acx.rs.freeList ≠ [] := by
  intro empty
  have positive := e.need_pos
  rw [empty, List.length_nil] at enough
  omega

theorem IntegerExpr.evaluated {st : Stab} {e : AstExpr} (integer : IntegerExpr st e) {t : StabType}
    (known : stabType st integerTypeIdx = some t) (acx : Acx) (uses : Uses st acx.st)
    (enough : e.need ≤ acx.rs.freeList.length) :
    ∃ acx' code, Evaluated e integerTypeIdx (fun s => e.value s) acx acx' code := by
  have named := target_ne_blank acx.rs.freeList
  have some_ := freeList_ne_nil enough
  induction integer generalizing acx with
  | @lit s n digits =>
    have run := @Run.lit s true acx
    rw [target_gimme] at run
    refine ⟨acx, _, evaluated_leaf (by simp) some_ run (.refl _) (by simp [AstExpr.vars]) ?_ ?_ ?_ ?_⟩
    · intro s s' _
      rfl
    · intro i member last
      rw [List.mem_singleton.mp member]
      trivial
    · intro i member
      rw [List.mem_singleton.mp member]
      exact ⟨by simp [Insn.operands, named.symm], by simp [digits]⟩
    · intro env σ
      apply runBlock_one
      rw [exec_of_named (by simp [Insn.operands, named.symm])]
      simp [execNamed, AstExpr.value, digits]
  | @var x v var =>
    obtain ⟨w, var⟩ := uses.integerVar var
    obtain ⟨acx', u, path, found, place, later⟩ := var.pathRun ((uses.types _).trans known)
    have run := Run.path path
    rw [var.integer, target_gimme] at run
    refine ⟨acx', _, evaluated_leaf (by simp) some_ run later ?_ ?_ ?_ ?_ ?_⟩
    · intro y member
      rw [List.mem_singleton.mp member]
      exact place
    · intro s s' same
      exact same x List.mem_cons_self
    · intro i member last
      rcases List.mem_cons.mp member with rfl | member
      · unfold addressLine
        split <;> trivial
      · rw [List.mem_singleton.mp member]
        trivial
    · intro i member
      rcases List.mem_cons.mp member with rfl | member
      · unfold addressLine
        split <;> exact ⟨by simp [Insn.operands, named.symm], trivial⟩
      · rw [List.mem_singleton.mp member]
        exact ⟨by simp [Insn.operands, named.symm], trivial⟩
    · intro env σ
      exact runBlock_variable found named σ
  | @bin op alu left right arithmetic _ _ ih₁ ih₂ =>
    obtain ⟨enough₁, -, two⟩ := @need_bin op left right acx acx enough
    obtain ⟨acx₁, code₁, first⟩ := ih₁ acx uses enough₁ named some_
    obtain ⟨-, enough₂, -⟩ := @need_bin op left right acx acx₁ enough
    obtain ⟨acx₂, code₂, second⟩ := ih₂ (acx₁.setRs acx.rs.gimme.2.1) (uses.trans first.uses) enough₂
      (target_ne_blank _) (freeList_ne_nil enough₂)
    obtain ⟨print, plain⟩ := binCode_arithmetic arithmetic (target acx.rs.freeList)
      (target acx.rs.freeList.tail)
    have operates := operates_alu print plain (eval_arithmetic arithmetic) named (target_ne_blank _)
    have whole := first.bin second two operates
    rw [plain] at whole
    exact ⟨acx₂, _, whole⟩

-- Every condition is accepted, and where its comparisons name the right byte registers its code
-- leaves its truth.
theorem Condition.evaluated {st : Stab} {e : AstExpr} (condition : Condition st e) {t : StabType}
    (known : stabType st integerTypeIdx = some t) (acx : Acx) (uses : Uses st acx.st)
    (enough : e.need ≤ acx.rs.freeList.length) :
    ∃ acx' code, Evaluated e booleanTypeIdx (fun s => flagWord (e.truth s)) acx acx' code := by
  have named := target_ne_blank acx.rs.freeList
  induction condition generalizing acx with
  | @compare op left right relop first second =>
    obtain ⟨enough₁, -, two⟩ := @need_bin op left right acx acx enough
    obtain ⟨acx₁, code₁, first⟩ := first.evaluated known acx uses enough₁
    obtain ⟨-, enough₂, -⟩ := @need_bin op left right acx acx₁ enough
    obtain ⟨acx₂, code₂, second⟩ := second.evaluated known (acx₁.setRs acx.rs.gimme.2.1)
      (uses.trans first.uses) enough₂
    obtain ⟨lines, operates⟩ := operates_compare relop named (target_ne_blank acx.rs.freeList.tail)
    have whole := first.bin second two operates
    rw [relop, if_pos rfl] at whole
    simp only [← truth_compare relop] at whole
    exact ⟨acx₂, _, whole⟩
  | @and left right _ _ ih₁ ih₂ =>
    obtain ⟨enough₁, -, two⟩ := @need_bin .and left right acx acx enough
    obtain ⟨acx₁, code₁, first⟩ := ih₁ acx uses enough₁ named
    obtain ⟨-, enough₂, -⟩ := @need_bin .and left right acx acx₁ enough
    obtain ⟨acx₂, code₂, second⟩ := ih₂ (acx₁.setRs acx.rs.gimme.2.1) (uses.trans first.uses) enough₂
      (target_ne_blank _)
    have operates := @operates_alu .and _ (target acx.rs.freeList.tail) .and (· &&& ·) rfl rfl
      (fun _ _ => rfl) named (target_ne_blank _)
    have whole := first.bin second two operates
    simp only [flagWord_and] at whole
    exact ⟨acx₂, _, whole⟩
  | @or left right _ _ ih₁ ih₂ =>
    obtain ⟨enough₁, -, two⟩ := @need_bin .or left right acx acx enough
    obtain ⟨acx₁, code₁, first⟩ := ih₁ acx uses enough₁ named
    obtain ⟨-, enough₂, -⟩ := @need_bin .or left right acx acx₁ enough
    obtain ⟨acx₂, code₂, second⟩ := ih₂ (acx₁.setRs acx.rs.gimme.2.1) (uses.trans first.uses) enough₂
      (target_ne_blank _)
    have operates := @operates_alu .or _ (target acx.rs.freeList.tail) .or (· ||| ·) rfl rfl
      (fun _ _ => rfl) named (target_ne_blank _)
    have whole := first.bin second two operates
    simp only [flagWord_or] at whole
    exact ⟨acx₂, _, whole⟩

/-! ## Which comparisons leave the truth of a condition -/

/-- A condition is accepted, its lines are instructions, each comparison is followed by a set and a
movzx of the low byte of its right operand, and the code leaves the truth of the condition in its
register and the registers that were in use as they were. -/
def ConditionRight (e : AstExpr) (acx : Acx) : Prop :=
  ∃ r acx' code, analyzeExpr e true acx = .ok (r, acx', code) ∧ (∀ i ∈ code, i.Valid) ∧
    NamesLowBytes none code ∧ ∀ (env : Env) (σ : State),
      ∃ τ, runBlock env code σ = some τ ∧
        τ.reg r.reg.name = (if e.truth (valuesIn env acx'.st σ) = true then 1 else 0) ∧
        ∀ q, q ∉ acx.rs.freeList.map REGS → τ.reg q = σ.reg q

theorem ConditionRight.comparesInBytes {e : AstExpr} {acx : Acx} {t : StabType}
    (right : ConditionRight e acx) (condition : Condition acx.st e)
    (known : stabType acx.st integerTypeIdx = some t) (enough : e.need ≤ acx.rs.freeList.length) :
    e.comparesInBytes acx.rs.freeList = true := by
  obtain ⟨acx', code, evaluated⟩ := condition.evaluated known acx (.refl _) enough
  obtain ⟨r, acx'', code', accepted, -, bytes, -⟩ := right
  rw [evaluated.run.expr_accepted, Except.ok.injEq, Prod.mk.injEq, Prod.mk.injEq] at accepted
  obtain ⟨-, -, rfl⟩ := accepted
  exact (evaluated.bytes none).mp bytes

/-- Conditions evaluate to their truth just where each comparison has its right operand in rax, rbx,
rcx or rdx. -/
theorem conditionRight_iff (e : AstExpr) (acx : Acx) (t : StabType) (condition : Condition acx.st e)
    (known : stabType acx.st integerTypeIdx = some t) (enough : e.need ≤ acx.rs.freeList.length) :
    ConditionRight e acx ↔ e.comparesInBytes acx.rs.freeList = true := by
  constructor
  · intro right
    exact right.comparesInBytes condition known enough
  · intro inBytes
    obtain ⟨acx', code, evaluated⟩ := condition.evaluated known acx (.refl _) enough
    refine ⟨_, _, code, evaluated.run.expr_accepted, evaluated.valid inBytes,
      (evaluated.bytes none).mpr inBytes, ?_⟩
    intro env σ
    obtain ⟨τ, ran, value, others, -⟩ := evaluated.runs inBytes env σ
    rw [← target_gimme] at value
    refine ⟨τ, ran, value.trans ?_, others⟩
    show flagWord (e.truth (valuesIn env acx'.st σ)) = if e.truth (valuesIn env acx'.st σ) = true then 1 else 0
    cases e.truth (valuesIn env acx'.st σ) <;> rfl

theorem less_conditionRight : ConditionRight (.bin .lt (.lit "1") (.lit "2")) initialAcx := by
  have one : IntegerExpr initialAcx.st (.lit "1") := .lit (show decimal "1" = some 1 by decide +kernel)
  have two : IntegerExpr initialAcx.st (.lit "2") := .lit (show decimal "2" = some 2 by decide +kernel)
  exact (conditionRight_iff _ initialAcx _ (.compare rfl one two) rfl (by decide +kernel)).mpr
    (by decide +kernel)

theorem Condition.not_comparesInBytes {st : Stab} {e : AstExpr} (condition : Condition st e)
    (i : Fin numRegs) (rest : List (Fin numRegs)) : e.comparesInBytes (i :: 2 :: rest) = false := by
  have second : (target (2 :: rest)).hasLowByte = false := rfl
  induction condition with
  | compare relop => simp [AstExpr.comparesInBytes, relop, second]
  | and _ _ ih => simp [AstExpr.comparesInBytes, ih]
  | or _ _ ih => simp [AstExpr.comparesInBytes, ih]

theorem not_comparesInBytes_regInit {st : Stab} {op : Token} {left right : AstExpr}
    (second : Condition st right) :
    (AstExpr.bin op left right).comparesInBytes regInit.freeList = false := by
  have free : regInit.freeList = 0 :: 1 :: 2 :: regInit.freeList.drop 3 := by decide +kernel
  rw [free, AstExpr.comparesInBytes, List.tail_cons, second.not_comparesInBytes]
  simp

-- (1 < 2) and (3 < 4)
def bothLess : AstExpr := .bin .and (.bin .lt (.lit "1") (.lit "2")) (.bin .lt (.lit "3") (.lit "4"))

-- The second comparison names 8l.
theorem not_forall_conditionRight : ¬ ∀ (e : AstExpr) (acx : Acx) (t : StabType),
    Condition acx.st e → stabType acx.st integerTypeIdx = some t →
    e.need ≤ acx.rs.freeList.length → ConditionRight e acx := by
  intro claim
  have digit : ∀ s, decimal s ≠ none → IntegerExpr initialAcx.st (.lit s) := by
    intro s known
    obtain ⟨n, digits⟩ := Option.ne_none_iff_exists'.mp known
    exact .lit digits
  have first : Condition initialAcx.st (.bin .lt (.lit "1") (.lit "2")) :=
    .compare rfl (digit "1" (by decide +kernel)) (digit "2" (by decide +kernel))
  have second : Condition initialAcx.st (.bin .lt (.lit "3") (.lit "4")) :=
    .compare rfl (digit "3" (by decide +kernel)) (digit "4" (by decide +kernel))
  have condition : Condition initialAcx.st bothLess := .and first second
  have enough : bothLess.need ≤ initialAcx.rs.freeList.length := by decide +kernel
  have right := claim bothLess initialAcx _ condition rfl enough
  have inBytes := right.comparesInBytes condition rfl enough
  rw [bothLess, show initialAcx.rs = regInit from rfl, not_comparesInBytes_regInit second] at inBytes
  cases inBytes

end Dragon
