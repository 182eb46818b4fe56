import Dragon.Codegen.Allocation
import Dragon.Codegen.Entry
import Dragon.Codegen.Labels
import Dragon.Codegen.Loops
import Dragon.Machine.Balance

/-! How far the code of a subprogram moves the stack.

The words that the code of an expression leaves on the stack can be read off its
syntax, like its registers: what is spilled stays, actuals are pushed and never
removed, and the registers popped after a call are not those saved before it.
For a statement there is such a number when the paths through it agree. Where
the body of a subprogram has one, the depth of the stack is known at each of its
lines.
-/

set_option autoImplicit false

namespace Dragon

open PartialStep ByteMemory RegisterSet

/-! ## Words left on the stack -/

namespace AstExpr

/-- The words left by the lines of a call after its actuals: a register that was spilled, the frame
pointer and, without actuals, room for the result, less the two words popped and the registers. -/
def finishGrowth (count : Nat) (rs : RegisterSet) : Int :=
  rs.gimme.1.spilled + (1 + if count = 0 then 1 else 0) - 2 -
    (rs.gimme.2.1.restored rs.gimme.1).length

mutual

/-- The words that the code of an expression leaves on the stack. -/
def growth (magic : AstPath → Bool) : AstExpr → RegisterSet → Int
  | .app p args, rs =>
      if magic p then growthMagic magic args rs
      else rs.saved.length + (growthActuals magic args rs +
        finishGrowth args.length (allocActuals magic args rs))
  | .bin _ left right, rs =>
      left.growth magic rs + right.growth magic (left.alloc magic rs).2 -
        (right.alloc magic (left.alloc magic rs).2).1.spilled
  | .deref target, rs => target.growth magic rs
  | .idx _ index, rs => rs.gimme.1.spilled + index.growth magic rs.take.2
  | .lit _, rs => rs.gimme.1.spilled
  | .path _, rs => rs.gimme.1.spilled
  | .un _ operand, rs => operand.growth magic rs
  | .addrof target, rs => target.growth magic rs

def growthActuals (magic : AstPath → Bool) : List AstExpr → RegisterSet → Int
  | [], _ => 0
  | e :: args, rs => e.growth magic rs + (1 + growthActuals magic args (e.alloc magic rs).2)

/-- Each argument of a magic call is pushed and removed, and its register given back. -/
def growthMagic (magic : AstPath → Bool) : List AstExpr → RegisterSet → Int
  | [], _ => 0
  | e :: args, rs =>
      e.growth magic rs +
        (growthMagic magic args (release (e.alloc magic rs)) - (e.alloc magic rs).1.spilled)

end

theorem alloc_ne_rsp {magic : AstPath → Bool} :
    ∀ (e : AstExpr) (rs : RegisterSet), (e.alloc magic rs).1.name ≠ .rsp
  | .app p args, rs => by
      rw [alloc]
      split
      · exact show RegName.blank ≠ .rsp by decide
      · exact gimme_ne_rsp _
  | .bin _ left _, rs => alloc_ne_rsp left rs
  | .deref target, rs => alloc_ne_rsp target rs
  | .idx _ index, rs => alloc_ne_rsp index rs.take.2
  | .lit _, rs => gimme_ne_rsp rs
  | .path _, rs => gimme_ne_rsp rs
  | .un _ operand, rs => alloc_ne_rsp operand rs
  | .addrof target, rs => alloc_ne_rsp target rs

end AstExpr

/-! ## Expressions -/

section

variable {level : Label → Int}

theorem Leveled.rises {other : Label → Int} {h h' : Int} {code : List Insn}
    (leveled : Leveled other h code h') (plain : ∀ i ∈ code, i.plain = true) (d : Int) :
    Rises level d code (d + 8 * (h' - h)) := by
  induction leveled generalizing d with
  | nil =>
    rw [Int.sub_self, Int.mul_zero, Int.add_zero]
    exact .nil
  | @cons h h' i code counted allowed rest ih =>
    have later := ih (fun j member => plain j (List.mem_cons_of_mem i member)) (d + 8 * i.pushed)
    have same : d + 8 * i.pushed + 8 * (h' - (h + i.pushed)) = d + 8 * (h' - h) := by omega
    rw [same] at later
    refine .cons (Insn.bytes_of_counted counted) ?_ later
    intro l place
    have here := plain i List.mem_cons_self
    cases i <;> first | (cases here; done) | cases place

theorem Rises.level_ {code : List Insn} (leveled : Leveled (fun _ => 0) 0 code 0)
    (plain : ∀ i ∈ code, i.plain = true) (d : Int) : Rises level d code d := by
  have rises := @Leveled.rises level _ _ _ _ leveled plain d
  rwa [Int.sub_self, Int.mul_zero, Int.add_zero] at rises

theorem rises_gimme (rs : RegisterSet) (d : Int) :
    Rises level d rs.gimme.2.2 (d + 8 * rs.gimme.1.spilled) := by
  have rises := @Leveled.rises level _ _ _ _ (@leveled_gimme (fun _ => 0) rs 0) (gimme_plain rs) d
  rwa [Int.zero_add, Int.sub_zero] at rises

theorem rises_takeitback (rs : RegisterSet) {r : Reg} (name : r.name ≠ .rsp) (d : Int) :
    Rises level d (rs.takeitback r).2 (d - 8 * r.spilled) := by
  have leveled := @leveled_takeitback (fun _ => 0) rs _ name _ (Int.le_refl r.spilled)
  have rises := @Leveled.rises level _ _ _ _ leveled (takeitback_plain rs r) d
  have same : d + 8 * (r.spilled - r.spilled - r.spilled) = d - 8 * r.spilled := by omega
  rwa [same] at rises

theorem rises_path {lines : RegName → List Insn} (path : PathLines lines) {r : RegName}
    (name : r ≠ .rsp) (d : Int) : Rises level d (lines r) d :=
  .level_ (leveled_path path name 0) (path.plain r) d

theorem rises_sets {i : Insn} {r : RegName} (sets : i.sets = some r) (name : r ≠ .rsp)
    (still : i.pushed = 0) (plain : i.plain = true) (d : Int) : Rises level d [i] d := by
  refine .level_ (leveled_sets sets name still 0) ?_ d
  intro j member
  rwa [List.mem_singleton.mp member]

theorem rises_binCode {op : Token} {l r : RegName} {lines : List Insn}
    (print : binCode op l r = .ok lines) (name : l ≠ .rsp) (d : Int) : Rises level d lines d :=
  .level_ (leveled_binCode print name (Int.le_refl 0))
    (fun i member => Insn.plain_of_ofExpr (binCode_ofExpr print i member)) d

theorem rises_push (r : RegName) (d : Int) : Rises level d [.push r] (d + 8) :=
  .line rfl rfl

theorem rises_pop {r : RegName} (name : r ≠ .rsp) (d : Int) : Rises level d [.pop r] (d - 8) := by
  have counted : (Insn.pop r).counted = true := by simpa [Insn.counted, Insn.sets] using name
  exact .line (Insn.bytes_of_counted counted) rfl

theorem rises_call (f : Name) (d : Int) : Rises level d [.call f] d := by
  have rises : Rises level d [.call f] (d + 0) := .line rfl rfl
  rwa [Int.add_zero] at rises

theorem rises_pushes (rs : List (Fin numRegs)) (d : Int) :
    Rises level d (rs.map fun i => .push (REGS i)) (d + 8 * rs.length) := by
  induction rs generalizing d with
  | nil => simpa using Rises.nil
  | cons i rs ih =>
    have all := (rises_push (REGS i) d).append (ih (d + 8))
    have same : d + 8 + 8 * (rs.length : Int) = d + 8 * (i :: rs).length := by
      rw [List.length_cons]
      omega
    rwa [same] at all

theorem rises_pops (rs : List (Fin numRegs)) (d : Int) :
    Rises level d (rs.map fun i => .pop (REGS i)) (d - 8 * rs.length) := by
  induction rs generalizing d with
  | nil => simpa using Rises.nil
  | cons i rs ih =>
    have all := (rises_pop (REGS_ne i).1 d).append (ih (d - 8))
    have same : d - 8 - 8 * (rs.length : Int) = d - 8 * (i :: rs).length := by
      rw [List.length_cons]
      omega
    rwa [same] at all

theorem rises_finishCall (f : Name) (count : Nat) (rs : RegisterSet) (d : Int) :
    Rises level d (finishCall f count rs) (d + 8 * AstExpr.finishGrowth count rs) := by
  have spill : Rises level _ _ _ := rises_gimme rs d
  have room : ∀ x, Rises level x [if count = 0 then Insn.subImm .rsp 8 else .blank]
      (x + 8 * if count = 0 then 1 else 0) := by
    intro x
    split
    · exact .line rfl rfl
    · exact .line rfl rfl
  have enter : ∀ x, Rises level x (enterCall f count) (x + 8 + 8 * if count = 0 then 1 else 0) := by
    intro x
    exact (rises_push .rbp x).append ((room _).append
      ((rises_sets rfl (by decide) rfl rfl _).append (rises_call f _)))
  have leave : ∀ x, Rises level x [.pop rs.gimme.1.name, .pop .rbp] (x - 8 - 8) := fun x =>
    (rises_pop (gimme_ne_rsp rs) x).append (rises_pop (by decide) _)
  have all := spill.append (((enter _).append (leave _)).append
    (rises_pops (rs.gimme.2.1.restored rs.gimme.1) _))
  have same : d + 8 * rs.gimme.1.spilled + 8 + (8 * if count = 0 then 1 else 0) - 8 - 8 -
      8 * ((rs.gimme.2.1.restored rs.gimme.1).length : Int) =
        d + 8 * AstExpr.finishGrowth count rs := by
    unfold AstExpr.finishGrowth
    omega
  rwa [same] at all

theorem rises_routine (r : RegName) (f : Name) (d : Int) :
    Rises level d [.push r, .call f, .addImm .rsp 8] d := by
  have remove : Rises level (d + 8) [.addImm .rsp 8] (d + 8 + -8) := .line rfl rfl
  rw [Int.add_neg_cancel_right] at remove
  exact (rises_push r d).append ((rises_call f _).append remove)

end

def Node.newlineCall : Node → Prop
  | .reads newline _ => newline = [] ∨ ∃ f, newline = [.call f]
  | _ => True

def Node.growth (magic : AstPath → Bool) (rs : RegisterSet) : Node → Int
  | .expr e _ => e.growth magic rs
  | .call p args => (AstExpr.app p args).growth magic rs
  | .actuals args _ => AstExpr.growthActuals magic args rs
  | .writes args | .reads _ args => AstExpr.growthMagic magic args rs

theorem Run.rises {node : Node} {acx acx' : Acx} {results : List Resu} {code : List Insn}
    (run : Run node acx results acx' code) (newline : node.newlineCall) {magic : AstPath → Bool}
    (calls : ∀ p, isMagic acx.st p = magic p) (level : Label → Int) (d : Int) :
    Rises level d code (d + 8 * node.growth magic acx.rs) := by
  induction run generalizing d with
  | @lit s rv acx =>
    exact (rises_gimme acx.rs d).append (rises_sets rfl (gimme_ne_rsp acx.rs) rfl rfl _)
  | @path p rv acx _ _ _ path =>
    exact (rises_gimme acx.rs d).append (rises_path path.path (gimme_ne_rsp acx.rs) _)
  | @deref p rv acx _ _ _ _ _ path =>
    have name := gimme_ne_rsp acx.rs
    exact ((rises_gimme acx.rs d).append (rises_path path.path name _)).append
      (rises_sets rfl name rfl rfl _)
  | @idx p e rv acx acx₁ acx₂ _ _ _ _ _ _ ety _ path _ _ index _ ih =>
    have calls₁ : ∀ p, isMagic (acx₁.setRs acx.rs.gimme.2.1).st p = magic p := fun p =>
      (isMagic_congr path.scopes path.types p).trans (calls p)
    have name : ety.reg.name ≠ .rsp := by
      have value := index.alloc calls₁
      rw [(Prod.mk.inj value).1]
      exact AstExpr.alloc_ne_rsp _ _
    have load : ∀ x, Rises level x (if rv then [Insn.load ety.reg.name ety.reg.name 0] else []) x := by
      intro x
      cases rv with
      | false => exact .nil
      | true => exact rises_sets rfl name rfl rfl x
    have all := ((rises_gimme acx.rs d).append (rises_path path.path (gimme_ne_rsp acx.rs) _)).append
      ((ih trivial calls₁ _).append (load _))
    rwa [Int.add_assoc, ← Int.mul_add] at all
  | @bin op left right rv acx acx₁ acx₂ lty rty _ _ _ first second _ print ih₁ ih₂ =>
    have calls₁ : ∀ p, isMagic acx₁.st p = magic p := fun p =>
      (isMagic_congr first.scopes first.types p).trans (calls p)
    have one := Prod.mk.inj (first.alloc calls)
    have two := Prod.mk.inj (second.alloc calls₁)
    have name₁ : lty.reg.name ≠ .rsp := one.1 ▸ AstExpr.alloc_ne_rsp _ _
    have name₂ : rty.reg.name ≠ .rsp := two.1 ▸ AstExpr.alloc_ne_rsp _ _
    have all := (ih₁ trivial calls d).append ((ih₂ trivial calls₁ _).append
      ((rises_binCode print name₁ _).append (rises_takeitback acx₂.rs name₂ _)))
    have same : d + 8 * (left.growth magic acx.rs) + 8 * right.growth magic acx₁.rs -
        8 * rty.reg.spilled = d + 8 * (AstExpr.bin op left right).growth magic acx.rs := by
      rw [AstExpr.growth, ← one.2, ← two.1]
      omega
    exact same ▸ all
  | @un op e rv acx acx₁ ety _ operand _ _ ih =>
    have name : ety.reg.name ≠ .rsp := (Prod.mk.inj (operand.alloc calls)).1 ▸ AstExpr.alloc_ne_rsp _ _
    exact (ih trivial calls d).append (rises_sets rfl name rfl rfl _)
  | app _ ih => exact ih trivial calls d
  | @magic p args pt which acx acx₁ _ code callee magic' body ih =>
    have here := (calls p).symm.trans (isMagic_of_magic callee magic')
    have last : ∀ x, Rises level x which.finish x := by
      intro x
      cases which with
      | writeln => exact rises_call _ x
      | _ => exact .nil
    have loop : Rises level d code (d + 8 * AstExpr.growthMagic magic args acx.rs) := by
      cases which with
      | write | writeln => exact ih trivial calls d
      | read => exact ih (.inl rfl) calls d
      | readln => exact ih (.inr ⟨_, rfl⟩) calls d
    rw [Node.growth, AstExpr.growth, if_pos here]
    exact loop.append (last _)
  | @call p args _ _ formals retty acx acx₁ _ _ callee magic' _ actuals ih =>
    have here : ¬ magic p = true := by
      rw [← calls, isMagic_of_none callee magic']
      decide
    have rs : acx₁.rs = AstExpr.allocActuals magic args acx.rs := actuals.allocates calls
    have all := (rises_pushes acx.rs.saved d).append ((ih trivial calls _).append
      (rises_finishCall p.first args.length acx₁.rs _))
    have same : d + 8 * (acx.rs.saved.length : Int) + 8 * AstExpr.growthActuals magic args acx.rs +
        8 * AstExpr.finishGrowth args.length acx₁.rs =
          d + 8 * (AstExpr.app p args).growth magic acx.rs := by
      rw [AstExpr.growth, if_neg here, ← rs]
      omega
    exact same ▸ all
  | noActuals =>
    rw [Node.growth, AstExpr.growthActuals, Int.mul_zero, Int.add_zero]
    exact .nil
  | @actual e args _ _ acx acx₁ _ et _ _ _ _ _ value _ _ _ ih₁ ih₂ =>
    have calls₁ : ∀ p, isMagic acx₁.st p = magic p := fun p =>
      (isMagic_congr value.scopes value.types p).trans (calls p)
    have all := (ih₁ trivial calls d).append
      ((rises_push et.reg.name _).append (ih₂ trivial calls₁ _))
    have same : d + 8 * (e.growth magic acx.rs) + 8 + 8 * AstExpr.growthActuals magic args acx₁.rs =
        d + 8 * AstExpr.growthActuals magic (e :: args) acx.rs := by
      rw [AstExpr.growthActuals, ← (Prod.mk.inj (value.alloc calls)).2]
      omega
    exact same ▸ all
  | wrote =>
    rw [Node.growth, AstExpr.growthMagic, Int.mul_zero, Int.add_zero]
    exact .nil
  | @write e args acx acx₁ _ r f _ _ _ value _ _ ih₁ ih₂ =>
    have calls₁ : ∀ p, isMagic acx₁.st p = magic p := fun p =>
      (isMagic_congr value.scopes value.types p).trans (calls p)
    have held := Prod.mk.inj (value.alloc calls)
    have name : r.reg.name ≠ .rsp := held.1 ▸ AstExpr.alloc_ne_rsp _ _
    have all := (ih₁ trivial calls d).append ((rises_routine r.reg.name f _).append
      ((rises_takeitback acx₁.rs name _).append (ih₂ trivial calls₁ _)))
    have same : d + 8 * (e.growth magic acx.rs) - 8 * r.reg.spilled +
        8 * AstExpr.growthMagic magic args (acx₁.rs.takeitback r.reg).1 =
          d + 8 * AstExpr.growthMagic magic (e :: args) acx.rs := by
      rw [AstExpr.growthMagic, ← value.alloc calls, release]
      dsimp only
      omega
    exact same ▸ all
  | read_ =>
    rw [Node.growth, AstExpr.growthMagic, Int.mul_zero, Int.add_zero]
    exact .nil
  | @read lines e args acx acx₁ _ r f _ _ _ _ value _ _ ih₁ ih₂ =>
    have calls₁ : ∀ p, isMagic acx₁.st p = magic p := fun p =>
      (isMagic_congr value.scopes value.types p).trans (calls p)
    have held := Prod.mk.inj (value.alloc calls)
    have name : r.reg.name ≠ .rsp := held.1 ▸ AstExpr.alloc_ne_rsp _ _
    have line : ∀ x, Rises level x lines x := by
      intro x
      rcases newline with rfl | ⟨f, rfl⟩
      · exact .nil
      · exact rises_call f x
    have all := (ih₁ trivial calls d).append (((rises_routine r.reg.name f _).append (line _)).append
      ((rises_takeitback acx₁.rs name _).append (ih₂ newline calls₁ _)))
    have same : d + 8 * (e.growth magic acx.rs) - 8 * r.reg.spilled +
        8 * AstExpr.growthMagic magic args (acx₁.rs.takeitback r.reg).1 =
          d + 8 * AstExpr.growthMagic magic (e :: args) acx.rs := by
      rw [AstExpr.growthMagic, ← value.alloc calls, release]
      dsimp only
      omega
    exact same ▸ all

/-! ## Statements -/

namespace AstStmt

mutual

/-- The words that the code of a statement leaves on the stack, when every path through it leaves the
same. The counter that a for loop pushes stays. -/
def growth (magic : AstPath → Bool) : AstStmt → RegisterSet → Option Int
  | .null, _ => some 0
  | .assign lvalue rvalue, rs =>
      let lty := lvalue.alloc magic rs
      let rty := rvalue.alloc magic lty.2
      some (lvalue.growth magic rs + rvalue.growth magic lty.2 - rty.1.spilled - lty.1.spilled)
  | .foor _ start finish body, rs =>
      let sty := start.alloc magic rs
      let ety := finish.alloc magic sty.2
      if body.growth magic ety.2.take.2 = some 0 then
        some (start.growth magic rs + finish.growth magic sty.2 + ety.2.gimme.1.spilled + 1 -
          ety.1.spilled - sty.1.spilled)
      else none
  | .ite cond thenn elze, rs =>
      let cty := cond.alloc magic rs
      match thenn.growth magic (release cty),
          elze.growth magic (thenn.alloc magic (release cty)) with
      | some yes, some no =>
          -- only the path into the first branch gives the register of the condition back
          if yes - cty.1.spilled = no then some (cond.growth magic rs + no) else none
      | _, _ => none
  | .proc p args, rs =>
      some ((AstExpr.app p args).growth magic rs - ((AstExpr.app p args).alloc magic rs).1.spilled)
  | .stmts body, rs => growthAll magic body rs
  | .wdo cond body, rs =>
      let cty := cond.alloc magic rs
      if body.growth magic (release cty) = some (cty.1.spilled - cond.growth magic rs) then
        some (cond.growth magic rs)
      else none

def growthAll (magic : AstPath → Bool) : List AstStmt → RegisterSet → Option Int
  | [], _ => some 0
  | s :: body, rs =>
      match s.growth magic rs, growthAll magic body (s.alloc magic rs) with
      | some first, some rest => some (first + rest)
      | _, _ => none

end

end AstStmt

/-- The lines rise if the labels with numbers from lo up to hi stand where they say. -/
def RisesIn (lo hi : Nat) (d : Int) (code : List Insn) (d' : Int) : Prop :=
  ∃ stand : Nat → Int, ∀ level : Label → Int,
    (∀ k, lo ≤ k → k < hi → level (.loc k) = stand k) → Rises level d code d'

namespace RisesIn

variable {lo mid hi : Nat} {d d₁ d₂ : Int}

theorem plain {code : List Insn} (rises : ∀ level, Rises level d code d₁) : RisesIn lo hi d code d₁ :=
  ⟨fun _ => 0, fun level _ => rises level⟩

theorem append {first second : List Insn} (one : RisesIn lo mid d first d₁)
    (two : RisesIn mid hi d₁ second d₂) (le : lo ≤ mid) (le' : mid ≤ hi) :
    RisesIn lo hi d (first ++ second) d₂ := by
  obtain ⟨stand₁, rises₁⟩ := one
  obtain ⟨stand₂, rises₂⟩ := two
  refine ⟨fun k => if k < mid then stand₁ k else stand₂ k, ?_⟩
  intro level agree
  refine (rises₁ level ?_).append (rises₂ level ?_)
  · intro k low high
    exact (agree k low (Nat.lt_of_lt_of_le high le')).trans (if_pos high)
  · intro k low high
    exact (agree k (Nat.le_trans le low) high).trans (if_neg (Nat.not_lt.mpr low))

theorem pair {code : List Insn} {x y : Int} (stand : Nat → Int)
    (rises : ∀ level : Label → Int, level (.loc lo) = x → level (.loc (lo + 1)) = y →
      (∀ k, lo + 2 ≤ k → k < hi → level (.loc k) = stand k) → Rises level d code d₁)
    (le : lo + 2 ≤ hi) : RisesIn lo hi d code d₁ := by
  refine ⟨fun k => if k = lo then x else if k = lo + 1 then y else stand k, ?_⟩
  intro level agree
  refine rises level ?_ ?_ ?_
  · exact (agree lo (Nat.le_refl _) (by omega)).trans (if_pos rfl)
  · exact (agree (lo + 1) (by omega) (by omega)).trans ((if_neg (by omega)).trans (if_pos rfl))
  · intro k low high
    exact (agree k (by omega) high).trans ((if_neg (by omega)).trans (if_neg (by omega)))

end RisesIn

section

variable {level : Label → Int} {d : Int}

theorem rises_label {l : Label} (here : level l = d) : Rises level d [.label l] d := by
  have rises : Rises level d [.label l] (d + 0) := .one rfl fun l' place => by
    cases place
    exact here
  rwa [Int.add_zero] at rises

theorem rises_jcc {cc : Cond} {l : Label} (there : level l = d) : Rises level d [.jcc cc l] d := by
  have rises : Rises level d [.jcc cc l] (d + 0) := .one rfl fun l' place => by
    cases place
    exact there
  rwa [Int.add_zero] at rises

end

theorem StmtRun.label_le {node : StmtNode} {acx acx' : Acx} {code : List Insn}
    (run : StmtRun node acx acx' code) : acx.label ≤ acx'.label := by
  obtain ⟨all, prints, -⟩ := run.prints
  exact prints.listing.numbered.le

theorem PathRun.sameLabel {p : AstPath} {rv : Bool} {acx acx' : Acx} {v : StabVar}
    {lines : RegName → List Insn} (path : PathRun p rv acx v acx' lines) : acx'.label = acx.label := by
  rw [path.used]
  unfold Acx.use
  split <;> rfl

def StmtNode.growth (magic : AstPath → Bool) (rs : RegisterSet) : StmtNode → Option Int
  | .stmt s => s.growth magic rs
  | .stmts body => AstStmt.growthAll magic body rs

theorem StmtRun.rises {node : StmtNode} {acx acx' : Acx} {code : List Insn}
    (run : StmtRun node acx acx' code) {magic : AstPath → Bool}
    (calls : ∀ p, isMagic acx.st p = magic p) {g : Int} (grows : node.growth magic acx.rs = some g)
    (d : Int) : RisesIn acx.label acx'.label d code (d + 8 * g) := by
  induction run generalizing g d with
  | null =>
    cases grows
    rw [Int.mul_zero, Int.add_zero]
    exact .plain fun _ => .nil
  | @assign lvalue rvalue acx acx₁ acx₂ acx₃ acx₄ acx₅ lty rty _ _ left target right _ first second =>
    subst first second
    have calls₂ : ∀ p, isMagic acx₂.st p = magic p := fun p =>
      (isMagic_congr (left.scopes.trans target.scopes) (target.types.trans left.types) p).trans (calls p)
    have sameRs : acx₂.rs = acx₁.rs := by
      obtain ⟨b, rfl⟩ := target.assigned
      rfl
    have one := Prod.mk.inj (left.alloc calls)
    have two := Prod.mk.inj (right.alloc calls₂)
    have name₁ : lty.reg.name ≠ .rsp := one.1 ▸ AstExpr.alloc_ne_rsp _ _
    have name₂ : rty.reg.name ≠ .rsp := two.1 ▸ AstExpr.alloc_ne_rsp _ _
    have store : ∀ level x, Rises level x [.store lty.reg.name rty.reg.name] x := fun level x =>
      .level_ (leveled_one rfl 0) (by simp [Insn.plain, Insn.straight]) x
    refine .plain fun level => ?_
    have all := (left.rises trivial calls level d).append ((right.rises trivial calls₂ level _).append
      ((store level _).append ((rises_takeitback acx₃.rs name₂ _).append
        (rises_takeitback (acx₃.rs.takeitback rty.reg).1 name₁ _))))
    have same : d + 8 * (lvalue.growth magic acx.rs) + 8 * (rvalue.growth magic acx₂.rs) -
        8 * rty.reg.spilled - 8 * lty.reg.spilled = d + 8 * g := by
      rw [StmtNode.growth, AstStmt.growth, ← left.alloc calls] at grows
      simp only [← sameRs, ← two.1, Option.some.injEq] at grows
      omega
    exact same ▸ all
  | @foor id start finish body acx acx₁ acx₂ acx₃ acx₄ acx₅ acx₆ sty ety _ lines _ code₁ code₂ code₃
      first last _ _ path _ loop back back' _ ih =>
    subst back back'
    have calls₁ : ∀ p, isMagic acx₁.st p = magic p := fun p =>
      (isMagic_congr first.scopes first.types p).trans (calls p)
    have calls₂ : ∀ p, isMagic acx₂.st p = magic p := fun p =>
      (isMagic_congr last.scopes last.types p).trans (calls₁ p)
    have calls₃ : ∀ p, isMagic (stabEnter acx₃.st) p = magic p := fun p => (isMagic_enter _ p).trans
      ((isMagic_congr path.scopes path.types p).trans (calls₂ p))
    have one := Prod.mk.inj (first.alloc calls)
    have two := Prod.mk.inj (last.alloc calls₁)
    have name₁ : sty.reg.name ≠ .rsp := one.1 ▸ AstExpr.alloc_ne_rsp _ _
    have name₂ : ety.reg.name ≠ .rsp := two.1 ▸ AstExpr.alloc_ne_rsp _ _
    rw [StmtNode.growth, AstStmt.growth, ← first.alloc calls] at grows
    simp only [← last.alloc calls₁] at grows
    split at grows
    next still =>
      -- the counter stays on the stack, and each round of the loop starts as deep as the first
      have number : acx.label = acx₃.label :=
        (path.sameLabel.trans (last.label.trans first.label)).symm
      have inner := ih calls₃ (g := 0) still
      have le : acx₃.label + 2 ≤ acx₄.label := loop.label_le
      let x := d + 8 * start.growth magic acx.rs + 8 * finish.growth magic acx₁.rs +
        8 * acx₂.rs.gimme.1.spilled + 8
      obtain ⟨stand, rises⟩ := inner x
      rw [Int.mul_zero, Int.add_zero] at rises
      rw [number]
      refine RisesIn.pair (x := x) (y := x) stand ?_ le
      intro level here there agree
      have body := rises level agree
      have bounds := (first.rises trivial calls level d).append (last.rises trivial calls₁ level _)
      have address := (bounds.append ((rises_gimme acx₂.rs _).append
        (rises_path path.path (gimme_ne_rsp acx₂.rs) _))).append (rises_push sty.reg.name _)
      have test : Rises level x [.label (.loc acx₃.label), .alu .cmp sty.reg.name ety.reg.name,
          .jcc .e (.loc (acx₃.label + 1))] x :=
        (rises_label here).append ((rises_sets rfl name₁ rfl rfl x).append (rises_jcc there))
      have store : Rises level x [.store .rsp sty.reg.name] x :=
        .level_ (leveled_one rfl 0) (by simp [Insn.plain, Insn.straight]) x
      have round : Rises level x [.inc sty.reg.name, .store .rsp sty.reg.name, .jmp (.loc acx₃.label),
          .label (.loc (acx₃.label + 1))] x :=
        (rises_sets rfl name₁ rfl rfl x).append (store.append (.jump here (rises_label there)))
      have after : Rises level _ _ _ := (rises_takeitback acx₄.rs name₂ x).append
        (rises_takeitback (acx₄.rs.takeitback ety.reg).1 name₁ _)
      have all := address.append (test.append (body.append (round.append after)))
      have same : x - 8 * ety.reg.spilled - 8 * sty.reg.spilled = d + 8 * g := by
        cases grows
        simp only [x]
        omega
      rw [same] at all
      simp only [List.append_assoc] at all ⊢
      exact all
    next => cases grows
  | @ite cond thenn elze acx acx₁ acx₂ acx₃ cty code₁ code₂ code₃ test _ yes no ih₁ ih₂ =>
    have calls₁ : ∀ p, isMagic acx₁.st p = magic p := fun p =>
      (isMagic_congr test.scopes test.types p).trans (calls p)
    have calls₂ : ∀ p, isMagic acx₂.st p = magic p := fun p =>
      (isMagic_congr yes.scopes yes.types p).trans (calls₁ p)
    have name : cty.reg.name ≠ .rsp :=
      (Prod.mk.inj (test.alloc calls)).1 ▸ AstExpr.alloc_ne_rsp _ _
    have between : acx₂.rs = thenn.alloc magic (release (cty.reg, acx₁.rs)) := yes.alloc calls₁
    rw [StmtNode.growth, AstStmt.growth, ← test.alloc calls] at grows
    simp only [← between] at grows
    split at grows
    next a b first second =>
      split at grows
      next agree_ =>
        cases grows
        have le₁ : acx₁.label + 2 ≤ acx₂.label := yes.label_le
        have le₂ := no.label_le
        let x := d + 8 * cond.growth magic acx.rs
        have one := ih₁ calls₁ first (x - 8 * cty.reg.spilled)
        have two := ih₂ calls₂ second x
        have joined : x - 8 * cty.reg.spilled + 8 * a = x + 8 * b := by omega
        obtain ⟨stand₁, rises₁⟩ := one
        obtain ⟨stand₂, rises₂⟩ := two
        rw [joined] at rises₁
        rw [← test.label]
        refine RisesIn.pair (x := x) (y := x + 8 * b)
          (fun k => if k < acx₂.label then stand₁ k else stand₂ k) ?_ (by omega)
        intro level here there agree
        have branch₁ := rises₁ level fun k low high =>
          (agree k low (by omega)).trans (if_pos high)
        have branch₂ := rises₂ level fun k low high =>
          (agree k (by omega) high).trans (if_neg (by omega))
        have value := test.rises trivial calls level d
        have jump : Rises level x [.cmpImm cty.reg.name 1, .jcc .ne (.loc acx₁.label)] x :=
          (rises_sets rfl name rfl rfl x).append (rises_jcc here)
        have skip : Rises level (x + 8 * b) [.jmp (.loc (acx₁.label + 1)), .label (.loc acx₁.label)] x :=
          .jump there (rises_label here)
        have all := value.append (jump.append ((rises_takeitback acx₁.rs name x).append
          (branch₁.append (skip.append (branch₂.append (rises_label there))))))
        have same : x + 8 * b = d + 8 * (cond.growth magic acx.rs + b) := by
          simp only [x]
          omega
        exact same ▸ all
      next => cases grows
    next => cases grows
  | @proc p args acx acx₁ cty _ call =>
    have app : Run (.expr (.app p args) true) acx [cty] acx₁ _ := .app call
    have value : cty.reg = ((AstExpr.app p args).alloc magic acx.rs).1 :=
      congrArg Prod.fst (app.alloc calls)
    have name : cty.reg.name ≠ .rsp := value ▸ AstExpr.alloc_ne_rsp _ _
    refine .plain fun level => ?_
    have all := (call.rises trivial calls level d).append (rises_takeitback acx₁.rs name _)
    have same : d + 8 * (AstExpr.app p args).growth magic acx.rs - 8 * cty.reg.spilled = d + 8 * g := by
      rw [StmtNode.growth, AstStmt.growth, ← value, Option.some.injEq] at grows
      omega
    exact same ▸ all
  | stmts _ ih => exact ih calls grows d
  | @wdo cond body acx acx₁ acx₂ cty code₁ code₂ test _ loop ih =>
    have calls₁ : ∀ p, isMagic acx₁.st p = magic p := fun p =>
      (isMagic_congr test.scopes test.types p).trans (calls p)
    have name : cty.reg.name ≠ .rsp :=
      (Prod.mk.inj (test.alloc calls)).1 ▸ AstExpr.alloc_ne_rsp _ _
    have value : (cty.reg, acx₁.rs) = cond.alloc magic acx.rs := test.alloc calls
    rw [StmtNode.growth, AstStmt.growth, ← value] at grows
    simp only at grows
    split at grows
    next round =>
      cases grows
      have number : acx₁.label = acx.label + 2 := test.label
      have le : acx.label + 2 ≤ acx₂.label := number ▸ loop.label_le
      let x := d + 8 * cond.growth magic acx.rs
      obtain ⟨stand, rises⟩ := ih calls₁ round (x - 8 * cty.reg.spilled)
      have again : x - 8 * cty.reg.spilled + 8 * (cty.reg.spilled - cond.growth magic acx.rs) = d := by
        simp only [x]
        omega
      rw [again] at rises
      have start : (acx₁.setRs (acx₁.rs.takeitback cty.reg).1).label = acx.label + 2 := number
      rw [start] at rises
      refine RisesIn.pair (x := d) (y := x) stand ?_ le
      intro level here there agree
      have tested : Rises level d code₁ x := test.rises trivial calls level d
      have jump : Rises level x [.cmpImm cty.reg.name 1, .jcc .ne (.loc (acx.label + 1))] x :=
        (rises_sets rfl name rfl rfl x).append (rises_jcc there)
      have back : Rises level d [.jmp (.loc acx.label), .label (.loc (acx.label + 1))] x :=
        .jump here (rises_label there)
      exact (rises_label here).append (tested.append (jump.append
        ((rises_takeitback acx₁.rs name x).append ((rises level agree).append back))))
    next => cases grows
  | nil =>
    cases grows
    rw [Int.mul_zero, Int.add_zero]
    exact .plain fun _ => .nil
  | @cons s body acx acx₁ acx₂ _ _ first rest ih₁ ih₂ =>
    have one : acx₁.rs = s.alloc magic acx.rs := first.alloc calls
    rw [StmtNode.growth, AstStmt.growthAll, ← one] at grows
    split at grows
    next a b here later =>
      cases grows
      have calls₁ : ∀ p, isMagic acx₁.st p = magic p := fun p =>
        (isMagic_congr first.scopes first.types p).trans (calls p)
      have all := (ih₁ calls here d).append (ih₂ calls₁ later _) first.label_le rest.label_le
      rwa [Int.add_assoc, ← Int.mul_add] at all
    next => cases grows

/-! ## Subprograms -/

/-- What an activation leaves on the stack: the words of its body and, of the display words that the
prologue pushes, the one that the epilogue does not pop. -/
def unreturned (g : Int) (captured : List StabVar) : Int := g + if captured = [] then 0 else 1

section

variable {level : Label → Int}

theorem rises_addImm (k d : Int) : Rises level d [.addImm .rsp k] (d - k) :=
  .line rfl rfl

theorem rises_save (captured : List StabVar) (d : Int) :
    Rises level d (captured.flatMap saveLines) (d + 8 * captured.length) := by
  -- the word of each captured variable stays
  induction captured generalizing d with
  | nil => simpa using Rises.nil
  | cons v captured ih =>
    have push : Rises level d [.pushDisplay (v.dispOffset * abiPointerSize)] (d + 8) :=
      .line rfl rfl
    have replace : Rises level (d + 8)
        [.storeDisplayFrame (v.dispOffset * abiPointerSize) v.stackBaseOffset] (d + 8 + 0) :=
      .line rfl rfl
    rw [Int.add_zero] at replace
    have all := (push.append replace).append (ih (d + 8))
    have same : d + 8 + 8 * (captured.length : Int) = d + 8 * (v :: captured).length := by
      rw [List.length_cons]
      omega
    rwa [same] at all

theorem rises_poppedInto {r : RegName} (name : r ≠ .rsp) (vars : List StabVar) (d : Int) :
    Rises level d (vars.flatMap fun v => [.pop r, .storeDisplay (v.dispOffset * abiPointerSize) r])
      (d - 8 * vars.length) := by
  induction vars generalizing d with
  | nil => simpa using Rises.nil
  | cons v vars ih =>
    have store : Rises level (d - 8) [.storeDisplay (v.dispOffset * abiPointerSize) r] (d - 8 + 0) :=
      .line rfl rfl
    rw [Int.add_zero] at store
    have all := ((rises_pop name d).append store).append (ih (d - 8))
    have same : d - 8 - 8 * (vars.length : Int) = d - 8 * (v :: vars).length := by
      rw [List.length_cons]
      omega
    rwa [same] at all

theorem rises_restore (captured : List StabVar) {r : Reg} (name : r.name ≠ .rsp) (d : Int) :
    Rises level d (restoreDisplay captured r) (d - 8 * (captured.length - 1 : Nat)) := by
  -- the loop of the epilogue stops before the variable that was saved first
  have rises : Rises level _ _ _ := rises_poppedInto name (captured.drop 1).reverse d
  rwa [List.length_reverse, List.length_drop] at rises

theorem rises_copy (type : Subprogs) (slot : StabVar) (rs : RegisterSet) (d : Int) :
    Rises level d (copyLines type slot rs) d := by
  have name := gimme_ne_rsp rs
  unfold copyLines
  split
  · have store : ∀ x, Rises level x [.store .rbp rs.gimme.1.name] x :=
      Rises.level_ (leveled_one rfl 0) (by simp [Insn.plain, Insn.straight])
    have all := (rises_gimme rs d).append
      (((rises_sets (i := .load rs.gimme.1.name .rbp slot.stackBaseOffset) rfl name rfl rfl _).append
        (store _)).append (rises_takeitback rs.gimme.2.1 name _))
    rwa [Int.add_sub_cancel] at all
  · exact .nil

theorem rises_epilogue (rs : RegisterSet) (type : Subprogs) (slot : StabVar) (off : Int)
    (captured : List StabVar) (d : Int) :
    Rises level d (epilogueOpen rs type slot off captured)
      (d - 8 * (captured.length - 1 : Nat) - (off - abiPointerSize)) := by
  have name := gimme_ne_rsp rs
  have all : Rises level _ _ _ := (rises_gimme rs d).append ((rises_restore captured name _).append
    ((rises_takeitback rs.gimme.2.1 name _).append ((rises_copy type slot rs _).append
      (rises_addImm (off - abiPointerSize) _))))
  have same : d + 8 * rs.gimme.1.spilled - 8 * ((captured.length - 1 : Nat) : Int) -
      8 * rs.gimme.1.spilled = d - 8 * ((captured.length - 1 : Nat) : Int) := by
    omega
  rwa [same] at all

end

/-- Labels of the own code stand where they are said to. -/
def Label.standing (stand : Nat → Int) : Label → Int
  | .loc k => stand k
  | _ => 0

theorem OwnRun.rises {retslot : Index} {off : Int} {body : AstStmt} {acx acx' : Acx}
    {captured : List StabVar} {bodyCode code : List Insn} {slot : StabVar}
    (own : OwnRun retslot off body acx acx' captured bodyCode slot code)
    {magic : AstPath → Bool} (calls : ∀ p, isMagic acx.st p = magic p) {g : Int}
    (grows : body.growth magic acx.rs = some g) :
    ∃ main level, code = .subImm .rsp (off - abiPointerSize) :: main ++ [.ret] ∧
      Rises level 0 (.subImm .rsp (off - abiPointerSize) :: main) (8 * unreturned g captured) := by
  let d := off - abiPointerSize + 8 * captured.length
  obtain ⟨stand, rises⟩ := own.run.rises calls grows d
  let level := Label.standing stand
  have enter : Rises level 0 [.subImm .rsp (off - abiPointerSize)] (0 + (off - abiPointerSize)) :=
    .line rfl rfl
  rw [Int.zero_add] at enter
  have body := rises level fun _ _ _ => rfl
  have leave : Rises level _ _ _ :=
    rises_epilogue acx'.rs acx'.currentFuncType slot off captured (d + 8 * g)
  have all := enter.append ((rises_save captured _).append (body.append leave))
  have same : d + 8 * g - 8 * ((captured.length - 1 : Nat) : Int) - (off - abiPointerSize) =
      8 * unreturned g captured := by
    simp only [d, unreturned]
    cases captured with
    | nil => simp
    | cons v captured =>
      simp only [List.length_cons, Nat.add_sub_cancel, reduceCtorEq, if_false]
      omega
  rw [same] at all
  refine ⟨captured.flatMap saveLines ++
    (bodyCode ++ epilogueOpen acx'.rs acx'.currentFuncType slot off captured), level, ?_, all⟩
  rw [own.code_eq, epilogueLines_eq]
  simp only [List.cons_append, List.append_assoc]

theorem SubRun.rs {node : SubNode} {acx acx' : Acx} {code : List Insn}
    (run : SubRun node acx acx' code) : acx'.rs = acx.rs := by
  induction run with
  | sub => rfl
  | nil => rfl
  | cons _ _ _ ih₁ ih₂ => exact ih₂.trans ih₁

theorem Parts.registers {d : AstSubdecl} {start inner : Acx} {retslot : Index} {off : Int}
    {nested own : List Insn} (parts : Parts d start inner retslot off nested own) :
    inner.rs = regInit := by
  obtain ⟨acx, opened, ran⟩ := parts.nested
  obtain ⟨st, -, rfl, -⟩ := openSubprog_eq_ok.mp opened
  exact (analyzeSubprogs_run _ ran).rs

/-- At each line of a block the stack is a fixed number of bytes deeper than at the first one, on
every run that stays in the block and whose calls come back with the stack they were made with. -/
def DepthsKnown (code : List Insn) (p : Nat) (block : List Insn) (depth : Nat → Int) : Prop :=
  ∀ env, Neutral env → ∀ n k σ τ, k ≤ block.length →
    Leads (step env code) (InBlock p block) n (p, σ) (p + k, τ) →
      τ.reg .rsp = σ.reg .rsp - BitVec.ofInt 64 (depth k)

/-- The runs of a block that come to the line after it come there with the stack of its first line,
or none does. -/
def ComesBackIf (code : List Insn) (p : Nat) (block : List Insn) (P : Prop) : Prop :=
  ∀ env, Neutral env → ∀ n σ τ,
    Leads (step env code) (InBlock p block) n (p, σ) (p + block.length, τ) →
      (τ.reg .rsp = σ.reg .rsp ↔ P)

/-- In the code of an accepted program the depth of the stack at each line of a subprogram is the
same on every run, where its body leaves the same words on every path, and it is determined by the
syntax whether the stack is as on entry when the subprogram returns. -/
theorem subprogram_depths (prog : AstProgram) (acx : Acx) (code : List Insn)
    (accepted : analyze prog = .ok (acx, code)) (path : List Nat) (d : AstSubdecl)
    (declared : prog.subprogAt path = some d) :
    ∃ start before inner retslot off nested own after, prog.Visits path d start before ∧
      Parts d start inner retslot off nested own ∧
      code = before ++ ([.global (.sub d.name), .label (.sub d.name)] ++ (nested ++ own) ++ after) ∧
      ∀ g, d.body.growth (isMagic inner.st) regInit = some g →
        ∃ main depth, own = main ++ [.ret] ∧ depth 0 = 0 ∧ depth 1 = off - abiPointerSize ∧
          DepthsKnown code (before.length + 2 + nested.length) main depth ∧
          ComesBackIf code (before.length + 2 + nested.length) main
            ((2 : Int) ^ 61 ∣ unreturned g (capturedVars inner.st inner.st.innermost.vars.entries)) := by
  obtain ⟨start, before, inner, retslot, off, nested, own, after, visits, parts, whole⟩ :=
    analyze_visits accepted declared
  refine ⟨start, before, inner, retslot, off, nested, own, after, visits, parts, whole, ?_⟩
  intro g grows
  obtain ⟨acx', printed⟩ := parts.own
  obtain ⟨captured, bodyCode, slot, run⟩ := ownCode_run printed
  rw [← parts.registers] at grows
  obtain ⟨rest, level, split, rises⟩ := run.rises (fun _ => rfl) grows
  obtain ⟨depth, depths, first, last⟩ := rises.depths
  have second : depth 1 = off - abiPointerSize := by
    obtain ⟨k, bytes, later⟩ := depths.next 0 _ rfl fun l same => by cases same
    cases bytes
    rw [later, first, Int.zero_add]
  -- the own code comes after the two labels and the nested subprograms
  have located : Located code (before.length + 2 + nested.length)
      (.subImm .rsp (off - abiPointerSize) :: rest ++ [.ret]) := by
    have lines : code = (before ++ [.global (.sub d.name), .label (.sub d.name)] ++ nested) ++
        (own ++ after) := by
      rw [whole]
      simp only [List.append_assoc]
    have above : before.length + 2 + nested.length =
        (before ++ [Insn.global (.sub d.name), .label (.sub d.name)] ++ nested).length := by
      simp only [List.length_append, List.length_cons, List.length_nil]
    refine ⟨after, ?_⟩
    rw [above, lines, List.drop_left, split]
  have known : DepthsKnown code (before.length + 2 + nested.length)
      (.subImm .rsp (off - abiPointerSize) :: rest) depth :=
    fun env neutral n k σ τ low leads => depths.leads first neutral located low leads
  refine ⟨_, depth, split, first, second, known, ?_⟩
  intro env neutral n σ τ leads
  rw [known env neutral n _ σ τ (Nat.le_refl _) leads, last, sub_ofInt_eq_iff, ← run.captured_eq]
  -- bytes modulo 2^64 are words modulo 2^61
  have words : (2 : Int) ^ 64 = 8 * 2 ^ 61 := rfl
  rw [words]
  exact Int.mul_dvd_mul_iff_left (by decide)

-- procedure p; var i: integer; begin for i := 1 to 2 do begin end end
def countingDecl : AstSubdecl :=
  .mk ⟨.procedure, [], none⟩ "p" [⟨["i"], .integer⟩] [] [] (.foor "i" (.lit "1") (.lit "2") .null)

def countingProgram : AstProgram := ⟨[], [], [countingDecl], [], .null⟩

-- The counter of the loop is on the stack when the procedure returns.
theorem counting_comesBackNever : ∃ acx code start before inner retslot off nested own after,
    analyze countingProgram = .ok (acx, code) ∧
    countingProgram.Visits [0] countingDecl start before ∧
    Parts countingDecl start inner retslot off nested own ∧
    code = before ++ ([.global (.sub "p"), .label (.sub "p")] ++ (nested ++ own) ++ after) ∧
    ∃ main, own = main ++ [.ret] ∧ ∀ env, Neutral env → ∀ n σ τ,
      Leads (step env code) (InBlock (before.length + 2 + nested.length) main) n
        (before.length + 2 + nested.length, σ) (before.length + 2 + nested.length + main.length, τ) →
        τ.reg .rsp ≠ σ.reg .rsp := by
  have accepted : (analyze countingProgram).toOption.isSome = true := by decide +kernel
  obtain ⟨⟨acx, code⟩, result⟩ := exists_ok_of_isSome accepted
  obtain ⟨start, before, inner, retslot, off, nested, own, after, visits, parts, whole, known⟩ :=
    subprogram_depths countingProgram acx code result [0] countingDecl rfl
  obtain ⟨main, depth, split, -, -, -, comesBack⟩ := known 1 rfl
  refine ⟨acx, code, start, before, inner, retslot, off, nested, own, after, result, visits, parts,
    whole, main, split, ?_⟩
  intro env neutral n σ τ leads same
  have left := (comesBack env neutral n σ τ leads).mp same
  unfold unreturned at left
  split at left <;> revert left <;> decide

end Dragon
