import Dragon.Codegen.Lines
import Dragon.Codegen.Visits
import Dragon.Machine.Execution

/-! The display across an activation of a subprogram.

The prologue pushes the display word of each captured local and replaces it. The
loop of the epilogue runs down to the second of them only, so the words are all
put back exactly when there is nothing to put back.
-/

set_option autoImplicit false

namespace Dragon

open Analysis PartialStep ByteMemory

def Env.slot (env : Env) (k : Int) : BitVec 64 := env.display + BitVec.ofInt 64 (k * abiPointerSize)

def SameDisplay (env : Env) (n : Int) (σ τ : State) : Prop :=
  ∀ k : Int, 0 ≤ k → k < n → readWord τ.mem (env.slot k) = readWord σ.mem (env.slot k)

theorem SameDisplay.refl (env : Env) (n : Int) (σ : State) : SameDisplay env n σ σ :=
  fun _ _ _ => rfl

theorem SameDisplay.trans {env : Env} {n : Int} {σ τ υ : State} (first : SameDisplay env n σ τ)
    (second : SameDisplay env n τ υ) : SameDisplay env n σ υ :=
  fun k low high => (second k low high).trans (first k low high)

def CallsRestore (env : Env) (n : Int) : Prop :=
  ∀ f σ τ, env.call f σ = some τ → SameDisplay env n σ τ

/-- The word a line writes to memory, for a line that does not name the display as its target. -/
def Insn.written (σ : State) : Insn → Option (BitVec 64)
  | .push _ | .pushDisplay _ => some (below (σ.reg .rsp) 0)
  | .store base _ => some (σ.reg base)
  | _ => none

/-- Control is between two positions, and what the line there writes is not the display. -/
structure Within (env : Env) (n : Int) (code : List Insn) (p q : Nat) (c : Nat × State) : Prop where
  above : p ≤ c.1
  under : c.1 < q
  clear : ∀ i a, code[c.1]? = some i → i.written c.2 = some a →
    ∀ k : Int, 0 ≤ k → k < n → Apart (env.slot k) a

/-- Control goes from the first line of the own code to its return. -/
def Activation (env : Env) (n : Int) (code : List Insn) (p : Nat) (own : List Insn) (steps : Nat)
    (σ υ : State) : Prop :=
  Leads (step env code) (Within env n code p (p + (own.length - 1))) steps (p, σ)
    (p + (own.length - 1), υ)

def pushedSlots (code : List Insn) : List Int :=
  code.filterMap fun
    | .pushDisplay d => some d
    | _ => none

/-- The slots that popped words are stored to, in the order of the pops. -/
def poppedSlots (code : List Insn) : List Int :=
  code.filterMap fun
    | .storeDisplay d _ => some d
    | _ => none

/-- On return the display is as on entry, and the pops are the pushes in reverse order. -/
structure DisplayRestored (env : Env) (n : Int) (own : List Insn) (σ υ : State) : Prop where
  words : SameDisplay env n σ υ
  mirrored : poppedSlots own = (pushedSlots own).reverse

/-! ## Lines that do not set the display -/

theorem exec_sameDisplay {env : Env} {n : Int} (calls : CallsRestore env n) {i : Insn}
    (quiet : i.quiet = true) {σ τ : State} (next : exec env i σ = some τ)
    (clear : ∀ a, i.written σ = some a → ∀ k : Int, 0 ≤ k → k < n → Apart (env.slot k) a) :
    SameDisplay env n σ τ := by
  have pushed : ∀ v, i.written σ = some (below (σ.reg .rsp) 0) → τ = σ.push v →
      SameDisplay env n σ τ := by
    intro v here after k low high
    subst after
    exact readWord_writeWord_apart _ _ (clear _ here k low high)
  have kept : τ.mem = σ.mem → SameDisplay env n σ τ := by
    intro same k low high
    rw [same]
  unfold exec at next
  split at next
  · cases next
  · cases i with
    | push r =>
      cases next
      exact pushed _ rfl rfl
    | store base src =>
      cases next
      intro k low high
      exact readWord_writeWord_apart _ _ (clear _ rfl k low high)
    | call f => exact calls f σ τ next
    | pushDisplay => cases quiet
    | storeDisplay => cases quiet
    | storeDisplayFrame => cases quiet
    | movLit dst lit =>
      obtain ⟨m, -, rfl⟩ := Option.map_eq_some_iff.mp next
      exact kept rfl
    | alu op dst src =>
      cases next
      exact kept (State.alu_mem ..)
    | addImm dst k =>
      cases next
      exact kept (State.alu_mem ..)
    | subImm dst k =>
      cases next
      exact kept (State.alu_mem ..)
    | cmpImm dst k =>
      cases next
      exact kept (State.alu_mem ..)
    | inc dst =>
      cases next
      exact kept (State.alu_mem ..)
    | idiv r =>
      simp only [execNamed, State.idiv] at next
      split at next
      · cases next
      · cases next
        exact kept rfl
    | set cc byte =>
      simp only [execNamed, Option.bind_eq_bind, Option.bind_eq_some_iff] at next
      obtain ⟨r, -, f, -, here⟩ := next
      cases here
      exact kept rfl
    | movzx dst byte =>
      simp only [execNamed, Option.bind_eq_bind, Option.bind_eq_some_iff] at next
      obtain ⟨r, -, here⟩ := next
      cases here
      exact kept rfl
    | jmp => cases next
    | jcc => cases next
    | ret => cases next
    | syscall => cases next
    | _ =>
      cases next
      exact kept rfl

theorem step_sameDisplay {env : Env} {n : Int} (calls : CallsRestore env n) {code : List Insn}
    {i : Insn} (quiet : i.quiet = true) {c c' : Nat × State} (here : code[c.1]? = some i)
    (next : step env code c = some c')
    (clear : ∀ a, i.written c.2 = some a → ∀ k : Int, 0 ≤ k → k < n → Apart (env.slot k) a) :
    SameDisplay env n c.2 c'.2 := by
  have jumps : ∀ {l : Label} {p : Nat}, (resolveLabel code p l).map (fun q => (q, c.2)) = some c' →
      SameDisplay env n c.2 c'.2 := by
    intro l p found
    obtain ⟨q, -, rfl⟩ := Option.map_eq_some_iff.mp found
    exact .refl _ _ _
  unfold step at next
  rw [here] at next
  cases i with
  | jmp l => exact jumps next
  | jcc cc l =>
    obtain ⟨f, -, next⟩ := Option.bind_eq_some_iff.mp next
    split at next
    · exact jumps next
    · cases next
      exact .refl _ _ _
  | _ =>
    obtain ⟨τ, ran, rfl⟩ := Option.map_eq_some_iff.mp next
    exact exec_sameDisplay calls quiet ran clear

theorem located_self (code : List Insn) : Located code 0 code := List.prefix_rfl

theorem Located.mem {code block : List Insn} {p q : Nat} {i : Insn} (located : Located code p block)
    (here : code[q]? = some i) (above : p ≤ q) (under : q < p + block.length) : i ∈ block := by
  obtain ⟨rest, split⟩ := located
  have there : (code.drop p)[q - p]? = some i := by
    rw [List.getElem?_drop, ← here]
    congr 1
    omega
  rw [← split, List.getElem?_append_left (by omega)] at there
  exact List.mem_of_getElem? there

theorem activation_sameDisplay {env : Env} {n : Int} (calls : CallsRestore env n)
    {code own : List Insn} {p : Nat} (located : Located code p own)
    (quiet : ∀ i ∈ own, i.quiet = true) {steps : Nat} {σ υ : State}
    (activation : Activation env n code p own steps σ υ) : SameDisplay env n σ υ := by
  have each : ∀ c c', Within env n code p (p + (own.length - 1)) c → step env code c = some c' →
      SameDisplay env n c.2 c'.2 := by
    intro c c' within next
    cases here : code[c.1]? with
    | none =>
      unfold step at next
      rw [here] at next
      cases next
    | some i =>
      have member : i ∈ own := located.mem here within.above (by have := within.under; omega)
      exact step_sameDisplay calls (quiet i member) here next fun a => within.clear i a here
  have run : Leads (step env code) (Within env n code p (p + (own.length - 1))) steps (p, σ)
    (p + (own.length - 1), υ) := activation
  have same : ∀ c : Nat × State, SameDisplay env n c.2 c.2 := fun c => SameDisplay.refl env n c.2
  have compose : ∀ c c' c'' : Nat × State, SameDisplay env n c.2 c'.2 →
      SameDisplay env n c'.2 c''.2 → SameDisplay env n c.2 c''.2 :=
    fun _ _ _ first second => SameDisplay.trans first second
  have kept := @Leads.keeps (Nat × State) (step env code) _
    (fun c c' => SameDisplay env n c.2 c'.2) same compose each _ _ _ run
  exact kept

/-! ## The pushes and the pops -/

theorem pushedSlots_append (first second : List Insn) :
    pushedSlots (first ++ second) = pushedSlots first ++ pushedSlots second := List.filterMap_append ..

theorem poppedSlots_append (first second : List Insn) :
    poppedSlots (first ++ second) = poppedSlots first ++ poppedSlots second := List.filterMap_append ..

theorem pushedSlots_quiet {code : List Insn} (quiet : ∀ i ∈ code, i.quiet = true) :
    pushedSlots code = [] := by
  rw [pushedSlots, List.filterMap_eq_nil_iff]
  intro i member
  have here := quiet i member
  cases i <;> first | rfl | cases here

theorem poppedSlots_quiet {code : List Insn} (quiet : ∀ i ∈ code, i.quiet = true) :
    poppedSlots code = [] := by
  rw [poppedSlots, List.filterMap_eq_nil_iff]
  intro i member
  have here := quiet i member
  cases i <;> first | rfl | cases here

theorem pushedSlots_save (captured : List StabVar) :
    pushedSlots (captured.flatMap saveLines) =
      captured.map fun v => v.dispOffset * abiPointerSize := by
  induction captured with
  | nil => rfl
  | cons v captured ih =>
    rw [List.flatMap_cons, pushedSlots_append, ih]
    rfl

theorem poppedSlots_save (captured : List StabVar) : poppedSlots (captured.flatMap saveLines) = [] := by
  induction captured with
  | nil => rfl
  | cons v captured ih =>
    rw [List.flatMap_cons, poppedSlots_append, ih]
    rfl

theorem slots_restore (captured : List StabVar) (r : Reg) :
    pushedSlots (restoreDisplay captured r) = [] ∧
      poppedSlots (restoreDisplay captured r) =
        (captured.drop 1).reverse.map fun v => v.dispOffset * abiPointerSize := by
  unfold restoreDisplay
  induction (captured.drop 1).reverse with
  | nil => exact ⟨rfl, rfl⟩
  | cons v rest ih =>
    rw [List.flatMap_cons, pushedSlots_append, poppedSlots_append, ih.1, ih.2]
    exact ⟨rfl, rfl⟩

theorem epilogueLines_split (rs : RegisterSet) (type : Subprogs) (slot : StabVar) (off : Int)
    (captured : List StabVar) :
    ∃ before after, epilogueLines rs type slot off captured =
        before ++ (restoreDisplay captured rs.gimme.1 ++ after) ∧
      (∀ i ∈ before, i.quiet = true) ∧ ∀ i ∈ after, i.quiet = true := by
  refine ⟨_, _, rfl, fun i member => Insn.quiet_of_ofExpr (rs.gimme_ofExpr i member), ?_⟩
  intro i member
  rcases List.mem_append.mp member with member | member
  · exact Insn.quiet_of_ofExpr (RegisterSet.takeitback_ofExpr _ _ i member)
  rcases List.mem_append.mp member with member | member
  · unfold copyLines at member
    split at member
    · simp only [List.mem_append] at member
      rcases member with member | member | member
      · exact Insn.quiet_of_ofExpr (rs.gimme_ofExpr i member)
      · simp only [List.mem_cons, List.not_mem_nil, or_false] at member
        rcases member with rfl | rfl <;> rfl
      · exact Insn.quiet_of_ofExpr (RegisterSet.takeitback_ofExpr _ _ i member)
    · cases member
  · simp only [List.mem_cons, List.not_mem_nil, or_false] at member
    rcases member with rfl | rfl <;> rfl

theorem OwnRun.slots {retslot : Index} {off : Int} {body : AstStmt} {acx acx' : Acx}
    {captured : List StabVar} {bodyCode code : List Insn} {slot : StabVar}
    (own : OwnRun retslot off body acx acx' captured bodyCode slot code) :
    pushedSlots code = captured.map (fun v => v.dispOffset * abiPointerSize) ∧
      poppedSlots code = (captured.drop 1).reverse.map fun v => v.dispOffset * abiPointerSize := by
  obtain ⟨before, after, lines, first, last⟩ :=
    epilogueLines_split acx'.rs acx'.currentFuncType slot off captured
  have restored := slots_restore captured acx'.rs.gimme.1
  have opening : pushedSlots [Insn.subImm .rsp (off - abiPointerSize)] = [] ∧
      poppedSlots [Insn.subImm .rsp (off - abiPointerSize)] = [] := ⟨rfl, rfl⟩
  rw [own.code_eq, lines, ← List.singleton_append]
  simp only [pushedSlots_append, poppedSlots_append, pushedSlots_quiet own.run.quiet,
    poppedSlots_quiet own.run.quiet, pushedSlots_quiet first, poppedSlots_quiet first,
    pushedSlots_quiet last, poppedSlots_quiet last, restored, opening, pushedSlots_save,
    poppedSlots_save, List.nil_append, List.append_nil, and_self]

theorem OwnRun.quiet {retslot : Index} {off : Int} {body : AstStmt} {acx acx' : Acx}
    {bodyCode code : List Insn} {slot : StabVar}
    (own : OwnRun retslot off body acx acx' [] bodyCode slot code) : ∀ i ∈ code, i.quiet = true := by
  obtain ⟨before, after, lines, first, last⟩ :=
    epilogueLines_split acx'.rs acx'.currentFuncType slot off []
  have nothing : restoreDisplay [] acx'.rs.gimme.1 = [] := rfl
  intro i member
  rw [own.code_eq, lines, nothing, List.flatMap_nil, List.nil_append, List.nil_append] at member
  rcases List.mem_cons.mp member with rfl | member
  · rfl
  rcases List.mem_append.mp member with member | member
  · exact own.run.quiet i member
  rcases List.mem_append.mp member with member | member
  · exact first i member
  · exact last i member

/-- The display is restored by exactly the activations of subprograms for which the prologue finds
no captured local. -/
theorem displayRestored_iff (d : AstSubdecl) (start inner : Acx) (retslot : Index) (off : Int)
    (nested own code : List Insn) (parts : Parts d start inner retslot off nested own) (p : Nat)
    (located : Located code p own) (env : Env) (n : Int) (calls : CallsRestore env n) (steps : Nat)
    (σ υ : State) (activation : Activation env n code p own steps σ υ) :
    DisplayRestored env n own σ υ ↔
      capturedVars inner.st inner.st.innermost.vars.entries = [] := by
  obtain ⟨acx', run⟩ := parts.own
  obtain ⟨captured, bodyCode, slot, run⟩ := ownCode_run run
  have slots := run.slots
  rw [← run.captured_eq]
  constructor
  · intro restored
    have lengths := congrArg List.length restored.mirrored
    rw [slots.1, slots.2, List.length_reverse, List.length_map, List.length_map, List.length_reverse,
      List.length_drop] at lengths
    apply List.eq_nil_of_length_eq_zero
    omega
  · intro none
    subst none
    refine ⟨activation_sameDisplay calls located run.quiet activation, ?_⟩
    rw [slots.1, slots.2]
    rfl

/-! ## Two subprograms -/

-- procedure p; begin end
def emptyDecl : AstSubdecl := .mk ⟨.procedure, [], none⟩ "p" [] [] [] .null

-- procedure p; var x: integer; procedure q; begin x := 1 end; begin end
def captureDecl : AstSubdecl :=
  .mk ⟨.procedure, [], none⟩ "p" [⟨["x"], .integer⟩]
    [.mk ⟨.procedure, [], none⟩ "q" [] [] [] (.assign (.path (astPath "x")) (.lit "1"))] [] .null

def captureLines : List Insn :=
  [.subImm .rsp 4, .pushDisplay 0, .storeDisplayFrame 0 0, .addImm .rsp 4]

/-- The display is one word at address 4096, and no call returns. -/
def smallEnv : Env := ⟨4096, fun _ _ => none⟩

theorem smallEnv_callsRestore (n : Int) : CallsRestore smallEnv n := by
  intro f σ τ returned
  cases returned

theorem activation_of_runBlock {env : Env} {n : Int} {code lines : List Insn} {p : Nat}
    (located : Located code p (lines ++ [.ret])) {σ υ : State} (run : runBlock env lines σ = some υ)
    (clear : ∀ k ρ i a, runBlock env (lines.take k) σ = some ρ → lines[k]? = some i →
      i.written ρ = some a → ∀ j : Int, 0 ≤ j → j < n → Apart (env.slot j) a) :
    Activation env n code p (lines ++ [.ret]) lines.length σ υ := by
  have exit : p + ((lines ++ [Insn.ret]).length - 1) = p + lines.length := by
    rw [List.length_append, List.length_singleton, Nat.add_sub_cancel]
  unfold Activation
  rw [exit]
  have located := located.left
  suffices leads : ∀ rest p' q, p ≤ p' → p' + rest.length = q → Located code p' rest →
      ∀ σ, runBlock env rest σ = some υ →
        (∀ k ρ i a, runBlock env (rest.take k) σ = some ρ → rest[k]? = some i →
          i.written ρ = some a → ∀ j : Int, 0 ≤ j → j < n → Apart (env.slot j) a) →
        Leads (step env code) (Within env n code p q) rest.length (p', σ) (q, υ) from
    leads lines p _ (Nat.le_refl p) rfl located σ run clear
  intro rest
  induction rest with
  | nil =>
    intro p' q _ same _ σ run _
    cases run
    cases same
    exact Leads.refl _
  | cons i rest ih =>
    intro p' q above same located σ run clear
    rw [List.length_cons] at same
    rw [runBlock_cons] at run
    obtain ⟨τ, next, run⟩ := Option.bind_eq_some_iff.mp run
    refine ⟨⟨above, by simp only; omega, ?_⟩, _, step_of_exec located.head next, ?_⟩
    · intro j a here
      obtain rfl := Option.some.inj (located.head.symm.trans here)
      exact clear 0 σ _ a rfl rfl
    · apply ih (p' + 1) q (by omega) (by omega) located.tail τ run
      intro k ρ j a here
      refine clear (k + 1) ρ j a ?_
      rw [List.take_succ_cons, runBlock_cons, next]
      exact here

theorem emptyDecl_displayRestored_iff : ∃ inner retslot off nested own υ,
    Parts emptyDecl initialAcx inner retslot off nested own ∧
      (DisplayRestored smallEnv 1 own zeroState υ ↔
        capturedVars inner.st inner.st.innermost.vars.entries = []) := by
  have lines : (ownLines emptyDecl initialAcx).toOption =
      some ([.subImm .rsp (-4), .addImm .rsp (-4)] ++ [.ret]) := by decide +kernel
  have ran : ∃ υ, runBlock smallEnv [.subImm .rsp (-4), .addImm .rsp (-4)] zeroState = some υ :=
    ⟨_, rfl⟩
  obtain ⟨υ, ran⟩ := ran
  cases result : ownLines emptyDecl initialAcx with
  | error s => simp [result, Except.toOption] at lines
  | ok own =>
    simp only [result, Except.toOption, Option.some.injEq] at lines
    subst lines
    obtain ⟨inner, retslot, off, nested, parts⟩ := exists_parts result
    refine ⟨inner, retslot, off, nested, _, υ, parts, ?_⟩
    apply displayRestored_iff emptyDecl initialAcx inner retslot off nested _ _ parts 0
      (located_self _) smallEnv 1 (smallEnv_callsRestore 1) 2
    apply activation_of_runBlock (located_self _) ran
    intro k ρ i a _ here writes
    rcases k with _ | _ | k
    · cases here
      cases writes
    · cases here
      cases writes
    · cases here

theorem not_forall_displayRestored : ¬ ∀ (d : AstSubdecl) (start inner : Acx) (retslot : Index)
    (off : Int) (nested own code : List Insn), Parts d start inner retslot off nested own →
      ∀ p : Nat, Located code p own → ∀ (env : Env) (n : Int), CallsRestore env n →
        ∀ (steps : Nat) (σ υ : State), Activation env n code p own steps σ υ →
          DisplayRestored env n own σ υ := by
  intro claim
  have lines : (ownLines captureDecl initialAcx).toOption = some (captureLines ++ [.ret]) := by
    decide +kernel
  have ran : ∃ υ, runBlock smallEnv captureLines zeroState = some υ := ⟨_, rfl⟩
  obtain ⟨υ, ran⟩ := ran
  cases result : ownLines captureDecl initialAcx with
  | error s => simp [result, Except.toOption] at lines
  | ok own =>
    simp only [result, Except.toOption, Option.some.injEq] at lines
    subst lines
    obtain ⟨inner, retslot, off, nested, parts⟩ := exists_parts result
    have activation : Activation smallEnv 1 (captureLines ++ [.ret]) 0 (captureLines ++ [.ret]) 4
        zeroState υ := by
      apply activation_of_runBlock (located_self _) ran
      intro k ρ i a before here writes j low high
      rcases k with _ | _ | _ | _ | k
      · cases here
        cases writes
      · -- the push writes the word below the frame
        obtain rfl : j = 0 := by omega
        cases here
        cases before
        cases writes
        decide
      · cases here
        cases writes
      · cases here
        cases writes
      · cases here
    have restored := claim captureDecl initialAcx inner retslot off nested _ _ parts 0
      (located_self _) smallEnv 1 (smallEnv_callsRestore 1) 4 zeroState υ activation
    have mirrored := restored.mirrored
    revert mirrored
    decide

end Dragon
