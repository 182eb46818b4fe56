import Dragon.Machine.Brackets
import Dragon.Machine.Stack
import Dragon.Source.Output

/-! What the output shows when it runs.

A call of write_integer shows the word on top of the stack, a call of
write_newline the end of a line. The routines are known by what they leave
alone: the words from the top of the stack on, as many as the caller cares for,
and all registers but two.
-/

set_option autoImplicit false

namespace Dragon

open PartialStep StructuredCode ByteMemory

def shows (f : Name) (σ : State) : List Output :=
  if f = "write_integer" then [.integer (readWord σ.mem (σ.reg .rsp))]
  else if f = "write_newline" then [.newline]
  else []

def Insn.called : Insn → Option Name
  | .call f => some f
  | _ => none

def shownAt (code : List Insn) (c : Nat × State) : List Output :=
  (code[c.1]?.bind Insn.called).elim [] fun f => shows f c.2

def outputStep (env : Env) (code : List Insn) :
    Nat × State × List Output → Option (Nat × State × List Output) :=
  logged (step env code) (shownAt code)

def writers : List Name := ["write_integer", "write_newline"]

/-- The registers that write_newline@ does not keep. -/
def notKept : List RegName := [.r11, .rcx]

/-- The routines return to the line after the call, and keep some words from the stack pointer on
and all but two registers. -/
structure Writes (env : Env) (words : Nat) : Prop where
  run : ∀ f ∈ writers, ∀ σ, ∃ τ, env.call f σ = some τ ∧ KeptOff notKept words σ τ

/-! ## Lines that show nothing -/

theorem silent_of_noCalls {code : List Insn} {σ τ : State} (run : runBlock noCalls code σ = some τ) :
    ∀ i ∈ code, i.called = none := by
  induction code generalizing σ with
  | nil => exact fun i member => absurd member List.not_mem_nil
  | cons i code ih =>
    rw [runBlock_cons] at run
    obtain ⟨υ, next, rest⟩ := Option.bind_eq_some_iff.mp run
    intro j member
    rcases List.mem_cons.mp member with rfl | later
    · cases j with
      | call f =>
        simp only [exec, Insn.operands, List.not_mem_nil, if_false, execNamed, noCalls] at next
        cases next
      | _ => rfl
    · exact ih rest j later

theorem shownAt_of_line {code : List Insn} {p : Nat} {i : Insn} {σ : State}
    (at_ : code[p]? = some i) (silent : i.called = none) : shownAt code (p, σ) = [] := by
  simp [shownAt, at_, silent]

theorem shownAt_call {code : List Insn} {p : Nat} {f : Name} {σ : State}
    (at_ : code[p]? = some (.call f)) : shownAt code (p, σ) = shows f σ := by
  simp [shownAt, at_, Insn.called]

section

variable {env : Env} {code : List Insn} {p q exit : Nat} {σ τ : State} (log : List Output)

theorem outputStep_silent {i : Insn} (at_ : code[p]? = some i) (silent : i.called = none)
    (next : step env code (p, σ) = some (q, τ)) :
    outputStep env code (p, σ, log) = some (q, τ, log) := by
  refine logged_eq_some.mpr ⟨next, ?_⟩
  rw [shownAt_of_line at_ silent, List.append_nil]

theorem outputStep_call {f : Name} (at_ : code[p]? = some (.call f))
    (returns : env.call f σ = some τ) :
    outputStep env code (p, σ, log) = some (p + 1, τ, log ++ shows f σ) := by
  refine logged_eq_some.mpr ⟨step_of_exec at_ returns, ?_⟩
  rw [shownAt_call at_]

theorem Located.leads_silent {block : List Insn} (located : Located code p block)
    (silent : ∀ i ∈ block, i.called = none) (run : runBlock env block σ = some τ)
    (inside : p + block.length ≤ exit) :
    Leads (outputStep env code) (Inside exit) block.length (p, σ, log) (p + block.length, τ, log) := by
  induction block generalizing p σ with
  | nil =>
    cases run
    exact Leads.refl _
  | cons i block ih =>
    rw [List.length_cons] at inside ⊢
    rw [runBlock_cons] at run
    obtain ⟨υ, next, rest⟩ := Option.bind_eq_some_iff.mp run
    have within : Inside exit (p, σ, log) := Nat.lt_of_lt_of_le (by omega) inside
    have first := outputStep_silent log located.head (silent i List.mem_cons_self)
      (step_of_exec located.head next)
    have later := ih located.tail (fun j member => silent j (List.mem_cons_of_mem i member)) rest
      (by omega)
    rw [Nat.add_assoc, Nat.add_comm 1] at later
    exact ⟨within, _, first, later⟩

end

theorem Leveled.runBlock_rsp {level : Label → Int} {h h₁ : Int} {env : Env} {code : List Insn}
    (leveled : Leveled level h code h₁) {σ τ : State} (run : runBlock env code σ = some τ) :
    τ.reg .rsp = σ.reg .rsp - BitVec.ofInt 64 (8 * (h₁ - h)) := by
  induction leveled generalizing σ with
  | nil =>
    cases run
    simp
  | @cons h h' i code counted allowed rest ih =>
    rw [runBlock_cons] at run
    obtain ⟨υ, next, later⟩ := Option.bind_eq_some_iff.mp run
    have parts : 8 * (h' - h) = 8 * (h' - (h + i.pushed)) + 8 * i.pushed := by omega
    rw [ih later, exec_rsp counted next, parts, BitVec.ofInt_add]
    bv_omega

end Dragon
