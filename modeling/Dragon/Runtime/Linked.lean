import Dragon.Machine.Output
import Dragon.Runtime.Routines

/-! Programs linked with the routines of rt.s.

A call runs the routine from its first line to the return. The words a routine
keeps for its caller are those that printf and fflush keep for it, less the ten
it has pushed. What it shows is read off the arguments it passes on.
-/

set_option autoImplicit false

namespace Dragon

open ByteMemory

namespace Routine

def name : Routine → Name
  | writeInteger => "write_integer"
  | writeNewline => "write_newline"

def named (f : Name) : Option Routine :=
  if f = writeInteger.name then some writeInteger
  else if f = writeNewline.name then some writeNewline
  else none

end Routine

/-- The output linked with the routines. The address after a call instruction is the program's. -/
def linked (out : Outside) (display : BitVec 64) (after : State → BitVec 64) : Env where
  display := display
  call := fun f σ => do
    let which ← Routine.named f
    let (a, τ) ← rtCall out which (after σ) σ
    if a = after σ then some τ else none

/-! ## What is kept -/

section

variable {out : Outside} {n : Nat}

theorem keeps_integerCalls (printf : KeepsOff out callerSaved n [.call "printf"])
    (fflush : KeepsOff out callerSaved n [.call "fflush"]) : KeepsOff out callerSaved n integerCalls := by
  have load : KeepsOff out [.rdi] n [.loadSymbol .rdi "stdout"] :=
    keeps_setReg (by decide) _ fun _ => ⟨_, rfl⟩
  have lines := (keeps_xor .rax .rax n (by decide)).append
    ((keeps_movSymbol out .rdi "percent_ld_cstr" n (by decide)).append
      (printf.append (load.append fflush)))
  exact lines.mono (by decide) (by decide)

theorem keeps_integerWords (fits : n + 11 < 2 ^ 32)
    (printf : KeepsOff out callerSaved (n + 10) [.call "printf"])
    (fflush : KeepsOff out callerSaved (n + 10) [.call "fflush"]) :
    KeepsOff out [] (n + 1) integerBrackets := by
  have inner := (keeps_integerCalls printf fflush).savedAll (n := n + 2)
    [.rax, .rdi, .rdx, .rcx, .r8, .r9, .r10, .r11] (by decide) (by simp; omega)
  have argument : KeepsOff out [.rsi] (n + 2) [.load .rsi 16] :=
    keeps_setReg (by decide) _ fun _ => ⟨_, rfl⟩
  exact ((argument.append inner).saved (by decide) (by omega)).mono (by decide) (by decide)

theorem keeps_newlineWords (fits : n + 11 < 2 ^ 32) :
    KeepsOff out notKept (n + 1) newlineBrackets := by
  have call : KeepsOff out [.rax, .rdi, .rsi, .rdx, .r11, .rcx] (n + 5) newlineCall := by
    have lines := (keeps_movImm .rax 1 (n + 5) (by decide)).append
      ((keeps_movImm .rdi 1 (n + 5) (by decide)).append
        ((keeps_movSymbol out .rsi "newline" (n + 5) (by decide)).append
          ((keeps_movImm .rdx 1 (n + 5) (by decide)).append (keeps_syscall (n + 5)))))
    exact lines.mono (by decide) (by decide)
  have inner := call.savedAll (n := n + 1) [.rax, .rdi, .rsi, .rdx] (by decide) (by simp; omega)
  exact inner.mono (by decide) (by decide)

theorem KeepsOff.called {lost : List RegName} {block : List RtInsn}
    (keeps : KeepsOff out lost (n + 1) block) (fits : n + 1 < 2 ^ 32) (after : BitVec 64) (σ : State) :
    ∃ τ, rtRun out (block ++ [.ret]) (σ.push after) = some (after, τ) ∧ KeptOff lost n σ τ := by
  obtain ⟨τ, run, kept⟩ := keeps.run (σ.push after)
  have pushed := σ.push_rsp after
  have still : τ.reg .rsp = below (σ.reg .rsp) 0 := (kept.rsp keeps.stack).trans pushed
  have word := kept.word 0 (Nat.succ_pos n)
  rw [pushed, Nat.mul_zero, BitVec.add_zero] at word
  refine ⟨τ.setReg .rsp (τ.reg .rsp + 8), ?_, ?_, ?_⟩
  · rw [rtRun_of_lines run, still, word]
    exact congrArg some (congrArg (·, _) (readWord_writeWord ..))
  · intro r name apart
    by_cases sp : r = .rsp
    · subst sp
      rw [State.setReg_reg_self, still, below_zero_add]
    · rw [State.setReg_reg_of_ne _ _ sp, kept.reg r name apart]
      exact State.push_reg _ sp
  · intro k less
    have word := kept.word (k + 1) (Nat.succ_lt_succ less)
    rw [pushed, below_add_word] at word
    exact word.trans (readWord_writeWord_apart σ.mem _ (word_apart_below _ (by omega)))

end

/-! ## What is shown -/

/-- What a routine asks of the C library and of the kernel. -/
inductive Effect where
  | call (f : Name) (rax rdi rsi : BitVec 64)
  | syscall (rax rdi rsi rdx : BitVec 64)

def RtInsn.asks (i : RtInsn) (σ : State) : List Effect :=
  match i with
  | .call f => [.call f (σ.reg .rax) (σ.reg .rdi) (σ.reg .rsi)]
  | .syscall => [.syscall (σ.reg .rax) (σ.reg .rdi) (σ.reg .rsi) (σ.reg .rdx)]
  | _ => []

def effects (out : Outside) : List RtInsn → State → List Effect
  | [], _ => []
  | i :: code, σ => i.asks σ ++ (rtExec out i σ).elim [] (effects out code)

/-- printf with the format %ld shows its argument, and write(1, newline, 1) ends the line. Nothing
else is shown; fflush only hands on what printf has been given. -/
def Effect.shown (out : Outside) : Effect → Option Output
  | .call f rax rdi rsi =>
      if f = "printf" ∧ rax = 0 ∧ rdi = out.address "percent_ld_cstr" then some (.integer rsi) else none
  | .syscall rax rdi rsi rdx =>
      if rax = 1 ∧ rdi = 1 ∧ rsi = out.address "newline" ∧ rdx = 1 then some .newline else none

def RtInsn.silent : RtInsn → Bool
  | .call f => f != "printf"
  | .syscall => false
  | _ => true

theorem effects_silent (out : Outside) {code : List RtInsn} (silent : ∀ i ∈ code, i.silent = true)
    (σ : State) : (effects out code σ).filterMap (Effect.shown out) = [] := by
  induction code generalizing σ with
  | nil => rfl
  | cons i code ih =>
    have later := ih fun j member => silent j (List.mem_cons_of_mem i member)
    have none_ : (i.asks σ).filterMap (Effect.shown out) = [] := by
      have here := silent i List.mem_cons_self
      cases i with
      | call f =>
        have other : f ≠ "printf" := by simpa [RtInsn.silent] using here
        simp [RtInsn.asks, Effect.shown, other]
      | syscall => cases here
      | _ => rfl
    rw [effects, List.filterMap_append, none_, List.nil_append]
    cases rtExec out i σ with
    | none => rfl
    | some τ => exact later τ

def beforePrintf : List RtInsn :=
  [.push .rsi, .load .rsi 16, .push .rax, .push .rdi, .push .rdx, .push .rcx, .push .r8, .push .r9,
    .push .r10, .push .r11, .xor .rax .rax, .movSymbol .rdi "percent_ld_cstr"]

theorem argument_word (σ : State) (after v : BitVec 64) :
    readWord ((σ.push after).push v).mem (((σ.push after).push v).reg .rsp + 16) =
      readWord σ.mem (σ.reg .rsp) := by
  have first : ((σ.push after).push v).reg .rsp + 16 = σ.reg .rsp := by
    rw [State.push_rsp, State.push_rsp]
    unfold below
    bv_omega
  have near : Apart (σ.reg .rsp) (below (σ.reg .rsp) 0) := by
    have apart := word_apart_below (σ.reg .rsp) (k := 0) (by decide)
    rwa [Nat.mul_zero, BitVec.add_zero] at apart
  have far : Apart (σ.reg .rsp) (below (below (σ.reg .rsp) 0) 0) := by
    have apart := word_apart_below (below (σ.reg .rsp) 0) (k := 1) (by decide)
    have same : below (σ.reg .rsp) 0 + BitVec.ofNat 64 (8 * 1) = σ.reg .rsp := below_zero_add _
    rwa [same] at apart
  rw [first]
  exact (readWord_writeWord_apart _ _ far).trans (readWord_writeWord_apart _ _ near)

theorem effects_append {out : Outside} {first second : List RtInsn} {σ υ : State}
    (run : rtLines out first σ = some υ) :
    effects out (first ++ second) σ = effects out first σ ++ effects out second υ := by
  induction first generalizing σ with
  | nil =>
    cases run
    rfl
  | cons i first ih =>
    obtain ⟨τ, next, rest⟩ := Option.bind_eq_some_iff.mp run
    rw [List.cons_append, effects, effects, next, Option.elim_some, Option.elim_some, ih rest,
      List.append_assoc]

theorem effects_between {out : Outside} {first rest : List RtInsn} {i : RtInsn} {σ υ : State}
    (run : rtLines out first σ = some υ) (before : ∀ j ∈ first, j.silent = true)
    (after : ∀ j ∈ rest, j.silent = true) :
    (effects out (first ++ i :: rest) σ).filterMap (Effect.shown out) =
      (i.asks υ).filterMap (Effect.shown out) := by
  rw [effects_append run, List.filterMap_append, effects_silent out before, List.nil_append, effects,
    List.filterMap_append]
  cases rtExec out i υ with
  | none => exact List.append_nil _
  | some τ =>
    rw [Option.elim_some, effects_silent out after]
    exact List.append_nil _

theorem effects_writeInteger (out : Outside) (after : BitVec 64) (σ : State) :
    (effects out Routine.writeInteger.code (σ.push after)).filterMap (Effect.shown out) =
      Dragon.shows "write_integer" σ := by
  obtain ⟨υ, run, rax, rdi, rsi⟩ : ∃ υ, rtLines out beforePrintf (σ.push after) = some υ ∧
      υ.reg .rax = 0 ∧ υ.reg .rdi = out.address "percent_ld_cstr" ∧
      υ.reg .rsi = readWord σ.mem (σ.reg .rsp) :=
    ⟨_, rfl, BitVec.xor_self, rfl, argument_word σ after _⟩
  have split : Routine.writeInteger.code = beforePrintf ++ .call "printf" ::
      (.loadSymbol .rdi "stdout" :: .call "fflush" :: ([RegName.r11, .r10, .r9, .r8, .rcx, .rdx, .rdi,
        .rax, .rsi].map RtInsn.pop ++ [.ret])) := rfl
  rw [split, effects_between run (by decide) (by decide)]
  simp [RtInsn.asks, Effect.shown, rax, rdi, rsi, Dragon.shows]

def beforeSyscall : List RtInsn :=
  [.push .rax, .push .rdi, .push .rsi, .push .rdx, .movImm .rax 1, .movImm .rdi 1,
    .movSymbol .rsi "newline", .movImm .rdx 1]

theorem effects_writeNewline (out : Outside) (after : BitVec 64) (σ : State) :
    (effects out Routine.writeNewline.code (σ.push after)).filterMap (Effect.shown out) =
      Dragon.shows "write_newline" σ := by
  obtain ⟨υ, run, rax, rdi, rsi, rdx⟩ : ∃ υ, rtLines out beforeSyscall (σ.push after) = some υ ∧
      υ.reg .rax = 1 ∧ υ.reg .rdi = 1 ∧ υ.reg .rsi = out.address "newline" ∧ υ.reg .rdx = 1 :=
    ⟨_, rfl, rfl, rfl, rfl, rfl⟩
  have split : Routine.writeNewline.code = beforeSyscall ++ .syscall ::
      ([RegName.rdx, .rsi, .rdi, .rax].map RtInsn.pop ++ [.ret]) := rfl
  rw [split, effects_between run (by decide) (by decide)]
  simp [RtInsn.asks, Effect.shown, rax, rdi, rsi, rdx, Dragon.shows]

/-- Linked with a C library that keeps the words on the stack and the registers its convention says,
the routines keep for the output all the words it may ask for, and what they show is what the
output's calls show. -/
theorem linked_writes (out : Outside) (display : BitVec 64) (after : State → BitVec 64) (n : Nat)
    (fits : n + 11 < 2 ^ 32) (printf : KeepsOff out callerSaved (n + 10) [.call "printf"])
    (fflush : KeepsOff out callerSaved (n + 10) [.call "fflush"]) :
    Writes (linked out display after) n ∧ ∀ (which : Routine) (σ : State),
      (effects out which.code (σ.push (after σ))).filterMap (Effect.shown out) =
        Dragon.shows which.name σ := by
  have calls : ∀ (which : Routine) (block : List RtInsn) (σ : State), which.code = block ++ [.ret] →
      KeepsOff out notKept (n + 1) block →
      ∃ τ, (linked out display after).call which.name σ = some τ ∧ KeptOff notKept n σ τ := by
    intro which block σ code keeps
    obtain ⟨τ, returned, kept⟩ := keeps.called (by omega) (after σ) σ
    have named : Routine.named which.name = some which := by cases which <;> rfl
    refine ⟨τ, ?_, kept⟩
    rw [← code] at returned
    simp [linked, named, rtCall, returned]
  refine ⟨⟨?_⟩, ?_⟩
  · intro f member σ
    simp only [writers, List.mem_cons, List.not_mem_nil, or_false] at member
    rcases member with rfl | rfl
    · exact calls .writeInteger _ σ writeInteger_code
        ((keeps_integerWords fits printf fflush).mono (by simp) (by decide))
    · exact calls .writeNewline _ σ writeNewline_code (keeps_newlineWords fits)
  · intro which σ
    cases which with
    | writeInteger => exact effects_writeInteger out _ σ
    | writeNewline => exact effects_writeNewline out _ σ

-- With the functions that only answer, a whole frame of three words is kept.
theorem oneCharacter_writes : Writes (linked oneCharacter 0 fun _ => 0x401010) 3 ∧
    ∀ (which : Routine) (σ : State), (effects oneCharacter which.code (σ.push 0x401010)).filterMap
      (Effect.shown oneCharacter) = Dragon.shows which.name σ := by
  have answers : ∀ f, KeepsOff oneCharacter callerSaved (3 + 10) [.call f] := by
    intro f
    refine ⟨by decide, ?_⟩
    intro σ
    refine ⟨_, rfl, ?_, fun _ _ => rfl⟩
    intro r _ apart
    refine σ.setReg_reg_of_ne _ ?_
    rintro rfl
    exact apart (by decide)
  exact linked_writes oneCharacter 0 (fun _ => 0x401010) 3 (by decide) (answers _) (answers _)

end Dragon
