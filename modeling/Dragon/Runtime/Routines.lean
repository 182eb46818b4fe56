import Dragon.Machine.Brackets

/-! The output routines of rt.s.

What a routine pushes it pops in reverse order, so each saved register is a
bracket around the lines between: the registers they may overwrite lose one
member, and the words on the stack they must keep lose one too. printf and
fflush are known by what the calling convention promises of them. The
instruction syscall overwrites rcx and r11, which write_newline@ does not save.
-/

set_option autoImplicit false

namespace Dragon

open ByteMemory

inductive RtInsn where
  | push (r : RegName)                        -- push r
  | pop (r : RegName)                         -- pop r
  | load (dst : RegName) (disp : Nat)         -- mov dst, [rsp+disp]
  | xor (dst src : RegName)                   -- xor dst, src
  | movImm (dst : RegName) (k : Nat)          -- mov dst, k
  | movSymbol (dst : RegName) (symbol : Name) -- mov dst, symbol
  | loadSymbol (dst : RegName) (symbol : Name) -- mov dst, [symbol]
  | call (f : Name)                           -- call f
  | syscall
  | ret
  deriving DecidableEq, Repr

/-- What the routines take from outside: the addresses of symbols, the effect of a call to the C
library, the kernel's answer, the address after the instruction syscall, and the word the flags are
kept in. -/
structure Outside where
  address : Name → BitVec 64
  call : Name → State → Option State
  answer : State → BitVec 64
  resume : BitVec 64
  rflags : Option Flags → BitVec 64

/-- The instruction leaves the address to resume at in rcx and the flags in r11. -/
def Outside.syscall (out : Outside) (σ : State) : State :=
  ((σ.setReg .rax (out.answer σ)).setReg .rcx out.resume).setReg .r11 (out.rflags σ.flags)

def rtExec (out : Outside) (i : RtInsn) (σ : State) : Option State :=
  match i with
  | .push r => some (σ.push (σ.reg r))
  | .pop r => some (σ.pop r)
  | .load dst disp =>
      some (σ.setReg dst (readWord σ.mem (σ.reg .rsp + BitVec.ofNat 64 disp)))
  | .xor dst src => some (σ.alu .xor dst (σ.reg src))
  | .movImm dst k => some (σ.setReg dst (BitVec.ofNat 64 k))
  | .movSymbol dst symbol => some (σ.setReg dst (out.address symbol))
  | .loadSymbol dst symbol => some (σ.setReg dst (readWord σ.mem (out.address symbol)))
  | .call f => out.call f σ
  | .syscall => some (out.syscall σ)
  | .ret => none

def rtLines (out : Outside) : List RtInsn → State → Option State
  | [], σ => some σ
  | i :: code, σ => (rtExec out i σ).bind (rtLines out code)

def rtRun (out : Outside) : List RtInsn → State → Option (BitVec 64 × State)
  | [], _ => none
  | .ret :: _, σ =>
      some (readWord σ.mem (σ.reg .rsp), σ.setReg .rsp (σ.reg .rsp + 8))
  | i :: code, σ => (rtExec out i σ).bind (rtRun out code)

inductive Routine where
  | writeInteger
  | writeNewline
  deriving DecidableEq, Repr

def Routine.code : Routine → List RtInsn
  | writeInteger =>
      [.push .rsi, .load .rsi 16, .push .rax, .push .rdi, .push .rdx, .push .rcx, .push .r8,
        .push .r9, .push .r10, .push .r11,
        .xor .rax .rax, .movSymbol .rdi "percent_ld_cstr", .call "printf",
        .loadSymbol .rdi "stdout", .call "fflush",
        .pop .r11, .pop .r10, .pop .r9, .pop .r8, .pop .rcx, .pop .rdx, .pop .rdi, .pop .rax,
        .pop .rsi, .ret]
  | writeNewline =>
      [.push .rax, .push .rdi, .push .rsi, .push .rdx,
        .movImm .rax 1, .movImm .rdi 1, .movSymbol .rsi "newline", .movImm .rdx 1, .syscall,
        .pop .rdx, .pop .rsi, .pop .rdi, .pop .rax, .ret]

def rtCall (out : Outside) (which : Routine) (after : BitVec 64) (σ : State) :
    Option (BitVec 64 × State) :=
  rtRun out which.code (σ.push after)

/-- The call returns behind itself, with the stack pointer and all registers as they were. -/
def TransparentCall (out : Outside) (which : Routine) (after : BitVec 64) (σ : State) : Prop :=
  ∃ τ, rtCall out which after σ = some (after, τ) ∧ ∀ r, r ≠ .blank → τ.reg r = σ.reg r

def calleeSaved : List RegName := [.rbx, .rbp, .rsp, .r12, .r13, .r14, .r15]

def callerSaved : List RegName := [.rax, .rcx, .rdx, .rsi, .rdi, .r8, .r9, .r10, .r11]

/-- The words of a routine's frame at a call: nine registers and the return address. -/
abbrev frameWords : Nat := 10

/-- What the System V convention promises of a function: it returns, with these registers as they
were, and does not write into the caller's frame. -/
structure SysV (f : State → Option State) : Prop where
  returns : ∀ σ, ∃ τ, f σ = some τ
  saved : ∀ σ τ, f σ = some τ → ∀ r ∈ calleeSaved, τ.reg r = σ.reg r
  frame : ∀ σ τ, f σ = some τ → ∀ k < frameWords,
    readWord τ.mem (σ.reg .rsp + BitVec.ofNat 64 (8 * k)) =
      readWord σ.mem (σ.reg .rsp + BitVec.ofNat 64 (8 * k))

/-! ## Brackets -/

/-- From every state the lines run through and keep all but some registers. -/
structure KeepsOff (out : Outside) (lost : List RegName) (n : Nat) (block : List RtInsn) : Prop where
  stack : .rsp ∉ lost
  run : ∀ σ, ∃ τ, rtLines out block σ = some τ ∧ KeptOff lost n σ τ

/-- Lines with a register pushed before and popped after them. -/
def bracketed (r : RegName) (block : List RtInsn) : List RtInsn := .push r :: (block ++ [.pop r])

section Brackets

variable {out : Outside} {lost lost' : List RegName} {n : Nat} {block block' : List RtInsn}

theorem rtLines_append (first second : List RtInsn) (σ : State) :
    rtLines out (first ++ second) σ = (rtLines out first σ).bind (rtLines out second) := by
  induction first generalizing σ with
  | nil => rfl
  | cons i first ih =>
    rw [List.cons_append, rtLines, rtLines]
    cases rtExec out i σ with
    | none => rfl
    | some τ => exact ih τ

theorem rtRun_of_lines {σ τ : State} (lines : rtLines out block σ = some τ) :
    rtRun out (block ++ [.ret]) σ =
      some (readWord τ.mem (τ.reg .rsp), τ.setReg .rsp (τ.reg .rsp + 8)) := by
  induction block generalizing σ with
  | nil =>
    cases lines
    rfl
  | cons i block ih =>
    obtain ⟨υ, next, rest⟩ := Option.bind_eq_some_iff.mp lines
    have later := ih rest
    cases i
    case ret => cases next
    all_goals
      rw [List.cons_append, rtRun, next, Option.bind_some, later]
      simp

theorem KeepsOff.append (first : KeepsOff out lost n block) (second : KeepsOff out lost' n block') :
    KeepsOff out (lost ++ lost') n (block ++ block') := by
  refine ⟨by simp [first.stack, second.stack], ?_⟩
  intro σ
  obtain ⟨τ, one, kept⟩ := first.run σ
  obtain ⟨υ, two, kept'⟩ := second.run τ
  refine ⟨υ, ?_, kept.trans kept' first.stack⟩
  rw [rtLines_append, one, Option.bind_some, two]

theorem KeepsOff.mono (keeps : KeepsOff out lost n block) (more : ∀ r ∈ lost, r ∈ lost')
    (stack : .rsp ∉ lost') : KeepsOff out lost' n block := by
  refine ⟨stack, ?_⟩
  intro σ
  obtain ⟨τ, run, kept⟩ := keeps.run σ
  exact ⟨τ, run, kept.mono more⟩

theorem keeps_sets {i : RtInsn} {dst : RegName} (stack : dst ≠ .rsp) (n : Nat)
    (sets : ∀ σ, ∃ τ, rtExec out i σ = some τ ∧ τ.mem = σ.mem ∧ ∀ r, r ≠ dst → τ.reg r = σ.reg r) :
    KeepsOff out [dst] n [i] := by
  refine ⟨by simpa using stack.symm, ?_⟩
  intro σ
  obtain ⟨τ, next, mem, reg⟩ := sets σ
  refine ⟨τ, by rw [rtLines, next]; rfl, ?_, ?_⟩
  · intro r _ apart
    exact reg r (by simpa using apart)
  · intro k _
    rw [mem]

theorem keeps_setReg {i : RtInsn} {dst : RegName} (stack : dst ≠ .rsp) (n : Nat)
    (sets : ∀ σ, ∃ v, rtExec out i σ = some (σ.setReg dst v)) : KeepsOff out [dst] n [i] := by
  refine keeps_sets stack n ?_
  intro σ
  obtain ⟨v, next⟩ := sets σ
  exact ⟨_, next, rfl, fun r ne => σ.setReg_reg_of_ne v ne⟩

theorem keeps_call {f : Name} (sysv : SysV (out.call f)) : KeepsOff out callerSaved frameWords [.call f] := by
  refine ⟨by decide, ?_⟩
  intro σ
  obtain ⟨τ, next⟩ := sysv.returns σ
  refine ⟨τ, by rw [rtLines, rtExec, next]; rfl, ?_, sysv.frame σ τ next⟩
  intro r name apart
  refine sysv.saved σ τ next r ?_
  revert name apart
  cases r <;> decide

theorem KeepsOff.saved (keeps : KeepsOff out lost (n + 1) block) {r : RegName} (other : r ≠ .rsp)
    (fits : n + 1 < 2 ^ 32) : KeepsOff out (lost.filter (· ≠ r)) n (bracketed r block) := by
  -- a saved register is restored, if the lines between keep its word
  refine ⟨fun member => keeps.stack (List.mem_filter.mp member).1, ?_⟩
  intro σ
  obtain ⟨τ, run, kept⟩ := keeps.run (σ.push (σ.reg r))
  refine ⟨τ.pop r, ?_, kept.bracket keeps.stack other fits⟩
  rw [bracketed, rtLines, rtExec, Option.bind_some, rtLines_append, run]
  rfl

theorem KeepsOff.savedAll (rs : List RegName) (keeps : KeepsOff out lost (n + rs.length) block)
    (others : .rsp ∉ rs) (fits : n + rs.length < 2 ^ 32) :
    KeepsOff out (lost.filter (· ∉ rs)) n (rs.foldr bracketed block) := by
  induction rs generalizing n with
  | nil => exact keeps.mono (by simp) (by simpa using keeps.stack)
  | cons r rs ih =>
    rw [List.mem_cons, not_or] at others
    rw [List.length_cons] at keeps fits
    -- the brackets inside keep one word more, the one this register is in
    have inner := ih (n := n + 1) (by rwa [Nat.add_right_comm]) others.2 (by omega)
    refine (inner.saved (Ne.symm others.1) (by omega)).mono ?_ ?_
    · intro s member
      simp only [List.mem_filter, decide_eq_true_eq] at member ⊢
      simp [member.1.1, member.1.2, member.2]
    · simp [keeps.stack]

theorem KeepsOff.returns (keeps : KeepsOff out lost 1 block) (after : BitVec 64) (σ : State) :
    ∃ τ, rtRun out (block ++ [.ret]) (σ.push after) = some (after, τ) ∧
      ∀ r, r ≠ .blank → r ∉ lost → τ.reg r = σ.reg r := by
  obtain ⟨τ, run, kept⟩ := keeps.run (σ.push after)
  have pushed := σ.push_rsp after
  have still : τ.reg .rsp = below (σ.reg .rsp) 0 := (kept.rsp keeps.stack).trans pushed
  have word := kept.word 0 (by decide)
  rw [pushed, Nat.mul_zero, BitVec.add_zero] at word
  refine ⟨τ.setReg .rsp (τ.reg .rsp + 8), ?_, ?_⟩
  · rw [rtRun_of_lines run, still, word]
    exact congrArg some (congrArg (·, _) (readWord_writeWord ..))
  · intro r name apart
    by_cases sp : r = .rsp
    · subst sp
      rw [State.setReg_reg_self, still, below_zero_add]
    · rw [State.setReg_reg_of_ne _ _ sp, kept.reg r name apart]
      exact State.push_reg _ sp

end Brackets

/-! ## The two routines -/

section Routines

variable {out : Outside}

theorem keeps_movImm (dst : RegName) (k n : Nat) (stack : dst ≠ .rsp) :
    KeepsOff out [dst] n [.movImm dst k] := keeps_setReg stack n fun _ => ⟨_, rfl⟩

theorem keeps_movSymbol (out : Outside) (dst : RegName) (symbol : Name) (n : Nat) (stack : dst ≠ .rsp) :
    KeepsOff out [dst] n [.movSymbol dst symbol] := keeps_setReg stack n fun _ => ⟨_, rfl⟩

theorem keeps_xor (dst src : RegName) (n : Nat) (stack : dst ≠ .rsp) :
    KeepsOff out [dst] n [.xor dst src] :=
  keeps_sets stack n fun σ => ⟨_, rfl, σ.alu_mem .., fun _ ne => σ.alu_reg_of_ne _ _ ne⟩

theorem keeps_syscall (n : Nat) : KeepsOff out [.r11, .rcx, .rax] n [.syscall] := by
  refine ⟨by decide, ?_⟩
  intro σ
  refine ⟨out.syscall σ, rfl, ?_, fun _ _ => rfl⟩
  intro r _ apart
  simp only [List.mem_cons, List.not_mem_nil, or_false, not_or] at apart
  rw [Outside.syscall, State.setReg_reg_of_ne _ _ apart.1, State.setReg_reg_of_ne _ _ apart.2.1,
    State.setReg_reg_of_ne _ _ apart.2.2]

def integerCalls : List RtInsn :=
  [.xor .rax .rax, .movSymbol .rdi "percent_ld_cstr", .call "printf", .loadSymbol .rdi "stdout",
    .call "fflush"]

def newlineCall : List RtInsn :=
  [.movImm .rax 1, .movImm .rdi 1, .movSymbol .rsi "newline", .movImm .rdx 1, .syscall]

/-- The lines of write_integer@ as brackets. The argument is fetched inside the first one. -/
def integerBrackets : List RtInsn :=
  bracketed .rsi ([.load .rsi 16] ++
    [RegName.rax, .rdi, .rdx, .rcx, .r8, .r9, .r10, .r11].foldr bracketed integerCalls)

def newlineBrackets : List RtInsn := [RegName.rax, .rdi, .rsi, .rdx].foldr bracketed newlineCall

theorem writeInteger_code : Routine.writeInteger.code = integerBrackets ++ [.ret] := rfl

theorem writeNewline_code : Routine.writeNewline.code = newlineBrackets ++ [.ret] := rfl

theorem keeps_writeInteger (printf : SysV (out.call "printf")) (fflush : SysV (out.call "fflush")) :
    KeepsOff out [] 1 integerBrackets := by
  -- the nine registers saved are the ones the convention does not keep
  have calls : KeepsOff out callerSaved frameWords integerCalls := by
    have load : KeepsOff out [.rdi] frameWords [.loadSymbol .rdi "stdout"] :=
      keeps_setReg (by decide) _ fun _ => ⟨_, rfl⟩
    have lines := (keeps_xor .rax .rax frameWords (by decide)).append
      ((keeps_movSymbol out .rdi "percent_ld_cstr" frameWords (by decide)).append
        ((keeps_call printf).append (load.append (keeps_call fflush))))
    exact lines.mono (by decide) (by decide)
  have inner := calls.savedAll (n := 2) [.rax, .rdi, .rdx, .rcx, .r8, .r9, .r10, .r11]
    (by decide) (by decide)
  have argument : KeepsOff out [.rsi] 2 [.load .rsi 16] :=
    keeps_setReg (by decide) _ fun _ => ⟨_, rfl⟩
  exact ((argument.append inner).saved (by decide) (by decide)).mono (by decide) (by decide)

theorem keeps_writeNewline (out : Outside) : KeepsOff out [.r11, .rcx] 1 newlineBrackets := by
  -- the registers the instruction overwrites and the routine does not save
  have call : KeepsOff out [.rax, .rdi, .rsi, .rdx, .r11, .rcx] 5 newlineCall := by
    have lines := (keeps_movImm .rax 1 5 (by decide)).append
      ((keeps_movImm .rdi 1 5 (by decide)).append
        ((keeps_movSymbol out .rsi "newline" 5 (by decide)).append
          ((keeps_movImm .rdx 1 5 (by decide)).append (keeps_syscall 5))))
    exact lines.mono (by decide) (by decide)
  have inner := call.savedAll (n := 1) [.rax, .rdi, .rsi, .rdx] (by decide) (by decide)
  exact inner.mono (by decide) (by decide)

/-- The lines leave in rcx and r11 what the instruction syscall does. -/
def Overwrites (out : Outside) (block : List RtInsn) : Prop :=
  ∀ σ τ, rtLines out block σ = some τ → τ.reg .rcx = out.resume ∧ τ.reg .r11 = out.rflags σ.flags

theorem Overwrites.saved {block : List RtInsn} (leaves : Overwrites out block) {r : RegName}
    (rcx : .rcx ≠ r) (r11 : .r11 ≠ r) : Overwrites out (bracketed r block) := by
  intro σ τ run
  rw [bracketed, rtLines, rtExec, Option.bind_some, rtLines_append] at run
  obtain ⟨υ, inner, popped⟩ := Option.bind_eq_some_iff.mp run
  obtain rfl : υ.pop r = τ := Option.some.inj popped
  obtain ⟨first, second⟩ := leaves _ υ inner
  constructor
  · rw [State.pop, State.setReg_reg_of_ne _ _ rcx, State.setReg_reg_of_ne _ _ (by decide), first]
  · rw [State.pop, State.setReg_reg_of_ne _ _ r11, State.setReg_reg_of_ne _ _ (by decide), second]
    rfl

theorem overwrites_newline : Overwrites out newlineBrackets := by
  have call : Overwrites out newlineCall := by
    intro σ τ run
    obtain rfl := Option.some.inj run
    refine ⟨?_, State.setReg_reg_self ..⟩
    rw [Outside.syscall, State.setReg_reg_of_ne _ _ (by decide), State.setReg_reg_self]
  exact (((call.saved (by decide) (by decide)).saved (by decide) (by decide)).saved (by decide)
    (by decide)).saved (by decide) (by decide)

theorem writeNewline_overwrites {after a : BitVec 64} {σ τ : State}
    (returned : rtCall out .writeNewline after σ = some (a, τ)) :
    τ.reg .rcx = out.resume ∧ τ.reg .r11 = out.rflags σ.flags := by
  -- what the instruction left in rcx and r11 is there at the return
  obtain ⟨υ, run, -⟩ := (keeps_writeNewline out).run (σ.push after)
  obtain ⟨rcx, r11⟩ := overwrites_newline _ υ run
  rw [rtCall, writeNewline_code, rtRun_of_lines run] at returned
  obtain ⟨-, rfl⟩ := Prod.mk.inj (Option.some.inj returned)
  rw [State.setReg_reg_of_ne _ _ (by decide), State.setReg_reg_of_ne _ _ (by decide)]
  exact ⟨rcx, r11⟩

end Routines

/-- write_integer@ is transparent in every state, and write_newline@ in those that have in rcx and
r11 what the instruction puts there. -/
theorem routine_transparent_iff (out : Outside) (printf : SysV (out.call "printf"))
    (fflush : SysV (out.call "fflush")) (which : Routine) (after : BitVec 64) (σ : State) :
    TransparentCall out which after σ ↔
      (which = .writeNewline → σ.reg .rcx = out.resume ∧ σ.reg .r11 = out.rflags σ.flags) := by
  cases which with
  | writeInteger =>
    obtain ⟨τ, returned, reg⟩ := (keeps_writeInteger printf fflush).returns after σ
    rw [← writeInteger_code] at returned
    constructor
    · intro _ other
      cases other
    · intro _
      exact ⟨τ, returned, fun r name => reg r name (by simp)⟩
  | writeNewline =>
    obtain ⟨τ, returned, reg⟩ := (keeps_writeNewline out).returns after σ
    rw [← writeNewline_code] at returned
    have overwritten := writeNewline_overwrites returned
    constructor
    · rintro ⟨υ, returned', same⟩ -
      obtain ⟨rcx, r11⟩ := writeNewline_overwrites returned'
      exact ⟨(same .rcx (by decide)).symm.trans rcx, (same .r11 (by decide)).symm.trans r11⟩
    · intro there
      obtain ⟨rcx, r11⟩ := there rfl
      refine ⟨τ, returned, ?_⟩
      intro r name
      by_cases lost : r ∈ [RegName.r11, RegName.rcx]
      · simp only [List.mem_cons, List.not_mem_nil, or_false] at lost
        rcases lost with rfl | rfl
        · exact overwritten.2.trans r11.symm
        · exact overwritten.1.trans rcx.symm
      · exact reg r name lost

-- Functions that only answer: one character printed, and a flush that went well.
def oneCharacter : Outside where
  address := fun _ => 0x404040
  call := fun f σ => some (σ.setReg .rax (if f = "printf" then 1 else 0))
  answer := fun _ => 1
  resume := 0x401050
  rflags := fun _ => 0x246

theorem sysv_oneCharacter (f : Name) : SysV (oneCharacter.call f) := by
  refine ⟨fun σ => ⟨_, rfl⟩, ?_, ?_⟩
  · rintro σ τ ⟨⟩ r member
    refine σ.setReg_reg_of_ne _ ?_
    rintro rfl
    exact absurd member (by decide)
  · rintro σ τ ⟨⟩ k _
    rfl

theorem writeInteger_zero_transparent : TransparentCall oneCharacter .writeInteger 0x401010 busyState :=
  (routine_transparent_iff oneCharacter (sysv_oneCharacter _) (sysv_oneCharacter _) .writeInteger
    0x401010 busyState).mpr (by decide)

-- A counter kept in rcx is lost.
theorem not_forall_transparent : ¬ ∀ (out : Outside), SysV (out.call "printf") →
    SysV (out.call "fflush") → ∀ (which : Routine) (after : BitVec 64) (σ : State),
      TransparentCall out which after σ := by
  intro every
  obtain ⟨τ, returned, same⟩ := every oneCharacter (sysv_oneCharacter _) (sysv_oneCharacter _)
    .writeNewline 0x401010 busyState
  have kept : τ.reg .rcx = 3 := same .rcx (by decide)
  rw [(writeNewline_overwrites returned).1] at kept
  exact absurd kept (by decide)

end Dragon
