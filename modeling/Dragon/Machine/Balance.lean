import Dragon.Machine.Stack

/-! The exact depth of the stack at each line.

Every line but a return moves the stack pointer by a number of bytes that can be
read off it, when calls come back with the stack pointer they were made with. If
labels stand at the depth they are jumped to from, the depth at a line is the
same on every run that comes to it.
-/

set_option autoImplicit false

namespace Dragon

open PartialStep ByteMemory

namespace Insn

/-- The bytes a line adds to the stack. A return, and a line that sets the stack pointer in any other
way, has no such number. -/
def bytes : Insn → Option Int
  | .call _ => some 0
  | .addImm .rsp k => some (-k)
  | .subImm .rsp k => some k
  | i => if i.counted then some (8 * i.pushed) else none

/-- The label that stands at a line or that it may jump to. -/
def place : Insn → Option Label
  | .label l | .jmp l | .jcc _ l => some l
  | _ => none

theorem bytes_of_counted {i : Insn} (counted : i.counted = true) : i.bytes = some (8 * i.pushed) := by
  unfold bytes
  split
  · cases counted
  · simp [Insn.counted, Insn.sets] at counted
  · simp [Insn.counted, Insn.sets] at counted
  · exact if_pos counted

end Insn

/-- Lines that go from one depth of the stack to another, with each label at a depth of its own. The
line after a jump may be at any depth. -/
inductive Rises (level : Label → Int) : Int → List Insn → Int → Prop where
  | nil {h : Int} : Rises level h [] h
  | cons {h h' k : Int} {i : Insn} {code : List Insn} (bytes : i.bytes = some k)
      (placed : ∀ l, i.place = some l → level l = h) (rest : Rises level (h + k) code h') :
      Rises level h (i :: code) h'
  | jump {h h₁ h' : Int} {l : Label} {code : List Insn} (placed : level l = h)
      (rest : Rises level h₁ code h') : Rises level h (.jmp l :: code) h'

/-- A depth for each line, kept by lines that fall through and by jumps. -/
structure Depths (level : Label → Int) (code : List Insn) (depth : Nat → Int) : Prop where
  placed : ∀ p i l, code[p]? = some i → i.place = some l → level l = depth p
  next : ∀ p i, code[p]? = some i → (∀ l, i ≠ .jmp l) →
    ∃ k, i.bytes = some k ∧ depth (p + 1) = depth p + k

/-- A call comes back with the stack pointer it was made with. -/
def Neutral (env : Env) : Prop :=
  ∀ f σ τ, env.call f σ = some τ → τ.reg .rsp = σ.reg .rsp

theorem exec_bytes {env : Env} (neutral : Neutral env) {i : Insn} {k : Int} {σ τ : State}
    (bytes : i.bytes = some k) (next : exec env i σ = some τ) :
    τ.reg .rsp = σ.reg .rsp - BitVec.ofInt 64 k := by
  have counted : ∀ {j : Insn}, (if j.counted then some (8 * j.pushed) else none) = some k →
      exec env j σ = some τ → τ.reg .rsp = σ.reg .rsp - BitVec.ofInt 64 k := by
    intro j number ran
    split at number
    next counted =>
      cases number
      exact exec_rsp counted ran
    next => cases number
  unfold Insn.bytes at bytes
  split at bytes
  · cases bytes
    simp only [exec, Insn.operands, List.not_mem_nil, if_false, execNamed] at next
    simp [neutral _ _ _ next]
  · cases bytes
    cases next
    rw [State.alu_reg_self rfl, BitVec.ofInt_neg]
    bv_omega
  · cases bytes
    cases next
    exact State.alu_reg_self rfl
  · exact counted bytes next

namespace Rises

variable {level : Label → Int} {h h₁ h₂ : Int}

theorem one {i : Insn} {k : Int} (bytes : i.bytes = some k)
    (placed : ∀ l, i.place = some l → level l = h) : Rises level h [i] (h + k) :=
  .cons bytes placed .nil

theorem line {i : Insn} {k : Int} (bytes : i.bytes = some k) (unplaced : i.place = none) :
    Rises level h [i] (h + k) := by
  refine .one bytes ?_
  intro l place
  rw [unplaced] at place
  cases place

theorem append {first second : List Insn} (one : Rises level h first h₁)
    (two : Rises level h₁ second h₂) : Rises level h (first ++ second) h₂ := by
  induction one with
  | nil => exact two
  | cons bytes placed _ ih => exact .cons bytes placed (ih two)
  | jump placed _ ih => exact .jump placed (ih two)

def depthsFrom (h : Int) (depth : Nat → Int) : Nat → Int
  | 0 => h
  | p + 1 => depth p

theorem depths {code : List Insn} (rises : Rises level h code h₁) :
    ∃ depth, Depths level code depth ∧ depth 0 = h ∧ depth code.length = h₁ := by
  induction rises with
  | @nil h => exact ⟨fun _ => h, ⟨by simp, by simp⟩, rfl, rfl⟩
  | @cons h h' k i code bytes placed _ ih =>
    obtain ⟨depth, ⟨stands, falls⟩, first, last⟩ := ih
    refine ⟨depthsFrom h depth, ⟨?_, ?_⟩, rfl, last⟩
    · intro p j l at_ place
      cases p with
      | zero =>
        cases at_
        exact placed l place
      | succ p => exact stands p j l at_ place
    · intro p j at_ other
      cases p with
      | zero =>
        cases at_
        exact ⟨k, bytes, first⟩
      | succ p => exact falls p j at_ other
  | @jump h h₂ h' l code placed _ ih =>
    obtain ⟨depth, ⟨stands, falls⟩, first, last⟩ := ih
    refine ⟨depthsFrom h depth, ⟨?_, ?_⟩, rfl, last⟩
    · intro p j m at_ place
      cases p with
      | zero =>
        cases at_
        cases place
        exact placed
      | succ p => exact stands p j m at_ place
    · intro p j at_ other
      cases p with
      | zero =>
        cases at_
        exact absurd rfl (other l)
      | succ p => exact falls p j at_ other

end Rises

/-! ## Runs -/

theorem step_inversion {env : Env} {code : List Insn} {p q : Nat} {i : Insn} {σ τ : State}
    (at_ : code[p]? = some i) (next : step env code (p, σ) = some (q, τ)) :
    (∃ l, (i = .jmp l ∨ ∃ cc, i = .jcc cc l) ∧ resolveLabel code p l = some q ∧ τ = σ) ∨
      (q = p + 1 ∧ τ = σ ∧ ∃ cc l, i = .jcc cc l) ∨ (q = p + 1 ∧ exec env i σ = some τ) := by
  unfold step at next
  rw [at_] at next
  cases i with
  | jmp l =>
    obtain ⟨_, found, same⟩ := Option.map_eq_some_iff.mp next
    cases same
    exact .inl ⟨l, .inl rfl, found, rfl⟩
  | jcc cc l =>
    obtain ⟨f, -, next⟩ := Option.bind_eq_some_iff.mp next
    split at next
    · obtain ⟨_, found, same⟩ := Option.map_eq_some_iff.mp next
      cases same
      exact .inl ⟨l, .inr ⟨cc, rfl⟩, found, rfl⟩
    · cases next
      exact .inr (.inl ⟨rfl, rfl, cc, l, rfl⟩)
  | _ =>
    obtain ⟨_, ran, same⟩ := Option.map_eq_some_iff.mp next
    cases same
    exact .inr (.inr ⟨rfl, ran⟩)

def InBlock (p : Nat) (block : List Insn) (c : Nat × State) : Prop :=
  p ≤ c.1 ∧ c.1 ≤ p + block.length

def AtDepth (p : Nat) (depth : Nat → Int) (base : BitVec 64) (c : Nat × State) : Prop :=
  ∃ k, c.1 = p + k ∧ c.2.reg .rsp = base - BitVec.ofInt 64 (depth k)

section

variable {level : Label → Int} {depth : Nat → Int} {env : Env} {code block : List Insn} {p : Nat}
  {base : BitVec 64}

theorem Located.line {k : Nat} (located : Located code p block) (small : k < block.length) :
    code[p + k]? = some block[k] := by
  obtain ⟨rest, split⟩ := located
  rw [← List.getElem?_drop, ← split, List.getElem?_append_left small, List.getElem?_eq_getElem small]

theorem Depths.step (depths : Depths level block depth) (neutral : Neutral env)
    (located : Located code p (block ++ [.ret])) {c c' : Nat × State}
    (here : AtDepth p depth base c) (inside : InBlock p block c) (inside' : InBlock p block c')
    (next : Dragon.step env code c = some c') : AtDepth p depth base c' := by
  obtain ⟨_, σ⟩ := c
  obtain ⟨q, τ⟩ := c'
  obtain ⟨k, rfl, rsp⟩ := here
  rcases Nat.lt_or_eq_of_le (Nat.add_le_add_iff_left.mp inside.2) with less | rfl
  · have at_ : code[p + k]? = some block[k] := located.left.line less
    have mine : block[k]? = some block[k] := List.getElem?_eq_getElem less
    rcases step_inversion at_ next with ⟨l, jump, found, rfl⟩ | ⟨rfl, rfl, cc, l, jump⟩ | ⟨rfl, ran⟩
    · -- the label is jumped to from the depth it stands at
      obtain ⟨j, rfl⟩ := Nat.exists_eq_add_of_le inside'.1
      have target := resolveLabel_at found
      have within : j < block.length := by
        rcases Nat.lt_or_eq_of_le (Nat.add_le_add_iff_left.mp inside'.2) with less | rfl
        · exact less
        · rw [located.right.head] at target
          cases target
      rw [located.left.line within] at target
      have there := depths.placed j _ l (List.getElem?_eq_getElem within)
        (by rw [Option.some.inj target]; rfl)
      have start : level l = depth k := by
        apply depths.placed k _ l mine
        rcases jump with same | ⟨cc, same⟩ <;> rw [same] <;> rfl
      exact ⟨j, rfl, by rw [← there, start]; exact rsp⟩
    · -- a conditional jump that is not taken
      obtain ⟨b, bytes, later⟩ := depths.next k _ mine fun m same => by rw [jump] at same; cases same
      rw [jump] at bytes
      cases bytes
      refine ⟨k + 1, rfl, ?_⟩
      rw [later]
      simpa [Insn.pushed] using rsp
    · obtain ⟨b, bytes, later⟩ := depths.next k _ mine fun m same => by
        rw [same] at ran
        cases ran
      have moved := exec_bytes neutral bytes ran
      refine ⟨k + 1, rfl, ?_⟩
      simp only at rsp ⊢
      rw [later, moved, rsp, BitVec.ofInt_add]
      bv_omega
  · -- a return ends the run
    have last : Dragon.step env code (p + block.length, σ) = none := by
      unfold Dragon.step
      rw [located.right.head]
      rfl
    rw [last] at next
    cases next

-- On every run in the block the stack pointer at a line is the same distance from where it was
-- at the first line.
theorem Depths.leads (depths : Depths level block depth) (start : depth 0 = 0)
    (neutral : Neutral env) (located : Located code p (block ++ [.ret])) {n k : Nat} {σ τ : State}
    (last : k ≤ block.length)
    (run : Leads (Dragon.step env code) (InBlock p block) n (p, σ) (p + k, τ)) :
    τ.reg .rsp = σ.reg .rsp - BitVec.ofInt 64 (depth k) := by
  have keeps : ∀ {n : Nat} {c c' : Nat × State}, InBlock p block c' →
      Leads (Dragon.step env code) (InBlock p block) n c c' →
        InBlock p block c ∧ (AtDepth p depth (σ.reg .rsp) c → AtDepth p depth (σ.reg .rsp) c') := by
    intro n
    induction n with
    | zero =>
      intro c c' inside same
      cases same
      exact ⟨inside, id⟩
    | succ n ih =>
      intro c c' inside run
      obtain ⟨first, r, next, rest⟩ := run
      obtain ⟨inside', later⟩ := ih inside rest
      exact ⟨first, fun here => later (depths.step neutral located here first inside' next)⟩
  have first : AtDepth p depth (σ.reg .rsp) (p, σ) := ⟨0, rfl, by simp [start]⟩
  have inside : InBlock p block (p + k, τ) :=
    ⟨Nat.le_add_right p k, Nat.add_le_add_left last p⟩
  obtain ⟨j, same, rsp⟩ := (keeps inside run).2 first
  rw [Nat.add_left_cancel same]
  exact rsp

end

theorem ofInt_eq_zero_iff {k : Int} : BitVec.ofInt 64 k = 0 ↔ (2 : Int) ^ 64 ∣ k := by
  rw [← BitVec.toInt_inj, BitVec.toInt_ofInt]
  exact Int.dvd_iff_bmod_eq_zero.symm

theorem sub_ofInt_eq_iff {a : BitVec 64} {k : Int} :
    a - BitVec.ofInt 64 k = a ↔ (2 : Int) ^ 64 ∣ k := by
  -- a stack pointer has come back when the depth is a multiple of the address space
  rw [← ofInt_eq_zero_iff]
  constructor
  · intro same
    bv_omega
  · intro zero
    rw [zero]
    exact BitVec.sub_zero a

end Dragon
