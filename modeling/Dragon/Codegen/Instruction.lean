import Dragon.Ast

/-! The lines analysis.c prints, one constructor for each format string.

Every `%d` is an integer and every `%s` a register, a number spelling, a label
or a byte-register name, so the printed text is determined by the value.
-/

set_option autoImplicit false

namespace Dragon

/-- The register names that occur in the output. `blank` is the empty name
analyze_call gives the result of a magic call. -/
inductive RegName where
  | rax | rbx | rcx | rdx | rsi | rdi | rbp | rsp
  | r8 | r9 | r10 | r11 | r12 | r13 | r14 | r15
  | blank
  deriving DecidableEq, Repr

namespace RegName

def chars : RegName → List Char
  | rax => ['r', 'a', 'x'] | rbx => ['r', 'b', 'x'] | rcx => ['r', 'c', 'x'] | rdx => ['r', 'd', 'x']
  | rsi => ['r', 's', 'i'] | rdi => ['r', 'd', 'i'] | rbp => ['r', 'b', 'p'] | rsp => ['r', 's', 'p']
  | r8 => ['r', '8'] | r9 => ['r', '9'] | r10 => ['r', '1', '0'] | r11 => ['r', '1', '1']
  | r12 => ['r', '1', '2'] | r13 => ['r', '1', '3'] | r14 => ['r', '1', '4'] | r15 => ['r', '1', '5']
  | blank => []

end RegName

abbrev numRegs : Nat := 14

instance : NeZero numRegs := ⟨by decide⟩

def REGS : Fin numRegs → RegName
  | 0 => .rbx | 1 => .rcx | 2 => .r8 | 3 => .r9 | 4 => .r10 | 5 => .r11 | 6 => .r12 | 7 => .r13
  | 8 => .r14 | 9 => .r15 | 10 => .rdx | 11 => .rsi | 12 => .rax | 13 => .rdi

theorem REGS_injective : Function.Injective REGS := by
  intro i j same
  revert i j
  decide

theorem REGS_ne (i : Fin numRegs) : REGS i ≠ .rsp ∧ REGS i ≠ .rbp ∧ REGS i ≠ .blank := by
  revert i
  decide

inductive Label where
  | sub (f : Name)        -- f@
  | main
  | display               -- display@
  | loc (k : Nat)         -- .Lk
  deriving DecidableEq, Repr

/-- NASM attaches a local label to the nearest non-local label before it. -/
def Label.isLocal : Label → Bool
  | .loc _ => true
  | _ => false

/-- Condition suffixes of set, and of the conditional jumps. -/
inductive Cond where
  | e | ne | l | g | le | ge
  deriving DecidableEq, Repr

inductive Alu where
  | add | sub | imul | and | or | xor | cmp
  deriving DecidableEq, Repr

/-- No newline is printed between a pushDisplay and the storeDisplayFrame after it: they are the two
halves of one line, which is no instruction. -/
inductive Insn where
  | comment (text : String)                   -- ; text
  | externSub (f : Name)                      -- extern f@
  | section (s : Name)                        -- SECTION s
  | reserve (bytes : Int)                     -- display@: db bytes
  | global (l : Label)                        -- global l
  | label (l : Label)                         -- l:
  | blank                                     -- an empty line
  | push (r : RegName)                        -- push r
  | pop (r : RegName)                         -- pop r
  | pushDisplay (d : Int)                     -- push [display@ + d]
  | mov (dst src : RegName)                   -- mov dst, src
  | movLit (dst : RegName) (lit : Name)       -- mov dst, lit
  | movImm (dst : RegName) (k : Int)          -- mov dst, k
  | load (dst base : RegName) (disp : Int)    -- mov dst, [base + disp]
  | store (base src : RegName)                -- mov [base], src
  | loadDisplay (dst : RegName) (d : Int)     -- mov dst, [display@ + d]
  | storeDisplay (d : Int) (src : RegName)    -- mov [display@ + d], src
  | storeDisplayFrame (d off : Int)           -- mov [display@ + d], rbp+off
  | lea (dst : RegName) (off : Int)           -- lea dst, [rbp+off]
  | alu (op : Alu) (dst src : RegName)        -- op dst, src
  | addImm (dst : RegName) (k : Int)          -- add dst, k
  | subImm (dst : RegName) (k : Int)          -- sub dst, k
  | cmpImm (r : RegName) (k : Int)            -- cmp r, k
  | not (r : RegName)                         -- not r
  | inc (r : RegName)                         -- inc r
  | cdq                                       -- cdq
  | idiv (r : RegName)                        -- idiv r
  | set (cc : Cond) (byte : List Char)        -- setcc byte
  | movzx (dst : RegName) (byte : List Char)  -- movzx dst, byte
  | jmp (l : Label)                           -- jmp l
  | jcc (cc : Cond) (l : Label)               -- je l, jne l
  | call (f : Name)                           -- call f@
  | ret                                       -- ret
  | syscall                                   -- syscall
  deriving DecidableEq, Repr

end Dragon
