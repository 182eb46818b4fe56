import Dragon.Codegen.Analysis
import Dragon.Machine.State

/-! The lines of DIV, / and MOD.

cdq extends the sign of eax into edx, where idiv takes a dividend of 128 bits in
rdx:rax, so the division is one of another dividend unless the left operand is
nonnegative with bit 31 clear. Operands in rax and rdx meet the saves around it.
-/

set_option autoImplicit false

namespace Dragon

open ByteMemory

/-- The result of the operator on integers: the truncated quotient, or the remainder with the
sign of the dividend. -/
def Token.divide (op : Token) (a b : Int) : Int := if op = .mod then a.tmod b else a.tdiv b

def Token.isDivision : Token → Bool
  | .div | .slash | .mod => true
  | _ => false

def highHalf (l : BitVec 64) : BitVec 64 := if (l.setWidth 32).msb then 0xffffffff#64 else 0

def dividend (l : BitVec 64) : Int := (highHalf l).toInt * 2 ^ 64 + l.toNat

/-- The operand of idiv. Its register has been written before when it is rax or rdx. -/
def divisor (right : RegName) (l r : BitVec 64) : BitVec 64 :=
  if right = .rax then l else if right = .rdx then highHalf l else r

/-- The quotient is one that idiv can leave. -/
structure Divides (a b : Int) : Prop where
  nonzero : b ≠ 0
  above : -2 ^ 63 ≤ a.tdiv b
  below_ : a.tdiv b < 2 ^ 63

namespace State

theorem idiv_of_divides {σ : State} {d : BitVec 64} {a : Int}
    (number : (σ.reg .rdx).toInt * 2 ^ 64 + (σ.reg .rax).toNat = a) (divides : Divides a d.toInt) :
    σ.idiv d = some (((σ.setReg .rax (BitVec.ofInt 64 (a.tdiv d.toInt))).setReg .rdx
      (BitVec.ofInt 64 (a.tmod d.toInt))).setFlags none) := by
  have nonzero : d ≠ 0 := by
    intro zero
    apply divides.nonzero
    rw [zero]
    rfl
  have above := divides.above
  have under := divides.below_
  unfold idiv
  rw [number, if_neg]
  rintro (zero | less | more)
  · exact nonzero zero
  · omega
  · omega

theorem idiv_eq_none {σ : State} {d : BitVec 64} {a : Int}
    (number : (σ.reg .rdx).toInt * 2 ^ 64 + (σ.reg .rax).toNat = a)
    (faults : ¬ Divides a d.toInt) : σ.idiv d = none := by
  unfold idiv
  rw [number, if_pos]
  by_contra fits
  rw [not_or, not_or] at fits
  apply faults
  constructor
  · intro zero
    exact fits.1 (BitVec.eq_of_toInt_eq zero)
  · omega
  · omega

end State

/-! ## Running the lines -/

def beforeIdiv (left : RegName) (σ : State) : State :=
  (((σ.push (σ.reg .rdx)).push (σ.reg .rax)).setReg .rax (σ.reg left)).setReg .rdx
    (highHalf (σ.reg left))

section

variable {left right : RegName} {i j : Fin numRegs} (env : Env) (σ : State)

theorem beforeIdiv_reg {x : RegName} (notRsp : x ≠ .rsp) :
    (beforeIdiv left σ).reg x = divisor x (σ.reg left) (σ.reg x) := by
  unfold divisor
  split
  next same =>
    subst same
    rfl
  next notRax =>
    split
    next same =>
      subst same
      exact State.setReg_reg_self ..
    next notRdx =>
      rw [beforeIdiv, State.setReg_reg_of_ne _ _ notRdx, State.setReg_reg_of_ne _ _ notRax]
      rw [State.push, State.setMem_reg, State.setReg_reg_of_ne _ _ notRsp]
      rw [State.push, State.setMem_reg, State.setReg_reg_of_ne _ _ notRsp]

theorem beforeIdiv_rsp : (beforeIdiv left σ).reg .rsp = below (σ.reg .rsp) 1 :=
  below_below (σ.reg .rsp) 0 0

theorem beforeIdiv_rax : readWord (beforeIdiv left σ).mem (below (σ.reg .rsp) 1) = σ.reg .rax := by
  have top : below (below (σ.reg .rsp) 0) 0 = below (σ.reg .rsp) 1 := below_below _ 0 0
  change readWord (writeWord _ (below (below (σ.reg .rsp) 0) 0) (σ.reg .rax)) _ = _
  rw [top, readWord_writeWord]

theorem beforeIdiv_rdx : readWord (beforeIdiv left σ).mem (below (σ.reg .rsp) 0) = σ.reg .rdx := by
  have top : below (below (σ.reg .rsp) 0) 0 = below (σ.reg .rsp) 1 := below_below _ 0 0
  change readWord (writeWord (writeWord σ.mem (below (σ.reg .rsp) 0) (σ.reg .rdx))
    (below (below (σ.reg .rsp) 0) 0) (σ.reg .rax)) _ = _
  rw [top, readWord_writeWord_apart _ _ (below_apart _ (by omega) (by omega)),
    readWord_writeWord]

theorem runBlock_divCode (result : RegName) (named : left ≠ .blank) (named' : right ≠ .blank)
    (notRsp : left ≠ .rsp) (written : result ≠ .blank) :
    runBlock env (divCode left right result) σ =
      ((beforeIdiv left σ).idiv ((beforeIdiv left σ).reg right)).map fun τ =>
        ((τ.setReg left (τ.reg result)).pop .rax).pop .rdx := by
  have one : runBlock env [.push .rdx, .push .rax, .mov .rax left, .cdq] σ =
      some (beforeIdiv left σ) := by
    have left_reg : ((σ.push (σ.reg .rdx)).push (σ.reg .rax)).reg left = σ.reg left := by
      rw [State.push, State.setMem_reg, State.setReg_reg_of_ne _ _ notRsp]
      rw [State.push, State.setMem_reg, State.setReg_reg_of_ne _ _ notRsp]
    have moved : exec env (.mov .rax left) ((σ.push (σ.reg .rdx)).push (σ.reg .rax)) =
        some (((σ.push (σ.reg .rdx)).push (σ.reg .rax)).setReg .rax (σ.reg left)) := by
      rw [exec_of_named (by simp [Insn.operands, named.symm]), execNamed, left_reg]
    have saved : exec env (.push .rax) (σ.push (σ.reg .rdx)) =
        some ((σ.push (σ.reg .rdx)).push (σ.reg .rax)) := rfl
    have extended : exec env .cdq (((σ.push (σ.reg .rdx)).push (σ.reg .rax)).setReg .rax
        (σ.reg left)) = some (beforeIdiv left σ) := by
      rw [exec_of_named (by simp [Insn.operands]), execNamed, State.setReg_reg_self]
      rfl
    exact runBlock_cons_some rfl (runBlock_cons_some saved (runBlock_cons_some moved
      (runBlock_one extended)))
  have split_ : divCode left right result = [.push .rdx, .push .rax, .mov .rax left, .cdq] ++
      ([.idiv right] ++ [.mov left result, .pop .rax, .pop .rdx]) := rfl
  rw [split_, runBlock_append, one, Option.bind_some, runBlock_append, runBlock_cons,
    exec_of_named (by simp [Insn.operands, named'.symm]), execNamed]
  cases (beforeIdiv left σ).idiv ((beforeIdiv left σ).reg right) with
  | none => rfl
  | some τ =>
    have moved : exec env (.mov left result) τ = some (τ.setReg left (τ.reg result)) := by
      rw [exec_of_named (by simp [Insn.operands, named.symm, written.symm])]
      rfl
    have popped : runBlock env [.pop .rax, .pop .rdx] (τ.setReg left (τ.reg result)) =
        some (((τ.setReg left (τ.reg result)).pop .rax).pop .rdx) :=
      runBlock_cons_some rfl (runBlock_one rfl)
    rw [Option.bind_some, runBlock_nil, Option.bind_some, Option.map_some]
    exact runBlock_cons_some moved popped

end

/-! ## What idiv divides -/

theorem highHalf_toInt (l : BitVec 64) :
    (highHalf l).toInt = if (l.setWidth 32).msb then 2 ^ 32 - 1 else 0 := by
  unfold highHalf
  cases (l.setWidth 32).msb <;> rfl

theorem dividend_nonneg (l : BitVec 64) : 0 ≤ dividend l := by
  unfold dividend
  rw [highHalf_toInt]
  split <;> omega

theorem dividend_eq {l : BitVec 64} (nonneg : 0 ≤ l.toInt) (clear : (l.setWidth 32).msb = false) :
    dividend l = l.toInt := by
  -- the dividend is the left operand when that is nonnegative with bit 31 clear
  have unsigned := BitVec.toInt_eq_toNat_cond l
  unfold dividend
  rw [highHalf_toInt, clear, if_neg Bool.false_ne_true]
  omega

theorem dividend_large {l : BitVec 64} (other : ¬ (0 ≤ l.toInt ∧ (l.setWidth 32).msb = false)) :
    2 ^ 63 ≤ dividend l ∧ (0 ≤ l.toInt → (2 ^ 32 - 1) * 2 ^ 64 ≤ dividend l) := by
  -- otherwise it is at least 2^63, and at least (2^32 - 1) * 2^64 when bit 31 is set
  have unsigned := BitVec.toInt_eq_toNat_cond l
  have small := l.isLt
  unfold dividend
  rw [highHalf_toInt]
  cases bit : (l.setWidth 32).msb with
  | true =>
    rw [if_pos rfl]
    omega
  | false =>
    rw [bit] at other
    have negative : ¬ 0 ≤ l.toInt := fun nonneg => other ⟨nonneg, rfl⟩
    rw [if_neg Bool.false_ne_true]
    omega

-- With rdx as the divisor the quotient never fits: it is a division by 0, or of at least (2^32 -
-- 1) * 2^64 by 2^32 - 1.
theorem not_divides_highHalf (l : BitVec 64) : ¬ Divides (dividend l) (highHalf l).toInt := by
  intro divides
  have nonzero := divides.nonzero
  have fits := divides.below_
  unfold dividend at fits
  rw [highHalf_toInt] at nonzero fits
  cases bit : (l.setWidth 32).msb with
  | false =>
    rw [bit] at nonzero
    exact nonzero rfl
  | true =>
    rw [bit, if_pos rfl] at fits
    have quotient : ((2 ^ 32 - 1) * 2 ^ 64 + (l.toNat : Int)).tdiv (2 ^ 32 - 1) =
        ((2 ^ 32 - 1) * 2 ^ 64 + (l.toNat : Int)) / (2 ^ 32 - 1) :=
      Int.tdiv_eq_ediv_of_nonneg (by omega)
    rw [quotient] at fits
    omega

/-! ## When the result is right -/

theorem Divides.range {a b : Int} (divides : Divides a b) (small : -2 ^ 63 ≤ b ∧ b < 2 ^ 63)
    (op : Token) : -2 ^ 63 ≤ op.divide a b ∧ op.divide a b < 2 ^ 63 := by
  unfold Token.divide
  split
  · have less : (a.tmod b).natAbs < b.natAbs := by
      rw [Int.natAbs_tmod]
      exact Nat.mod_lt _ (Int.natAbs_pos.mpr divides.nonzero)
    omega
  · exact ⟨divides.above, divides.below_⟩

theorem word_range (l : BitVec 64) : -2 ^ 63 ≤ l.toInt ∧ l.toInt < 2 ^ 63 :=
  ⟨l.le_toInt, BitVec.toInt_lt⟩

theorem divides_of_words {l r : BitVec 64} (nonzero : r ≠ 0)
    (noOverflow : ¬ (l.toInt = -2 ^ 63 ∧ r.toInt = -1)) : Divides l.toInt r.toInt := by
  have range := word_range l
  have shrinks := Int.natAbs_tdiv_le_natAbs l.toInt r.toInt
  have nonzero' : r.toInt ≠ 0 := fun zero => nonzero (BitVec.eq_of_toInt_eq zero)
  constructor
  · exact nonzero'
  · omega
  -- only the division of -2^63 by 1 or -1 leaves a quotient of that size
  · by_cases unit : r.toInt.natAbs = 1
    · rcases Int.natAbs_eq r.toInt with same | same
      · rw [same, unit, Nat.cast_one, Int.tdiv_one]
        omega
      · rw [unit, Nat.cast_one] at same
        rw [same, Int.tdiv_neg, Int.tdiv_one]
        omega
    · have halves : (l.toInt.tdiv r.toInt).natAbs ≤ l.toInt.natAbs / 2 := by
        rw [Int.natAbs_tdiv]
        exact Nat.div_le_div_left (by omega) (by decide)
      omega

/-- The lines of a division leave the result in the register of the left operand, and change no
other register. -/
def DivisionRight (env : Env) (op : Token) (left right : RegName) (σ : State) : Prop :=
  ∃ lines τ, binCode op left right = .ok lines ∧ runBlock env lines σ = some τ ∧
    τ.reg left = BitVec.ofInt 64 (op.divide (σ.reg left).toInt (σ.reg right).toInt) ∧
    ∀ x, x ≠ left → τ.reg x = σ.reg x

/-- When they do. The divisor must not be in rdx. A left operand in rax or rdx is restored over
the result. With the divisor in rax the left operand is divided by itself. Otherwise a quotient
is right when the left operand is nonnegative with bit 31 clear, and a remainder also when what
cdq adds to the dividend is a multiple of the divisor. -/
def DivisionSafe (op : Token) (left right : RegName) (l r : BitVec 64) : Prop :=
  if right = .rdx then False
  else if left = .rax ∨ left = .rdx then
    Divides (dividend l) (divisor right l r).toInt ∧ op.divide l.toInt r.toInt = l.toInt
  else if right = .rax then
    Divides (dividend l) l.toInt ∧ op.divide (dividend l) l.toInt = op.divide l.toInt r.toInt
  else if op = .mod then
    Divides (dividend l) r.toInt ∧ r.toInt ∣ dividend l - l.toInt ∧
      (0 ≤ l.toInt ∨ r.toInt ∣ l.toInt)
  else 0 ≤ l.toInt ∧ (l.setWidth 32).msb = false

theorem tdiv_dividend_iff {l r : BitVec 64} (nonzero : r ≠ 0) :
    (Divides (dividend l) r.toInt ∧ (dividend l).tdiv r.toInt = l.toInt.tdiv r.toInt) ↔
      0 ≤ l.toInt ∧ (l.setWidth 32).msb = false := by
  have range := word_range l
  have range' := word_range r
  constructor
  · rintro ⟨divides, same⟩
    by_contra other
    have large := dividend_large other
    have positive : 0 < r.toInt.natAbs := Int.natAbs_pos.mpr divides.nonzero
    have sizes := congrArg Int.natAbs same
    rw [Int.natAbs_tdiv, Int.natAbs_tdiv] at sizes
    by_cases nonneg : 0 ≤ l.toInt
    -- a dividend this large has a larger quotient
    · have more : l.toInt.natAbs + r.toInt.natAbs ≤ (dividend l).natAbs := by
        have := large.2 nonneg
        omega
      have grows := Nat.div_le_div_right (c := r.toInt.natAbs) more
      rw [Nat.add_div_right _ positive] at grows
      change (dividend l).natAbs / r.toInt.natAbs = l.toInt.natAbs / r.toInt.natAbs at sizes
      omega
    -- the quotients have different signs, and the one of the dividend is not 0
    · have one : 1 ≤ (dividend l).natAbs / r.toInt.natAbs :=
        (Nat.one_le_div_iff positive).mpr (by omega)
      rw [← Int.neg_neg l.toInt, Int.neg_tdiv] at same
      rcases Int.le_total 0 r.toInt with positive | negative
      · have := Int.tdiv_nonneg (dividend_nonneg l) positive
        have := Int.tdiv_nonneg (show 0 ≤ -l.toInt by omega) positive
        have size := Int.natAbs_tdiv (dividend l) r.toInt
        change _ = (dividend l).natAbs / r.toInt.natAbs at size
        omega
      · have := Int.tdiv_nonpos_of_nonneg_of_nonpos (dividend_nonneg l) negative
        have := Int.tdiv_nonpos_of_nonneg_of_nonpos (show 0 ≤ -l.toInt by omega) negative
        have size := Int.natAbs_tdiv (dividend l) r.toInt
        change _ = (dividend l).natAbs / r.toInt.natAbs at size
        omega
  · rintro ⟨nonneg, clear⟩
    have same := dividend_eq nonneg clear
    rw [same]
    exact ⟨divides_of_words nonzero (by omega), rfl⟩

theorem tmod_dividend_iff (l r : BitVec 64) :
    (dividend l).tmod r.toInt = l.toInt.tmod r.toInt ↔
      r.toInt ∣ dividend l - l.toInt ∧ (0 ≤ l.toInt ∨ r.toInt ∣ l.toInt) := by
  constructor
  · intro same
    constructor
    · have difference := Int.dvd_sub (Int.dvd_tmod_sub_self (x := l.toInt) (m := r.toInt))
        (Int.dvd_tmod_sub_self (x := dividend l) (m := r.toInt))
      rw [same] at difference
      rw [show dividend l - l.toInt = l.toInt.tmod r.toInt - l.toInt -
        (l.toInt.tmod r.toInt - dividend l) by omega]
      exact difference
    · rcases Int.le_total 0 l.toInt with nonneg | negative
      · exact .inl nonneg
      -- a remainder of both signs is 0
      · right
        have high := Int.tmod_nonneg r.toInt (dividend_nonneg l)
        have low := Int.tmod_nonneg r.toInt (show 0 ≤ -l.toInt by omega)
        rw [Int.neg_tmod] at low
        rw [Int.dvd_iff_tmod_eq_zero]
        omega
  · rintro ⟨difference, nonneg | multiple⟩
    · rw [Int.tmod_eq_emod_of_nonneg (dividend_nonneg l), Int.tmod_eq_emod_of_nonneg nonneg,
        Int.emod_eq_emod_iff_emod_sub_eq_zero]
      exact Int.emod_eq_zero_of_dvd difference
    · have both := (Int.dvd_iff_dvd_of_dvd_sub difference).mpr multiple
      rw [Int.dvd_iff_tmod_eq_zero.mp multiple, Int.dvd_iff_tmod_eq_zero.mp both]

theorem popped_reg {σ τ : State} (rsp : τ.reg .rsp = below (σ.reg .rsp) 1)
    (rax : readWord τ.mem (below (σ.reg .rsp) 1) = σ.reg .rax)
    (rdx : readWord τ.mem (below (σ.reg .rsp) 0) = σ.reg .rdx) (x : RegName) :
    ((τ.pop .rax).pop .rdx).reg x =
      if x = .rax ∨ x = .rdx ∨ x = .rsp then σ.reg x else τ.reg x := by
  have next : below (σ.reg .rsp) 1 + 8 = below (σ.reg .rsp) 0 := by
    unfold below
    bv_omega
  have top : (τ.pop .rax).reg .rsp = below (σ.reg .rsp) 0 := by
    rw [State.pop, State.setReg_reg_of_ne _ _ (by decide), State.setReg_reg_self, rsp, next]
  by_cases isRdx : x = .rdx
  · rw [if_pos (.inr (.inl isRdx)), isRdx, State.pop, State.setReg_reg_self, top]
    exact rdx
  rw [State.pop, State.setReg_reg_of_ne _ _ isRdx]
  by_cases isRsp : x = .rsp
  · rw [if_pos (.inr (.inr isRsp)), isRsp, State.setReg_reg_self, top]
    unfold below
    bv_omega
  rw [State.setReg_reg_of_ne _ _ isRsp]
  by_cases isRax : x = .rax
  · rw [if_pos (.inl isRax), isRax, State.pop, State.setReg_reg_self, rsp]
    exact rax
  · rw [if_neg (by simp [isRax, isRdx, isRsp]), State.pop, State.setReg_reg_of_ne _ _ isRax,
      State.setReg_reg_of_ne _ _ isRsp]

-- What a division leaves: it faults, or changes no register but that of the left operand, which
-- gets the result of what idiv divides unless it is restored afterwards.
theorem division_run (env : Env) {op : Token} (division : op.isDivision = true) (i j : Fin numRegs)
    (σ : State) :
    ∃ lines, binCode op (REGS i) (REGS j) = .ok lines ∧
      let l := σ.reg (REGS i)
      let d := (divisor (REGS j) l (σ.reg (REGS j))).toInt
      (¬ Divides (dividend l) d → runBlock env lines σ = none) ∧
      (Divides (dividend l) d → ∃ τ, runBlock env lines σ = some τ ∧
        τ.reg (REGS i) = (if REGS i = .rax ∨ REGS i = .rdx then l
          else BitVec.ofInt 64 (op.divide (dividend l) d)) ∧
        ∀ x, x ≠ REGS i → τ.reg x = σ.reg x) := by
  obtain ⟨notRsp, -, named⟩ := REGS_ne i
  obtain ⟨notRsp', -, named'⟩ := REGS_ne j
  let result : RegName := if op = .mod then .rdx else .rax
  have print : binCode op (REGS i) (REGS j) = .ok (divCode (REGS i) (REGS j) result) := by
    cases op <;> first | rfl | cases division
  refine ⟨_, print, ?_⟩
  intro l d
  have written : result ≠ .blank := by
    unfold result
    split <;> decide
  have run := runBlock_divCode env σ result named named' notRsp written
  rw [beforeIdiv_reg σ notRsp'] at run
  have number : ((beforeIdiv (REGS i) σ).reg .rdx).toInt * 2 ^ 64 +
      ((beforeIdiv (REGS i) σ).reg .rax).toNat = dividend l := by
    rw [beforeIdiv_reg σ (by decide), beforeIdiv_reg σ (by decide)]
    rfl
  constructor
  · intro faults
    rw [run, State.idiv_eq_none number faults]
    rfl
  · intro divides
    rw [State.idiv_of_divides number divides, Option.map_some] at run
    let after : State := (((beforeIdiv (REGS i) σ).setReg .rax (BitVec.ofInt 64 ((dividend l).tdiv d))).setReg
      .rdx (BitVec.ofInt 64 ((dividend l).tmod d))).setFlags none
    have value : after.reg result = BitVec.ofInt 64 (op.divide (dividend l) d) := by
      unfold result Token.divide
      split <;> rfl
    have rsp : (after.setReg (REGS i) (after.reg result)).reg .rsp = below (σ.reg .rsp) 1 := by
      rw [State.setReg_reg_of_ne _ _ notRsp.symm]
      exact @beforeIdiv_rsp (REGS i) σ
    have regs := popped_reg rsp (@beforeIdiv_rax (REGS i) σ) (@beforeIdiv_rdx (REGS i) σ)
    refine ⟨_, run, ?_, ?_⟩
    · rw [regs, State.setReg_reg_self, value]
      by_cases restored : REGS i = .rax ∨ REGS i = .rdx
      · rw [if_pos restored, if_pos (restored.imp_right .inl)]
      · rw [if_neg restored, if_neg (by simpa [notRsp] using restored)]
    · intro x other
      rw [regs, State.setReg_reg_of_ne _ _ other]
      split
      next => rfl
      next outside =>
        rw [not_or, not_or] at outside
        have before : after.reg x = (beforeIdiv (REGS i) σ).reg x := by
          rw [State.setFlags_reg, State.setReg_reg_of_ne _ _ outside.2.1,
            State.setReg_reg_of_ne _ _ outside.1]
        rw [before, beforeIdiv_reg σ outside.2.2, divisor, if_neg outside.1, if_neg outside.2.1]

theorem division_right_of_result (env : Env) {op : Token} (division : op.isDivision = true)
    (i j : Fin numRegs) (σ : State) (nonzero : σ.reg (REGS j) ≠ 0)
    (noOverflow : ¬ ((σ.reg (REGS i)).toInt = -2 ^ 63 ∧ (σ.reg (REGS j)).toInt = -1)) :
    DivisionRight env op (REGS i) (REGS j) σ ↔
      Divides (dividend (σ.reg (REGS i)))
          (divisor (REGS j) (σ.reg (REGS i)) (σ.reg (REGS j))).toInt ∧
        (if REGS i = .rax ∨ REGS i = .rdx then (σ.reg (REGS i)).toInt
          else op.divide (dividend (σ.reg (REGS i)))
            (divisor (REGS j) (σ.reg (REGS i)) (σ.reg (REGS j))).toInt) =
          op.divide (σ.reg (REGS i)).toInt (σ.reg (REGS j)).toInt := by
  -- the result is right when idiv divides and the register of the left operand gets it
  obtain ⟨lines, print, faults, leaves⟩ := division_run env division i j σ
  have truth := (divides_of_words nonzero noOverflow).range (word_range _) op
  constructor
  · rintro ⟨lines', τ, print', run, value, -⟩
    rw [print, Except.ok.injEq] at print'
    subst print'
    have divides : Divides (dividend (σ.reg (REGS i)))
        (divisor (REGS j) (σ.reg (REGS i)) (σ.reg (REGS j))).toInt := by
      by_contra other
      rw [faults other] at run
      cases run
    obtain ⟨τ', run', value', -⟩ := leaves divides
    rw [run', Option.some.injEq] at run
    rw [← run, value'] at value
    refine ⟨divides, ?_⟩
    split at value
    next restored =>
      rw [if_pos restored, ← ofInt_injective (word_range _) truth, BitVec.ofInt_toInt]
      exact value
    next kept =>
      rw [if_neg kept, ← ofInt_injective (divides.range (word_range _) op) truth]
      exact value
  · rintro ⟨divides, same⟩
    obtain ⟨τ, run, value, others⟩ := leaves divides
    refine ⟨lines, τ, print, run, ?_, others⟩
    rw [value, ← same]
    by_cases restored : REGS i = .rax ∨ REGS i = .rdx
    · rw [if_pos restored, if_pos restored, BitVec.ofInt_toInt]
    · rw [if_neg restored, if_neg restored]

theorem division_right_iff (env : Env) (op : Token) (i j : Fin numRegs) (σ : State)
    (division : op.isDivision = true) (apart : i ≠ j) (nonzero : σ.reg (REGS j) ≠ 0)
    (noOverflow : ¬ ((σ.reg (REGS i)).toInt = -2 ^ 63 ∧ (σ.reg (REGS j)).toInt = -1)) :
    DivisionRight env op (REGS i) (REGS j) σ ↔
      DivisionSafe op (REGS i) (REGS j) (σ.reg (REGS i)) (σ.reg (REGS j)) := by
  rw [division_right_of_result env division i j σ nonzero noOverflow]
  have differ : REGS i ≠ REGS j := fun same => apart (REGS_injective same)
  generalize σ.reg (REGS i) = l at nonzero noOverflow ⊢
  generalize σ.reg (REGS j) = r at nonzero noOverflow ⊢
  unfold DivisionSafe
  by_cases isRdx : REGS j = .rdx
  · rw [if_pos isRdx, isRdx]
    exact iff_of_false (fun both => not_divides_highHalf l both.1) id
  rw [if_neg isRdx]
  by_cases restored : REGS i = .rax ∨ REGS i = .rdx
  · rw [if_pos restored, if_pos restored, eq_comm]
  rw [if_neg restored, if_neg restored, divisor, if_neg isRdx]
  by_cases isRax : REGS j = .rax
  · rw [if_pos isRax, if_pos isRax]
  rw [if_neg isRax, if_neg isRax]
  unfold Token.divide
  by_cases isMod : op = .mod
  · rw [if_pos isMod, if_pos isMod, if_pos isMod, tmod_dividend_iff]
  · rw [if_neg isMod, if_neg isMod, if_neg isMod, tdiv_dividend_iff nonzero]

-- Small positive operands in the first two registers.
theorem seven_by_two_right :
    DivisionRight noCalls .mod .rbx .rcx ⟨fun r => if r = .rbx then 7 else 2, fun _ => 0, none⟩ := by
  let σ : State := ⟨fun r => if r = .rbx then 7 else 2, fun _ => 0, none⟩
  apply (division_right_iff noCalls .mod 0 1 σ rfl (by decide) (by decide) (by decide)).mpr
  have divides : Divides (dividend 7) (2#64).toInt := ⟨by decide, by decide, by decide⟩
  exact ⟨divides, by decide, .inl (by decide)⟩

-- The quotient of -7 by 2 faults: idiv divides a number of 96 bits.
theorem not_forall_divisionRight : ¬ ∀ (env : Env) (op : Token) (i j : Fin numRegs) (σ : State),
    op.isDivision = true → i ≠ j → σ.reg (REGS j) ≠ 0 →
    ¬ ((σ.reg (REGS i)).toInt = -2 ^ 63 ∧ (σ.reg (REGS j)).toInt = -1) →
    DivisionRight env op (REGS i) (REGS j) σ := by
  intro claim
  let σ : State := ⟨fun r => if r = .rbx then -7 else 2, fun _ => 0, none⟩
  have right := claim noCalls .div 0 1 σ rfl (by decide) (by decide) (by decide)
  have divides : Divides (dividend (-7#64)) (divisor .rcx (-7#64) 2).toInt :=
    ((division_right_of_result noCalls rfl 0 1 σ (by decide) (by decide)).mp right).1
  have small := divides.below_
  revert small
  decide

end Dragon
