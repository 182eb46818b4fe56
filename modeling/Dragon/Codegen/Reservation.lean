import Dragon.Codegen.Captures
import Dragon.Codegen.Stores

/-! The storage of the display.

The header defines it before a slot is given out. `db` defines one byte whatever
its operand is; were the operand the number of bytes, there would be room for one
slot.
-/

set_option autoImplicit false

namespace Dragon

open Analysis Stab

/-- The bytes of the line with the label display@, as a function of the operand of its db. -/
def displayStorage (bytes : Int → Int) : List Insn → Int
  | [] => 0
  | .reserve operand :: _ => bytes operand
  | _ :: code => displayStorage bytes code

/-- `db n` defines one byte with the value n. -/
def dbBytes (_operand : Int) : Int := 1

def DisplayFits (storage : Int) (code : List Insn) : Prop :=
  ∀ d ∈ displayed code, 0 ≤ d ∧ d + abiPointerSize ≤ storage

theorem displayStorage_of_accepted {prog : AstProgram} {acx : Acx} {code : List Insn}
    (accepted : analyze prog = .ok (acx, code)) (bytes : Int → Int) :
    displayStorage bytes code = bytes 8 := by
  obtain ⟨off, acx₁, inner, opening, nested, main, opened, -, -, rfl⟩ := analyze_parts accepted
  simp only [openProgram, emit_bind_eq_ok] at opened
  obtain ⟨rest, -, rfl⟩ := opened
  rfl

theorem Moment.displayed_of_nonlocal {m : Moment} (settles : m.Settles) {later : Stab}
    (stays : SlotsStay m later) {i : Index} (use : m.nonlocal = some i) :
    ∃ v, stabVar later i = some v ∧ v.captured = true ∧
      v.dispOffset * abiPointerSize ∈ m.displayed := by
  obtain ⟨v₀, found₀⟩ := settles.used i use
  obtain ⟨call, acx⟩ := m
  cases call with
  | address name reg =>
    simp only [Moment.nonlocal] at use
    split at use
    next nonlocal =>
      cases use
      obtain ⟨w, acx', code, run⟩ := pathAddress_accepted name reg found₀
      obtain ⟨v, found, captured, rfl⟩ := stays.loads name reg w acx' code rfl nonlocal run
      refine ⟨v, found, captured, ?_⟩
      simp only [Moment.displayed, Analysis.displayed, run]
      exact List.mem_singleton_self _
    next => cases use
  | _ => cases use

section

variable {prog : AstProgram} {acx : Acx} {code : List Insn}

theorem captured_iff (accepted : analyze prog = .ok (acx, code)) {i : Int} :
    (∃ v, stabVar acx.st i = some v ∧ v.captured = true) ↔ ∃ m ∈ prog.trace, m.nonlocal = some i := by
  have ends := ends_of_accepted accepted
  have follows := @follows_program prog initialAcx sound_stabNew
  constructor
  · rintro ⟨v, found, captured⟩
    rcases ends.captures i v found captured with before | use
    · -- the first table has no variables
      have bounds := arenaGet_lt before
      have empty : initialAcx.table.1.vars.length = 0 := rfl
      omega
    · exact use
  · rintro ⟨m, member, use⟩
    have stays := slotsStay_of_steps (follows.settled m member) (ends.kept m member)
    obtain ⟨v, found, captured, -⟩ := Moment.displayed_of_nonlocal (follows.settled m member) stays use
    exact ⟨v, found, captured⟩

theorem mem_displayed_iff (accepted : analyze prog = .ok (acx, code)) {d : Int} :
    d ∈ displayed code ↔ ∃ i v, stabVar acx.st i = some v ∧ v.captured = true ∧
      d = v.dispOffset * abiPointerSize := by
  have ends := ends_of_accepted accepted
  have follows := @follows_program prog initialAcx sound_stabNew
  rw [ends.printed, List.mem_flatMap]
  constructor
  · rintro ⟨m, member, named⟩
    exact (slotsStay_of_steps (follows.settled m member) (ends.kept m member)).names d named
  · rintro ⟨i, v, found, captured, rfl⟩
    obtain ⟨m, member, use⟩ := (captured_iff accepted).mp ⟨v, found, captured⟩
    have stays := slotsStay_of_steps (follows.settled m member) (ends.kept m member)
    obtain ⟨w, found', -, named⟩ := Moment.displayed_of_nonlocal (follows.settled m member) stays use
    cases found.symm.trans found'
    exact ⟨m, member, named⟩

end

/-- How many variables are used from outside their scope decides whether the storage is enough. -/
theorem display_fits_iff (prog : AstProgram) (acx : Acx) (code : List Insn)
    (accepted : analyze prog = .ok (acx, code)) :
    (DisplayFits (displayStorage dbBytes code) code ↔ ∀ m ∈ prog.trace, m.nonlocal = none) ∧
    (DisplayFits (displayStorage id code) code ↔ ∀ m ∈ prog.trace, ∀ n ∈ prog.trace, ∀ i j,
      m.nonlocal = some i → n.nonlocal = some j → i = j) := by
  have steps := (ends_of_accepted accepted).steps
  have slotted : Slotted acx.table := steps.slotted slotted_stabNew
  have every := @mem_displayed_iff prog acx code accepted
  constructor
  · rw [displayStorage_of_accepted accepted]
    constructor
    · intro fits m member
      cases use : m.nonlocal with
      | none => rfl
      | some i =>
        obtain ⟨v, found, captured⟩ := (captured_iff accepted).mpr ⟨m, member, use⟩
        have room := (fits _ (every.mpr ⟨i, v, found, captured, rfl⟩))
        unfold dbBytes abiPointerSize at room
        omega
    · intro unused d named
      obtain ⟨i, v, found, captured, -⟩ := every.mp named
      obtain ⟨m, member, use⟩ := (captured_iff accepted).mp ⟨v, found, captured⟩
      rw [unused m member] at use
      cases use
  · rw [displayStorage_of_accepted accepted]
    constructor
    · intro fits m one n two i j use use'
      obtain ⟨v, found, captured⟩ := (captured_iff accepted).mpr ⟨m, one, use⟩
      obtain ⟨w, found', captured'⟩ := (captured_iff accepted).mpr ⟨n, two, use'⟩
      have room := fits _ (every.mpr ⟨i, v, found, captured, rfl⟩)
      have room' := fits _ (every.mpr ⟨j, w, found', captured', rfl⟩)
      apply slotted.distinct i j v w found found' captured captured'
      unfold abiPointerSize at room room'
      simp only [id_eq] at room room'
      omega
    · intro single d named
      obtain ⟨i, v, found, captured, rfl⟩ := every.mp named
      obtain ⟨m, one, use⟩ := (captured_iff accepted).mp ⟨v, found, captured⟩
      have bounds := slotted.bounded i v found captured
      -- every slot below this one belongs to a variable too, which is this one
      have zero : v.dispOffset = 0 := by
        by_contra other
        obtain ⟨j, w, found', captured', slot⟩ := steps.onto (Int.le_refl 0)
          (Int.lt_of_le_of_lt bounds.1 bounds.2)
        obtain ⟨n, two, use'⟩ := (captured_iff accepted).mp ⟨w, found', captured'⟩
        obtain rfl := single m one n two i j use use'
        cases found.symm.trans found'
        exact other slot
      rw [zero]
      decide

theorem sharedGlobal_display_fits : ∃ acx code, analyze sharedGlobal = .ok (acx, code) ∧
    DisplayFits (displayStorage id code) code ∧ ¬ DisplayFits (displayStorage dbBytes code) code := by
  have uses : sharedGlobal.trace.filterMap Moment.nonlocal = [0] := by
    decide +kernel
  obtain ⟨acx, code, result⟩ := sharedGlobal_accepted
  have fits := display_fits_iff sharedGlobal acx code result
  have only : ∀ m ∈ sharedGlobal.trace, ∀ i, m.nonlocal = some i → i = 0 := by
    intro m member i use
    have inside : i ∈ sharedGlobal.trace.filterMap Moment.nonlocal :=
      List.mem_filterMap.mpr ⟨m, member, use⟩
    rw [uses] at inside
    exact List.mem_singleton.mp inside
  refine ⟨acx, code, result, ?_, ?_⟩
  · apply fits.2.mpr
    intro m one n two i j use use'
    rw [only m one i use, only n two j use']
  · intro fit
    have none_ := fits.1.mp fit
    have inside : (0 : Index) ∈ sharedGlobal.trace.filterMap Moment.nonlocal := by
      rw [uses]
      exact List.mem_singleton_self _
    obtain ⟨m, member, use⟩ := List.mem_filterMap.mp inside
    rw [none_ m member] at use
    cases use

-- var x, y: integer; procedure q; begin x := y end; begin q end.
def sharedGlobals : AstProgram where
  args := []
  decls := [⟨["x", "y"], .integer⟩]
  subprogs := [.mk ⟨.procedure, [], none⟩ "q" [] [] []
    (.assign (.path (astPath "x")) (.path (astPath "y")))]
  types := []
  body := .stmts [.proc (astPath "q") []]

-- Two variables have no room, whatever is taken for the number of bytes.
theorem not_forall_display_fits :
    (¬ ∀ (prog : AstProgram) (acx : Acx) (code : List Insn), analyze prog = .ok (acx, code) →
      DisplayFits (displayStorage dbBytes code) code) ∧
    ¬ ∀ (prog : AstProgram) (acx : Acx) (code : List Insn), analyze prog = .ok (acx, code) →
      DisplayFits (displayStorage id code) code := by
  have words : (analyze sharedGlobals).toOption.map (fun r =>
      (displayStorage dbBytes r.2, displayStorage id r.2, decide (8 ∈ displayed r.2))) =
        some (1, 8, true) := by
    decide +kernel
  cases result : analyze sharedGlobals with
  | error s =>
    rw [result] at words
    cases words
  | ok r =>
    obtain ⟨acx, code⟩ := r
    simp only [result, Except.toOption, Option.map_some, Option.some.injEq, Prod.mk.injEq,
      decide_eq_true_eq] at words
    obtain ⟨bytes, operand, named⟩ := words
    constructor
    · intro all
      have room := (all sharedGlobals acx code result 8 named).2
      rw [bytes] at room
      cases room
    · intro all
      have room := (all sharedGlobals acx code result 8 named).2
      rw [operand] at room
      cases room

end Dragon
