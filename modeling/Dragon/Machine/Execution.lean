import Dragon.Machine.State
import Dragon.Library.Structured

/-! The output as a program: positions, labels and jumps.

A local label is looked for between the non-local label before the jump and the
next one, as NASM attaches it. The assembler rejects a second label of the same
name there; here the first one counts. A call is one step, from the call
instruction to the return.
-/

set_option autoImplicit false

namespace Dragon

open PartialStep StructuredCode

def isBoundary : Insn → Bool
  | .label l => !l.isLocal
  | _ => false

/-- The number of non-local labels up to a position. -/
def region (code : List Insn) (p : Nat) : Nat := (code.take (p + 1)).countP isBoundary

def resolveLabel (code : List Insn) (p : Nat) (l : Label) : Option Nat :=
  (List.range code.length).find? fun i =>
    decide (code[i]? = some (.label l)) && (!l.isLocal || region code i == region code p)

def step (env : Env) (code : List Insn) (c : Nat × State) : Option (Nat × State) :=
  match code[c.1]? with
  | none => none
  | some (.jmp l) => (resolveLabel code c.1 l).map fun p => (p, c.2)
  | some (.jcc cc l) =>
      c.2.flags.bind fun f =>
        if cc.holds f then (resolveLabel code c.1 l).map fun p => (p, c.2) else some (c.1 + 1, c.2)
  | some i => (exec env i c.2).map fun σ => (c.1 + 1, σ)

theorem step_of_exec {env : Env} {code : List Insn} {p : Nat} {i : Insn} {σ τ : State}
    (at_ : code[p]? = some i) (next : exec env i σ = some τ) :
    step env code (p, σ) = some (p + 1, τ) := by
  unfold step
  cases i <;> simp only [at_, next, Option.map_some]
  all_goals
    simp only [exec, execNamed] at next
    split at next <;> cases next

theorem step_jmp {env : Env} {code : List Insn} {p q : Nat} {l : Label} {σ : State}
    (at_ : code[p]? = some (.jmp l)) (label : resolveLabel code p l = some q) :
    step env code (p, σ) = some (q, σ) := by
  simp only [step, at_, label, Option.map_some]

theorem step_jcc {env : Env} {code : List Insn} {p q : Nat} {cc : Cond} {l : Label} {σ : State}
    {f : Flags} (at_ : code[p]? = some (.jcc cc l)) (label : resolveLabel code p l = some q)
    (flags : σ.flags = some f) :
    step env code (p, σ) = some (if cc.holds f then q else p + 1, σ) := by
  simp only [step, at_, label, flags, Option.bind_some, Option.map_some]
  split <;> rfl

/-! ## Code at a position -/

def Located (code : List Insn) (p : Nat) (block : List Insn) : Prop := block <+: code.drop p

theorem Located.left {code first second : List Insn} {p : Nat}
    (located : Located code p (first ++ second)) : Located code p first :=
  (List.prefix_append first second).trans located

theorem Located.right {code first second : List Insn} {p : Nat}
    (located : Located code p (first ++ second)) : Located code (p + first.length) second := by
  obtain ⟨rest, split⟩ := located
  refine ⟨rest, ?_⟩
  rw [← List.drop_drop, ← split, List.append_assoc, List.drop_left]

theorem Located.head {code block : List Insn} {i : Insn} {p : Nat}
    (located : Located code p (i :: block)) : code[p]? = some i := by
  obtain ⟨rest, split⟩ := located
  have first := congrArg List.head? split
  rw [List.head?_drop] at first
  exact first.symm

theorem Located.tail {code block : List Insn} {i : Insn} {p : Nat}
    (located : Located code p (i :: block)) : Located code (p + 1) block :=
  @Located.right code [i] block p located

theorem Located.leads {env : Env} {code block : List Insn} {p exit : Nat} {σ τ : State}
    (located : Located code p block) (run : runBlock env block σ = some τ)
    (inside : p + block.length ≤ exit) :
    Leads (step env code) (Inside exit) block.length (p, σ) (p + block.length, τ) := by
  induction block generalizing p σ with
  | nil =>
    cases run
    exact Leads.refl _
  | cons i block ih =>
    rw [List.length_cons] at inside ⊢
    rw [runBlock_cons] at run
    obtain ⟨υ, next, rest⟩ := Option.bind_eq_some_iff.mp run
    have within : Inside exit (p, σ) := Nat.lt_of_lt_of_le (by omega) inside
    refine ⟨within, _, step_of_exec located.head next, ?_⟩
    have later := ih located.tail rest (by omega)
    rwa [Nat.add_assoc, Nat.add_comm 1] at later

/-! ## Labels -/

def labelsOf (code : List Insn) : List Label :=
  code.filterMap fun
    | .label l => some l
    | _ => none

@[simp] theorem labelsOf_append (first second : List Insn) :
    labelsOf (first ++ second) = labelsOf first ++ labelsOf second := List.filterMap_append ..

theorem mem_labelsOf {code : List Insn} {l : Label} : l ∈ labelsOf code ↔ Insn.label l ∈ code := by
  unfold labelsOf
  rw [List.mem_filterMap]
  constructor
  · rintro ⟨i, member, here⟩
    cases i <;> cases here
    exact member
  · intro member
    exact ⟨_, member, rfl⟩

theorem label_unique {code : List Insn} (nodup : (labelsOf code).Nodup) {l : Label} {p q : Nat}
    (here : code[p]? = some (.label l)) (there : code[q]? = some (.label l)) : p = q := by
  induction code generalizing p q with
  | nil => simp at here
  | cons i code ih =>
    have later : (labelsOf code).Nodup := by
      refine List.Nodup.sublist ?_ nodup
      exact (List.sublist_cons_self i code).filterMap _
    have fresh : ∀ k : Nat, code[k]? = some (Insn.label l) → i ≠ Insn.label l := by
      rintro k found rfl
      have member := mem_labelsOf.mpr (List.mem_of_getElem? found)
      exact (List.nodup_cons.mp nodup).1 member
    cases p with
    | zero =>
      cases q with
      | zero => rfl
      | succ q => exact absurd (Option.some.inj here) (fresh q there)
    | succ p =>
      cases q with
      | zero => exact absurd (Option.some.inj there) (fresh p here)
      | succ q => exact congrArg (· + 1) (ih later here there)

theorem resolveLabel_of_unique {code : List Insn} (nodup : (labelsOf code).Nodup) {l : Label}
    {p q : Nat} (here : code[q]? = some (.label l)) (same : region code q = region code p) :
    resolveLabel code p l = some q := by
  unfold resolveLabel
  have isSome : ((List.range code.length).find? fun i =>
      decide (code[i]? = some (.label l)) && (!l.isLocal || region code i == region code p)).isSome := by
    rw [List.find?_isSome]
    refine ⟨q, List.mem_range.mpr (List.getElem?_eq_some_iff.mp here).1, ?_⟩
    simp [here, same]
  obtain ⟨r, found⟩ := Option.isSome_iff_exists.mp isSome
  have there := List.find?_some found
  simp only [Bool.and_eq_true, decide_eq_true_eq] at there
  rw [found, label_unique nodup there.1 here]

theorem region_mono (code : List Insn) {p q : Nat} (le : p ≤ q) : region code p ≤ region code q :=
  (List.take_sublist_take_left (Nat.add_le_add_right le 1)).countP_le

theorem region_succ {code : List Insn} {p : Nat} {i : Insn} (here : code[p + 1]? = some i)
    (none_ : isBoundary i = false) : region code (p + 1) = region code p := by
  unfold region
  rw [List.take_add_one, here, List.countP_append, Option.toList_some, List.countP_singleton, none_]
  rfl

theorem region_lt {code : List Insn} {k p q : Nat} {l : Label} (boundary : code[k]? = some (.label l))
    (notLocal : l.isLocal = false) (before : q < k) (from_ : k ≤ p) :
    region code q < region code p := by
  have here : region code k = (code.take k).countP isBoundary + 1 := by
    unfold region
    have true_ : isBoundary (.label l) = true := by simp [isBoundary, notLocal]
    rw [List.take_add_one, boundary, List.countP_append, Option.toList_some, List.countP_singleton,
      true_, if_pos rfl]
  have below : region code q ≤ (code.take k).countP isBoundary :=
    (List.take_sublist_take_left before).countP_le
  have above := region_mono code from_
  omega

-- A jump to a local label stays behind the non-local label before it, and goes no further than
-- any label of that name in its region.
theorem resolveLabel_between {code : List Insn} {k j p q : Nat} {b l : Label}
    (boundary : code[k]? = some (.label b)) (notLocal : b.isLocal = false) (isLocal : l.isLocal = true)
    (from_ : k ≤ p) (here : code[j]? = some (.label l)) (same : region code j = region code p)
    (found : resolveLabel code p l = some q) : k < q ∧ q ≤ j := by
  unfold resolveLabel at found
  rw [List.find?_range_eq_some] at found
  obtain ⟨matches_, -, least⟩ := found
  simp only [Bool.and_eq_true, decide_eq_true_eq, isLocal, Bool.not_true, Bool.false_or,
    beq_iff_eq] at matches_
  constructor
  · apply Nat.lt_of_not_le
    intro le
    rcases Nat.lt_or_eq_of_le le with less | rfl
    · exact absurd matches_.2 (Nat.ne_of_lt (region_lt boundary notLocal less from_))
    · have labels := boundary.symm.trans matches_.1
      cases labels
      rw [isLocal] at notLocal
      cases notLocal
  · apply Nat.le_of_not_lt
    intro less
    have missed := least j less
    simp [here, same] at missed

theorem region_eq {before after : List Insn} (none_ : ∀ i ∈ after, isBoundary i = false) {p : Nat}
    (le : before.length ≤ p + 1) : region (before ++ after) p = before.countP isBoundary := by
  unfold region
  rw [List.take_append, List.take_of_length_le le, List.countP_append]
  have zero : (after.take (p + 1 - before.length)).countP isBoundary = 0 := by
    rw [List.countP_eq_zero]
    intro i member
    rw [none_ i (List.mem_of_mem_take member)]
    decide
  rw [zero, Nat.add_zero]

end Dragon
