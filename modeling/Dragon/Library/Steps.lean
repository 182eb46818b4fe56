import Mathlib.Data.Nat.Notation

/-! Runs of a deterministic partial step function, counted in steps.

A run that stays inside a set of states is a prefix of every longer run that
ends outside it.
-/

set_option autoImplicit false

namespace PartialStep

variable {σ : Type}

/-- Exactly n steps; a state without a step ends no longer run. -/
def runFor (step : σ → Option σ) : Nat → σ → Option σ
  | 0, s => some s
  | n + 1, s => (step s).bind (runFor step n)

def Reaches (step : σ → Option σ) (s t : σ) : Prop := ∃ n, runFor step n s = some t

variable {step : σ → Option σ} {inside : σ → Prop}

theorem runFor_succ {n : Nat} {s t u : σ} (next : step s = some t) :
    runFor step (n + 1) s = some u ↔ runFor step n t = some u := by
  rw [runFor, next]
  exact Iff.rfl

theorem runFor_inside (closed : ∀ s t, inside s → step s = some t → inside t) {n : Nat} {s t : σ}
    (start : inside s) (run : runFor step n s = some t) : inside t := by
  induction n generalizing s with
  | zero =>
    cases run
    exact start
  | succ n ih =>
    obtain ⟨r, next, rest⟩ := Option.bind_eq_some_iff.mp run
    exact ih (closed s r start next) rest

/-- A run of n steps whose states, the last one apart, are all inside. -/
def Leads (step : σ → Option σ) (inside : σ → Prop) : Nat → σ → σ → Prop
  | 0, s, t => s = t
  | n + 1, s, u => inside s ∧ ∃ t, step s = some t ∧ Leads step inside n t u

theorem Leads.refl (s : σ) : Leads step inside 0 s s := rfl

theorem Leads.one {s t : σ} (within : inside s) (next : step s = some t) :
    Leads step inside 1 s t := ⟨within, t, next, rfl⟩

theorem Leads.trans {n k : Nat} {s t u : σ} (first : Leads step inside n s t)
    (second : Leads step inside k t u) : Leads step inside (n + k) s u := by
  induction n generalizing s with
  | zero =>
    rw [Nat.zero_add]
    exact Eq.symm first ▸ second
  | succ n ih =>
    obtain ⟨within, r, next, rest⟩ := first
    rw [Nat.add_right_comm]
    exact ⟨within, r, next, ih rest⟩

theorem Leads.runFor {n : Nat} {s t : σ} (leads : Leads step inside n s t) :
    runFor step n s = some t := by
  induction n generalizing s with
  | zero => exact congrArg some leads
  | succ n ih =>
    obtain ⟨-, r, next, rest⟩ := leads
    exact (runFor_succ next).mpr (ih rest)

theorem Leads.reaches {n : Nat} {s t : σ} (leads : Leads step inside n s t) : Reaches step s t :=
  ⟨n, leads.runFor⟩

theorem Leads.keeps {keeps : σ → σ → Prop} (same : ∀ s, keeps s s)
    (compose : ∀ s t u, keeps s t → keeps t u → keeps s u)
    (each : ∀ s t, inside s → step s = some t → keeps s t) {n : Nat} {s t : σ}
    (leads : Leads step inside n s t) : keeps s t := by
  induction n generalizing s with
  | zero => exact Eq.subst leads (same s)
  | succ n ih =>
    obtain ⟨within, r, next, rest⟩ := leads
    exact compose s r t (each s r within next) (ih rest)

theorem Leads.rest {n k : Nat} {s t u : σ} (leads : Leads step inside n s t)
    (run : PartialStep.runFor step k s = some u) (outside : ¬ inside u) :
    n ≤ k ∧ PartialStep.runFor step (k - n) t = some u := by
  induction n generalizing s k with
  | zero => exact ⟨Nat.zero_le _, Eq.symm leads ▸ run⟩
  | succ n ih =>
    obtain ⟨within, r, next, rest⟩ := leads
    cases k with
    | zero =>
      -- the run has not moved, so it ends inside
      cases run
      exact absurd within outside
    | succ k =>
      obtain ⟨le, rest⟩ := ih rest ((runFor_succ next).mp run)
      exact ⟨Nat.succ_le_succ le, by rwa [Nat.add_sub_add_right]⟩

/-! ## Runs with a log -/

section

variable {ι ω : Type} {step : ι × σ → Option (ι × σ)} {writes : ι × σ → List ω}

/-- The same steps, with what each of them writes put at the end of a log. -/
def logged (step : ι × σ → Option (ι × σ)) (writes : ι × σ → List ω) (c : ι × σ × List ω) :
    Option (ι × σ × List ω) :=
  (step (c.1, c.2.1)).map fun d => (d.1, d.2, c.2.2 ++ writes (c.1, c.2.1))

theorem logged_eq_some {p q : ι} {x y : σ} {log log' : List ω} :
    logged step writes (p, x, log) = some (q, y, log') ↔
      step (p, x) = some (q, y) ∧ log' = log ++ writes (p, x) := by
  unfold logged
  rw [Option.map_eq_some_iff]
  constructor
  · rintro ⟨d, next, same⟩
    cases same
    exact ⟨next, rfl⟩
  · rintro ⟨next, rfl⟩
    exact ⟨(q, y), next, rfl⟩

theorem runFor_logged_iff {n : Nat} {p q : ι} {x y : σ} {log : List ω} :
    (∃ log', runFor (logged step writes) n (p, x, log) = some (q, y, log')) ↔
      runFor step n (p, x) = some (q, y) := by
  induction n generalizing p x log with
  | zero => simp [runFor]
  | succ n ih =>
    simp only [runFor, Option.bind_eq_some_iff]
    constructor
    · rintro ⟨log', ⟨r, z, between⟩, next, rest⟩
      exact ⟨(r, z), (logged_eq_some.mp next).1, ih.mp ⟨log', rest⟩⟩
    · rintro ⟨⟨r, z⟩, next, rest⟩
      obtain ⟨log', later⟩ := ih.mpr rest
      exact ⟨log', _, logged_eq_some.mpr ⟨next, rfl⟩, later⟩

end

end PartialStep
