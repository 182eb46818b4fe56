import Dragon.Library.Steps

/-! Structured programs placed in jump code.

The source is the language of commands, sequences, conditionals and loops over
any commands C and tests T. A placement says that the positions between two
addresses of a jump machine do what a program says, one clause for each form; it
mentions neither instructions nor labels. A placed program halts in the machine
exactly when it does in the source, with the same effect.
-/

set_option autoImplicit false

namespace StructuredCode

open PartialStep

inductive Prog (C T : Type) where
  | skip
  | act (c : C)
  | seq (first second : Prog C T)
  | ite (t : T) (yes no : Prog C T)
  | loop (t : T) (body : Prog C T)

section

variable {C T S : Type} (act : C → S → S) (test : T → S → Bool)

inductive Exec : Prog C T → S → S → Prop where
  | skip {s : S} : Exec .skip s s
  | act {c : C} {s : S} : Exec (.act c) s (act c s)
  | seq {first second : Prog C T} {s s₁ s₂ : S} (one : Exec first s s₁) (two : Exec second s₁ s₂) :
      Exec (.seq first second) s s₂
  | yes {t : T} {a b : Prog C T} {s s' : S} (holds : test t s = true) (run : Exec a s s') :
      Exec (.ite t a b) s s'
  | no {t : T} {a b : Prog C T} {s s' : S} (fails : test t s = false) (run : Exec b s s') :
      Exec (.ite t a b) s s'
  | done {t : T} {body : Prog C T} {s : S} (fails : test t s = false) : Exec (.loop t body) s s
  | again {t : T} {body : Prog C T} {s s₁ s₂ : S} (holds : test t s = true) (run : Exec body s s₁)
      (rest : Exec (.loop t body) s₁ s₂) : Exec (.loop t body) s s₂

variable {σ : Type} (step : Nat × σ → Option (Nat × σ)) (rep : σ → S → Prop) (exit : Nat)

def Inside (c : Nat × σ) : Prop := c.1 < exit

/-- From one position to another, with an effect on the state that is represented. -/
def Moves (p q : Nat) (effect : S → S) : Prop :=
  ∀ x s, rep x s → ∃ n y, Leads step (Inside exit) n (p, x) (q, y) ∧ rep y (effect s)

/-- A test at p, which takes at least one step. -/
def Tests (t : T) (p yes no : Nat) : Prop :=
  ∀ x s, rep x s → ∃ n y, Leads step (Inside exit) (n + 1) (p, x) (if test t s then yes else no, y) ∧
    rep y s

inductive Placed : Prog C T → Nat → Nat → Prop where
  | skip {p : Nat} : Placed .skip p p
  | act {c : C} {p q : Nat} (moves : Moves step rep exit p q (act c)) : Placed (.act c) p q
  | seq {first second : Prog C T} {p q r : Nat} (one : Placed first p q) (two : Placed second q r) :
      Placed (.seq first second) p r
  | ite {t : T} {a b : Prog C T} {p q₁ q₂ r₁ r₂ e : Nat} (tests : Tests test step rep exit t p q₁ q₂)
      (yes : Placed a q₁ r₁) (skip : Moves step rep exit r₁ e id) (no : Placed b q₂ r₂)
      (join : Moves step rep exit r₂ e id) : Placed (.ite t a b) p e
  | loop {t : T} {body : Prog C T} {p q r e : Nat} (tests : Tests test step rep exit t p q e)
      (run : Placed body q r) (back : Moves step rep exit r p id) : Placed (.loop t body) p e

end

variable {C T S σ : Type} {act : C → S → S} {test : T → S → Bool}
  {step : Nat × σ → Option (Nat × σ)} {rep : σ → S → Prop} {exit : Nat}

theorem Moves.andThen {p q r : Nat} (first : Moves step rep exit p q id)
    (second : Moves step rep exit q r id) : Moves step rep exit p r id := by
  intro x s here
  obtain ⟨n, y, leads₁, there⟩ := first x s here
  obtain ⟨k, z, leads₂, last⟩ := second y s there
  exact ⟨n + k, z, leads₁.trans leads₂, last⟩

theorem Tests.after {t : T} {p q yes no : Nat} (tests : Tests test step rep exit t q yes no)
    (first : Moves step rep exit p q id) : Tests test step rep exit t p yes no := by
  intro x s here
  obtain ⟨n, y, leads₁, there⟩ := first x s here
  obtain ⟨k, z, leads₂, last⟩ := tests y s there
  exact ⟨n + k, z, leads₁.trans leads₂, last⟩

theorem Placed.forward {prog : Prog C T} {s s' : S} (run : Exec act test prog s s') {p q : Nat}
    (placed : Placed act test step rep exit prog p q) {x : σ} (here : rep x s) :
    ∃ n y, Leads step (Inside exit) n (p, x) (q, y) ∧ rep y s' := by
  induction run generalizing p q x with
  | skip =>
    cases placed
    exact ⟨0, x, rfl, here⟩
  | act =>
    cases placed with
    | act moves => exact moves x _ here
  | seq one two ih₁ ih₂ =>
    cases placed with
    | seq first second =>
      obtain ⟨n, y, leads₁, there⟩ := ih₁ first here
      obtain ⟨k, z, leads₂, last⟩ := ih₂ second there
      exact ⟨n + k, z, leads₁.trans leads₂, last⟩
  | yes holds run ih =>
    cases placed with
    | ite tests yes skip no join =>
      obtain ⟨n, y, leads₁, there⟩ := tests x _ here
      rw [if_pos holds] at leads₁
      obtain ⟨k, z, leads₂, last⟩ := ih yes there
      obtain ⟨j, w, leads₃, joined⟩ := skip z _ last
      exact ⟨_, w, (leads₁.trans leads₂).trans leads₃, joined⟩
  | no fails run ih =>
    cases placed with
    | ite tests yes skip no join =>
      obtain ⟨n, y, leads₁, there⟩ := tests x _ here
      rw [if_neg (by rw [fails]; decide)] at leads₁
      obtain ⟨k, z, leads₂, last⟩ := ih no there
      obtain ⟨j, w, leads₃, joined⟩ := join z _ last
      exact ⟨_, w, (leads₁.trans leads₂).trans leads₃, joined⟩
  | done fails =>
    cases placed with
    | loop tests body back =>
      obtain ⟨n, y, leads, there⟩ := tests x _ here
      rw [if_neg (by rw [fails]; decide)] at leads
      exact ⟨_, y, leads, there⟩
  | again holds run rest ih₁ ih₂ =>
    have whole := placed
    cases placed with
    | loop tests body back =>
      obtain ⟨n, y, leads₁, there⟩ := tests x _ here
      rw [if_pos holds] at leads₁
      obtain ⟨k, z, leads₂, last⟩ := ih₁ body there
      obtain ⟨j, w, leads₃, again⟩ := back z _ last
      obtain ⟨m, v, leads₄, done⟩ := ih₂ whole again
      exact ⟨_, v, ((leads₁.trans leads₂).trans leads₃).trans leads₄, done⟩

-- A run of the machine that comes to the exit goes through a terminating run of the source. The
-- loop is by induction on the steps left: the test takes one at least.
theorem Placed.backward {prog : Prog C T} {p q : Nat}
    (placed : Placed act test step rep exit prog p q) {n : Nat} {x : σ} {s : S} {u : Nat × σ}
    (here : rep x s) (run : runFor step n (p, x) = some u) (out : exit ≤ u.1) :
    ∃ s', Exec act test prog s s' := by
  have outside : ¬ Inside exit u := Nat.not_lt.mpr out
  induction placed generalizing n x s with
  | skip => exact ⟨s, .skip⟩
  | act => exact ⟨_, .act⟩
  | seq one two ih₁ ih₂ =>
    obtain ⟨s₁, first⟩ := ih₁ here run
    obtain ⟨k, y, leads, there⟩ := one.forward first here
    obtain ⟨-, rest⟩ := leads.rest run outside
    obtain ⟨s₂, second⟩ := ih₂ there rest
    exact ⟨s₂, .seq first second⟩
  | @ite t a b p q₁ q₂ r₁ r₂ e tests yes skip no join ih₁ ih₂ =>
    obtain ⟨k, y, leads, there⟩ := tests x s here
    obtain ⟨-, rest⟩ := leads.rest run outside
    cases holds : test t s with
    | true =>
      rw [if_pos holds] at rest
      obtain ⟨s', first⟩ := ih₁ there rest
      exact ⟨s', .yes holds first⟩
    | false =>
      rw [if_neg (by rw [holds]; decide)] at rest
      obtain ⟨s', first⟩ := ih₂ there rest
      exact ⟨s', .no holds first⟩
  | @loop t body p q r e tests placed back ih =>
    induction n using Nat.strongRecOn generalizing x s with
    | ind n less =>
      obtain ⟨k, y, leads₁, there⟩ := tests x s here
      obtain ⟨le, rest₁⟩ := leads₁.rest run outside
      cases holds : test t s with
      | false => exact ⟨s, .done holds⟩
      | true =>
        rw [if_pos holds] at rest₁
        obtain ⟨s₁, first⟩ := ih there rest₁
        obtain ⟨j, z, leads₂, last⟩ := placed.forward first there
        obtain ⟨-, rest₂⟩ := leads₂.rest rest₁ outside
        obtain ⟨m, w, leads₃, again⟩ := back z _ last
        obtain ⟨-, rest₃⟩ := leads₃.rest rest₂ outside
        obtain ⟨s₂, second⟩ := less _ (by omega) again rest₃
        exact ⟨s₂, .again holds first second⟩

end StructuredCode
