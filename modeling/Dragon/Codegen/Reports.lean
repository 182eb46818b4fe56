import Dragon.Codegen.Context
import Dragon.Symbol.Usable

/-! Steps of the analyzer that end in a result or in span_err.

A step reports when every stop of it is a span_err, with no assertion failed, no
abort and no access outside a table. A sequence reports when its first part does
and its second part does after each result of the first.
-/

set_option autoImplicit false

namespace Dragon

open Analysis

namespace Analysis

variable {α β : Type} {acx : Acx}

def Reports (x : Analysis α) (acx : Acx) : Prop := Reported (x acx)

theorem reports_bind {x : Analysis α} {f : α → Analysis β} :
    Reports (x >>= f) acx ↔ Reports x acx ∧
      ∀ a acx' code, x acx = .ok (a, acx', code) → Reports (f a) acx' := by
  constructor
  · intro reports
    constructor
    · exact fun s stopped => reports s (bind_eq_error.mpr (.inl stopped))
    · exact fun a acx' code run s stopped =>
        reports s (bind_eq_error.mpr (.inr ⟨a, acx', code, run, stopped⟩))
  · rintro ⟨first, second⟩ s stopped
    rcases bind_eq_error.mp stopped with stopped | ⟨a, acx', code, run, stopped⟩
    · exact first s stopped
    · exact second a acx' code run s stopped

theorem reports_bind_of_ok {x : Analysis α} {f : α → Analysis β} {a : α} {acx' : Acx}
    {code : List Insn} (run : x acx = .ok (a, acx', code)) :
    Reports (x >>= f) acx ↔ Reports (f a) acx' := by
  rw [reports_bind]
  constructor
  · exact fun reports => reports.2 a acx' code run
  · intro rest
    refine ⟨?_, ?_⟩
    · intro s stopped
      rw [run] at stopped
      cases stopped
    · intro b acx'' code' again
      rw [run] at again
      cases again
      exact rest

theorem reports_assoc {γ : Type} {x : Analysis α} {f : α → Analysis β} {g : β → Analysis γ} :
    Reports ((x >>= f) >>= g) acx ↔ Reports (x >>= fun a => f a >>= g) acx := by
  rw [reports_bind, reports_bind, reports_bind, and_assoc]
  apply and_congr_right
  intro _
  constructor
  · rintro ⟨second, third⟩ a acx₁ code₁ run
    apply reports_bind.mpr
    refine ⟨second a acx₁ code₁ run, ?_⟩
    intro b acx₂ code₂ run₂
    exact third b acx₂ _ (bind_eq_ok.mpr ⟨a, acx₁, code₁, code₂, run, run₂, rfl⟩)
  · intro rest
    refine ⟨fun a acx₁ code₁ run => (reports_bind.mp (rest a acx₁ code₁ run)).1, ?_⟩
    intro b acx₂ code₂ both
    obtain ⟨a, acx₁, code₁, code₂', run, run₂, -⟩ := bind_eq_ok.mp both
    exact (reports_bind.mp (rest a acx₁ code₁ run)).2 b acx₂ code₂' run₂

@[simp] theorem reports_pure (a : α) : Reports (pure a) acx := reported_ok _

@[simp] theorem reports_emit (lines : List Insn) : Reports (emit lines) acx := reported_ok _

@[simp] theorem reports_modify (f : Acx → Acx) : Reports (modify f) acx := reported_ok _

@[simp] theorem reports_spanErr (message : String) : Reports (spanErr message : Analysis α) acx :=
  reported_error.mpr trivial

@[simp] theorem reports_regTakeitback (r : Reg) : Reports (regTakeitback r) acx := reported_ok _

@[simp] theorem reports_nextLabel : Reports nextLabel acx := reported_ok _

theorem reports_stop (s : Stop) : Reports (stop s : Analysis α) acx ↔ s.Reported := reported_error

@[simp] theorem reports_get_bind {f : Acx → Analysis β} :
    Reports (get >>= f) acx ↔ Reports (f acx) acx := reports_bind_of_ok rfl

@[simp] theorem reports_emit_bind {lines : List Insn} {f : Unit → Analysis β} :
    Reports (emit lines >>= f) acx ↔ Reports (f ()) acx := reports_bind_of_ok rfl

@[simp] theorem reports_modify_bind {g : Acx → Acx} {f : Unit → Analysis β} :
    Reports (modify g >>= f) acx ↔ Reports (f ()) (g acx) := reports_bind_of_ok rfl

@[simp] theorem reports_regGimme_bind {f : Reg → Analysis β} :
    Reports (regGimme >>= f) acx ↔ Reports (f acx.rs.gimme.1) (acx.setRs acx.rs.gimme.2.1) :=
  reports_bind_of_ok rfl

@[simp] theorem reports_regTakeitback_bind {r : Reg} {f : Unit → Analysis β} :
    Reports (regTakeitback r >>= f) acx ↔ Reports (f ()) (acx.setRs (acx.rs.takeitback r).1) :=
  reports_bind_of_ok rfl

@[simp] theorem reports_saveRegisters_bind {f : Unit → Analysis β} :
    Reports (saveRegisters >>= f) acx ↔ Reports (f ()) acx := reports_bind_of_ok rfl

@[simp] theorem reports_restoreRegistersExcept_bind {r : Reg} {f : Unit → Analysis β} :
    Reports (restoreRegistersExcept r >>= f) acx ↔ Reports (f ()) acx := reports_bind_of_ok rfl

theorem reports_ofOption_bind {x : Option α} {f : α → Analysis β} :
    Reports (ofOption x >>= f) acx ↔ ∃ a, x = some a ∧ Reports (f a) acx := by
  cases x with
  | none =>
    constructor
    · intro reports
      exact (reports .undefined rfl).elim
    · rintro ⟨a, found, -⟩
      cases found
  | some a =>
    rw [reports_bind_of_ok (x := ofOption (some a)) rfl]
    constructor
    · exact fun reports => ⟨a, rfl, reports⟩
    · rintro ⟨_, ⟨⟩, reports⟩
      exact reports

theorem ofExcept_eq_ok {x : Except Stop α} {a : α} {acx' : Acx} {code : List Insn} :
    ofExcept x acx = .ok (a, acx', code) ↔ x = .ok a ∧ acx' = acx ∧ code = [] := by
  cases x with
  | error s => simp [ofExcept]
  | ok b =>
    simp only [ofExcept, Except.ok.injEq, Prod.mk.injEq]
    constructor
    · rintro ⟨rfl, rfl, rfl⟩
      exact ⟨rfl, rfl, rfl⟩
    · rintro ⟨rfl, rfl, rfl⟩
      exact ⟨rfl, rfl, rfl⟩

theorem reports_ofExcept {x : Except Stop α} : Reports (ofExcept x) acx ↔ Reported x := by
  cases x with
  | error s => exact reported_error.trans reported_error.symm
  | ok a => exact iff_of_true (reported_ok _) (reported_ok a)

theorem reports_ofExcept_bind {x : Except Stop α} {f : α → Analysis β} :
    Reports (ofExcept x >>= f) acx ↔ Reported x ∧ ∀ a, x = .ok a → Reports (f a) acx := by
  cases x with
  | error s =>
    have same : Reports (ofExcept (.error s) >>= f) acx ↔ s.Reported := reports_stop s
    rw [same]
    constructor
    · intro reported
      exact ⟨fun _ stopped => by cases stopped; exact reported, fun _ run => by cases run⟩
    · exact fun both => both.1 s rfl
  | ok a =>
    rw [reports_bind_of_ok (x := ofExcept (.ok a)) rfl]
    constructor
    · exact fun reports => ⟨reported_ok a, fun _ run => by cases run; exact reports⟩
    · exact fun both => both.2 a rfl

theorem reports_withStab {g : Stab → Except Stop (α × Stab)} :
    Reports (withStab g) acx ↔ Reported (g acx.st) := by
  unfold Reports withStab
  cases g acx.st with
  | error s =>
    constructor
    · exact fun reports _ stopped => by cases stopped; exact reports s rfl
    · exact fun reported _ stopped => by cases stopped; exact reported s rfl
  | ok r => simp

theorem reports_withStab_bind {g : Stab → Except Stop (α × Stab)} {f : α → Analysis β} :
    Reports (withStab g >>= f) acx ↔ Reported (g acx.st) ∧
      ∀ a st, g acx.st = .ok (a, st) → Reports (f a) (acx.setSt st) := by
  rw [reports_bind, reports_withStab]
  apply and_congr_right
  intro _
  constructor
  · exact fun rest a st run => rest a _ [] (withStab_eq_ok.mpr ⟨st, run, rfl, rfl⟩)
  · intro rest a acx' code run
    obtain ⟨st, found, rfl, -⟩ := withStab_eq_ok.mp run
    exact rest a st found

end Analysis

end Dragon
