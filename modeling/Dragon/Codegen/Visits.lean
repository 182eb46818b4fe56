import Dragon.Codegen.Subprograms

/-! The subprograms of a program and where the analyzer comes to them.

A subprogram is named by its path in the tree of nested subprograms. The
analyzer comes to it once, in some context and after some lines were printed.
-/

set_option autoImplicit false

namespace Dragon

open Analysis

/-- The subprogram at a path: at each level the number of the declaration in its list. -/
def subprogAt : List AstSubdecl → List Nat → Option AstSubdecl
  | _, [] => none
  | subprogs, [k] => subprogs[k]?
  | subprogs, k :: l :: path => subprogs[k]?.bind fun d => subprogAt d.subprogs (l :: path)

def AstProgram.subprogAt (prog : AstProgram) (path : List Nat) : Option AstSubdecl :=
  Dragon.subprogAt prog.subprogs path

/-- The analyzer, started on a list of subprograms, comes to the one at a path in the context
start, after the lines before. -/
inductive Visits : List AstSubdecl → Acx → List Nat → AstSubdecl → Acx → List Insn → Prop where
  | here {d : AstSubdecl} {subprogs : List AstSubdecl} {acx : Acx} {st : Stab}
      (added : stabAddFunc acx.st d.name d.head = .ok st) :
      Visits (d :: subprogs) acx [0] d (acx.setSt st) []
  | inside {d e : AstSubdecl} {subprogs : List AstSubdecl} {acx acx₁ start : Acx} {st : Stab}
      {slot : Index × Int} {path : List Nat} {opening before : List Insn}
      (added : stabAddFunc acx.st d.name d.head = .ok st)
      (opened : openSubprog d.head d.name d.types d.decls (acx.setSt st) = .ok (slot, acx₁, opening))
      (visits : Visits d.subprogs acx₁ path e start before) :
      Visits (d :: subprogs) acx (0 :: path) e start (opening ++ before)
  | later {d e : AstSubdecl} {subprogs : List AstSubdecl} {acx acx₁ start : Acx} {st : Stab}
      {k : Nat} {path : List Nat} {code before : List Insn}
      (added : stabAddFunc acx.st d.name d.head = .ok st)
      (first : analyzeSubprog d (acx.setSt st) = .ok ((), acx₁, code))
      (visits : Visits subprogs acx₁ (k :: path) e start before) :
      Visits (d :: subprogs) acx ((k + 1) :: path) e start (code ++ before)

/-- The parts an accepted subprogram is printed in: the code of the subprograms nested in it,
and its own code, printed from the context inner. -/
structure Parts (d : AstSubdecl) (start inner : Acx) (retslot : Index) (off : Int)
    (nested own : List Insn) : Prop where
  nested : ∃ acx, openSubprog d.head d.name d.types d.decls start =
      .ok ((retslot, off), acx, [.global (.sub d.name), .label (.sub d.name)]) ∧
    analyzeSubprogs d.subprogs acx = .ok ((), inner, nested)
  own : ∃ acx, ownCode retslot off d.body inner = .ok ((), acx, own)

theorem analyzeSubprog_parts {d : AstSubdecl} {start acx : Acx} {u : Unit} {code : List Insn}
    (run : analyzeSubprog d start = .ok (u, acx, code)) :
    ∃ inner retslot off nested own, Parts d start inner retslot off nested own ∧
      code = [.global (.sub d.name), .label (.sub d.name)] ++ (nested ++ own) := by
  cases d with
  | mk head name decls subprogs types body =>
    simp only [analyzeSubprog, get_bind_eq_ok] at run
    rw [bind_eq_ok] at run
    obtain ⟨⟨retslot, off⟩, acx₁, opening, _, opened, run, rfl⟩ := run
    have lines : opening = [.global (.sub name), .label (.sub name)] := by
      obtain ⟨st, -, -, same⟩ := openSubprog_eq_ok.mp opened
      exact same
    subst lines
    rw [bind_eq_ok] at run
    obtain ⟨_, acx₂, nested, _, ran, run, rfl⟩ := run
    rw [bind_eq_ok] at run
    obtain ⟨_, acx₃, own, _, owned, run, rfl⟩ := run
    obtain ⟨st, -, -, rfl⟩ := closeSubprog_eq_ok.mp run
    rw [List.append_nil]
    exact ⟨acx₂, retslot, off, nested, own, ⟨⟨acx₁, opened, ran⟩, ⟨acx₃, owned⟩⟩, rfl⟩

def ownLines (d : AstSubdecl) (start : Acx) : Except Stop (List Insn) := do
  let (slot, acx, _) ← openSubprog d.head d.name d.types d.decls start
  let (_, inner, _) ← analyzeSubprogs d.subprogs acx
  let (_, _, own) ← ownCode slot.1 slot.2 d.body inner
  .ok own

theorem exists_parts {d : AstSubdecl} {start : Acx} {own : List Insn}
    (lines : ownLines d start = .ok own) :
    ∃ inner retslot off nested, Parts d start inner retslot off nested own := by
  unfold ownLines at lines
  obtain ⟨⟨⟨retslot, off⟩, acx, opening⟩, opened, lines⟩ := except_bind_eq_ok.mp lines
  obtain ⟨⟨_, inner, nested⟩, ran, lines⟩ := except_bind_eq_ok.mp lines
  obtain ⟨⟨_, acx', own'⟩, owned, last⟩ := except_bind_eq_ok.mp lines
  cases last
  obtain ⟨st, -, -, rfl⟩ := openSubprog_eq_ok.mp opened
  exact ⟨inner, retslot, off, nested, ⟨acx, opened, ran⟩, ⟨acx', owned⟩⟩

theorem analyzeSubprogs_cons {d : AstSubdecl} {subprogs : List AstSubdecl} {acx acx' : Acx}
    {u : Unit} {code : List Insn} (run : analyzeSubprogs (d :: subprogs) acx = .ok (u, acx', code)) :
    ∃ st acx₁ code₁ code₂, stabAddFunc acx.st d.name d.head = .ok st ∧
      analyzeSubprog d (acx.setSt st) = .ok ((), acx₁, code₁) ∧
      analyzeSubprogs subprogs acx₁ = .ok ((), acx', code₂) ∧ code = code₁ ++ code₂ := by
  simp only [analyzeSubprogs, withStab_bind_eq_ok, except_bind_eq_ok] at run
  obtain ⟨_, st, ⟨_, added, pure⟩, run⟩ := run
  cases pure
  rw [bind_eq_ok] at run
  obtain ⟨_, acx₁, code₁, code₂, first, rest, rfl⟩ := run
  exact ⟨st, acx₁, code₁, code₂, added, first, rest, rfl⟩

theorem Visits.printed {subprogs : List AstSubdecl} {acx start acx' : Acx} {path : List Nat}
    {d : AstSubdecl} {before code : List Insn} {u : Unit}
    (visits : Visits subprogs acx path d start before)
    (run : analyzeSubprogs subprogs acx = .ok (u, acx', code)) :
    ∃ acx₁ printed after, analyzeSubprog d start = .ok ((), acx₁, printed) ∧
      code = before ++ (printed ++ after) := by
  induction visits generalizing acx' code with
  | here added =>
    obtain ⟨st, acx₁, code₁, code₂, added', first, -, rfl⟩ := analyzeSubprogs_cons run
    obtain rfl := Except.ok.inj (added.symm.trans added')
    exact ⟨acx₁, code₁, code₂, first, rfl⟩
  | inside added opened _ ih =>
    obtain ⟨st, acx₁, code₁, code₂, added', first, -, rfl⟩ := analyzeSubprogs_cons run
    obtain rfl := Except.ok.inj (added.symm.trans added')
    obtain ⟨inner, retslot, off, nested, own, parts, rfl⟩ := analyzeSubprog_parts first
    obtain ⟨acx₂, opened', ran⟩ := parts.nested
    cases Except.ok.inj (opened.symm.trans opened')
    obtain ⟨acx₃, printed, after, there, rfl⟩ := ih ran
    refine ⟨acx₃, printed, after ++ (own ++ code₂), there, ?_⟩
    simp only [List.append_assoc]
  | later added first _ ih =>
    obtain ⟨st, acx₁, code₁, code₂, added', first', rest, rfl⟩ := analyzeSubprogs_cons run
    obtain rfl := Except.ok.inj (added.symm.trans added')
    cases Except.ok.inj (first.symm.trans first')
    obtain ⟨acx₃, printed, after, there, rfl⟩ := ih rest
    exact ⟨acx₃, printed, after, there, List.append_assoc .. |>.symm⟩

theorem exists_visits {path : List Nat} : ∀ {subprogs : List AstSubdecl} {acx acx' : Acx} {u : Unit}
    {code : List Insn} {d : AstSubdecl}, analyzeSubprogs subprogs acx = .ok (u, acx', code) →
      subprogAt subprogs path = some d → ∃ start before, Visits subprogs acx path d start before := by
  induction path with
  | nil =>
    intro subprogs acx acx' u code d run found
    cases found
  | cons k path deeper =>
    intro subprogs
    induction subprogs generalizing k with
    | nil =>
      intro acx acx' u code d run found
      cases path <;> cases found
    | cons e subprogs later =>
      intro acx acx' u code d run found
      obtain ⟨st, acx₁, code₁, code₂, added, first, rest, -⟩ := analyzeSubprogs_cons run
      cases k with
      | zero =>
        cases path with
        | nil =>
          cases found
          exact ⟨_, _, .here added⟩
        | cons l path =>
          obtain ⟨inner, retslot, off, nested, own, parts, -⟩ := analyzeSubprog_parts first
          obtain ⟨acx₂, opened, ran⟩ := parts.nested
          obtain ⟨start, before, visits⟩ := deeper ran found
          exact ⟨start, _, .inside added opened visits⟩
      | succ k =>
        have there : subprogAt subprogs (k :: path) = some d := by
          cases path <;> exact found
        obtain ⟨start, before, visits⟩ := later k rest there
        exact ⟨start, _, .later added first visits⟩

/-- The analyzer, started on a program, comes to a subprogram. -/
def AstProgram.Visits (prog : AstProgram) (path : List Nat) (d : AstSubdecl) (start : Acx)
    (before : List Insn) : Prop :=
  ∃ off acx opening lines, openProgram prog initialAcx = .ok (off, acx, opening) ∧
    Dragon.Visits prog.subprogs acx path d start lines ∧ before = opening ++ lines

theorem analyze_visits {prog : AstProgram} {acx : Acx} {code : List Insn}
    (accepted : analyze prog = .ok (acx, code)) {path : List Nat} {d : AstSubdecl}
    (declared : prog.subprogAt path = some d) :
    ∃ start before inner retslot off nested own after, prog.Visits path d start before ∧
      Parts d start inner retslot off nested own ∧
      code = before ++ ([.global (.sub d.name), .label (.sub d.name)] ++ (nested ++ own) ++ after) := by
  unfold analyze at accepted
  cases result : analyzeProgram prog initialAcx with
  | error s => simp [result] at accepted
  | ok r =>
    obtain ⟨u, acx₀, code₀⟩ := r
    simp only [result, Except.ok.injEq, Prod.mk.injEq] at accepted
    obtain ⟨rfl, rfl⟩ := accepted
    simp only [analyzeProgram] at result
    rw [bind_eq_ok] at result
    obtain ⟨off, acx₁, opening, _, opened, run, rfl⟩ := result
    rw [bind_eq_ok] at run
    obtain ⟨_, acx₂, subsCode, main, subs, -, rfl⟩ := run
    obtain ⟨start, before, visits⟩ := exists_visits subs declared
    obtain ⟨acx₃, printed, after, there, rfl⟩ := visits.printed subs
    obtain ⟨inner, retslot, off', nested, own, parts, rfl⟩ := analyzeSubprog_parts there
    refine ⟨start, _, inner, retslot, off', nested, own, after ++ main,
      ⟨off, acx₁, opening, before, opened, visits, rfl⟩, parts, ?_⟩
    simp only [List.append_assoc]

end Dragon
