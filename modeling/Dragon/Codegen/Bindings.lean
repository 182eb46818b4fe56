import Dragon.Codegen.Stores
import Dragon.Symbol.Locals

/-! What is entered into the scope of a subprogram.

Formals and locals are checked against the scope before they are entered. The
return slot is not, and the formals of a nested signature are not either: they
replace what the scope has under their names.
-/

set_option autoImplicit false

namespace Dragon

open Analysis Stab

/-- Bindings after some names have been bound, the last one counting. -/
def bindAll (f : Name → Int) (ins : List (Name × Int)) : Name → Int :=
  ins.foldl (fun f b n => if n = b.1 then b.2 else f n) f

theorem bindAll_of_not_mem {f : Name → Int} {ins : List (Name × Int)} {n : Name}
    (outside : n ∉ ins.map Prod.fst) : bindAll f ins n = f n := by
  induction ins generalizing f with
  | nil => rfl
  | cons b ins ih =>
    rw [List.map_cons, List.mem_cons, not_or] at outside
    exact (ih outside.2).trans (if_neg outside.1)

theorem bindAll_iff {f : Name → Int} {ins : List (Name × Int)}
    (ids : (ins.map Prod.snd).Pairwise (· < ·)) :
    (∀ b ∈ ins, bindAll f ins b.1 = b.2) ↔ (ins.map Prod.fst).Nodup := by
  induction ins generalizing f with
  | nil => simp
  | cons b ins ih =>
    rw [List.map_cons, List.pairwise_cons] at ids
    rw [List.map_cons, List.nodup_cons, List.forall_mem_cons, ← ih ids.2]
    have step : bindAll f (b :: ins) = bindAll (fun n => if n = b.1 then b.2 else f n) ins := rfl
    rw [step]
    constructor
    · rintro ⟨head, rest⟩
      refine ⟨?_, rest⟩
      intro again
      obtain ⟨c, member, same⟩ := List.mem_map.mp again
      have bound := rest c member
      rw [same, head] at bound
      exact absurd (ids.1 c.2 (List.mem_map_of_mem member)) (bound ▸ Int.lt_irrefl _)
    · rintro ⟨outside, rest⟩
      refine ⟨?_, rest⟩
      rw [bindAll_of_not_mem outside]
      exact if_pos rfl

/-- The bindings have been entered into the innermost scope, each for a new variable. -/
structure Inserts (st st' : Stab) (ins : List (Name × Int)) : Prop where
  lookup : st'.innermost.vars.lookup = bindAll st.innermost.vars.lookup ins
  ids : (ins.map Prod.snd).Pairwise (· < ·)
  fresh : ∀ b ∈ ins, Pushed st st' b.2
  names : ∀ b ∈ ins, ∃ v, stabVar st' b.2 = some v ∧ v.name = b.1
  kept : ∀ (i : Int) v, stabVar st i = some v → ∃ w, stabVar st' i = some w ∧ w.name = v.name
  le : st.vars.length ≤ st'.vars.length

def Complete (st st' : Stab) (ins : List (Name × Int)) : Prop :=
  ∀ i, Pushed st st' i → i ∈ ins.map Prod.snd

namespace Inserts

variable {st₁ st₂ st₃ : Stab} {ins ins' : List (Name × Int)}

theorem trans (first : Inserts st₁ st₂ ins) (second : Inserts st₂ st₃ ins') :
    Inserts st₁ st₃ (ins ++ ins') := by
  have le := first.le
  have le' := second.le
  refine ⟨?_, ?_, ?_, ?_, ?_, le.trans le'⟩
  · rw [second.lookup, first.lookup]
    exact List.foldl_append.symm
  · rw [List.map_append, List.pairwise_append]
    refine ⟨first.ids, second.ids, ?_⟩
    intro i before j after
    obtain ⟨b, member, rfl⟩ := List.mem_map.mp before
    obtain ⟨c, member', rfl⟩ := List.mem_map.mp after
    exact Int.lt_of_lt_of_le (first.fresh b member).2 (second.fresh c member').1
  · intro b member
    rcases List.mem_append.mp member with member | member
    · have bounds := first.fresh b member
      exact ⟨bounds.1, Int.lt_of_lt_of_le bounds.2 (Int.ofNat_le.mpr le')⟩
    · have bounds := second.fresh b member
      exact ⟨Int.le_trans (Int.ofNat_le.mpr le) bounds.1, bounds.2⟩
  · intro b member
    rcases List.mem_append.mp member with member | member
    · obtain ⟨v, found, name⟩ := first.names b member
      obtain ⟨w, later, same⟩ := second.kept b.2 v found
      exact ⟨w, later, same.trans name⟩
    · exact second.names b member
  · intro i v found
    obtain ⟨w, later, same⟩ := first.kept i v found
    obtain ⟨u, last, same'⟩ := second.kept i w later
    exact ⟨u, last, same'.trans same⟩

theorem none_ (vars : st₂.innermost.vars = st₁.innermost.vars) (le : st₁.vars.length ≤ st₂.vars.length)
    (kept : ∀ (i : Int) v, stabVar st₁ i = some v → ∃ w, stabVar st₂ i = some w ∧ w.name = v.name) :
    Inserts st₁ st₂ [] where
  lookup := by rw [vars]; rfl
  ids := List.Pairwise.nil
  fresh _ member := absurd member List.not_mem_nil
  names _ member := absurd member List.not_mem_nil
  kept := kept
  le := le

theorem same (vars : st₂.innermost.vars = st₁.innermost.vars) (arena : st₂.vars = st₁.vars) :
    Inserts st₁ st₂ [] ∧ Complete st₁ st₂ [] := by
  constructor
  · apply none_ vars (Nat.le_of_eq (congrArg List.length arena.symm))
    intro i v found
    refine ⟨v, ?_, rfl⟩
    unfold stabVar
    rw [arena]
    exact found
  · rintro i ⟨low, high⟩
    rw [arena] at high
    exact absurd high (Int.not_lt.mpr low)

theorem pushVar (st : Stab) (v : StabVar) :
    Inserts st ((st.pushVar v).2.insertVar v.name st.vars.length) [(v.name, st.vars.length)] ∧
      Complete st ((st.pushVar v).2.insertVar v.name st.vars.length)
        [(v.name, st.vars.length)] := by
  have arena : ∀ i, stabVar ((st.pushVar v).2.insertVar v.name st.vars.length) i =
      if i = st.vars.length then some v else stabVar st i := fun i => stabVar_pushVar st i v v.name
  have longer : ((st.pushVar v).2.insertVar v.name st.vars.length).vars.length =
      st.vars.length + 1 := by
    simp [Stab.pushVar, insertVar]
  refine ⟨⟨?_, List.pairwise_singleton .., ?_, ?_, ?_, by omega⟩, ?_⟩
  · funext n
    exact NameTable.lookup_insert st.innermost.vars v.name n st.vars.length
  · rw [List.forall_mem_singleton]
    unfold Pushed
    rw [longer]
    exact ⟨Int.le_refl _, by push_cast; omega⟩
  · rw [List.forall_mem_singleton]
    exact ⟨v, by rw [arena, if_pos rfl], rfl⟩
  · intro i w found
    have small := (arenaGet_lt found).2
    exact ⟨w, by rw [arena, if_neg (Int.ne_of_lt small)]; exact found, rfl⟩
  · rintro i ⟨low, high⟩
    rw [longer] at high
    apply List.mem_singleton.mpr
    push_cast at high
    simp only
    omega

end Inserts

theorem Complete.trans {st₁ st₂ st₃ : Stab} {ins ins' : List (Name × Int)}
    (first : Complete st₁ st₂ ins) (second : Complete st₂ st₃ ins') :
    Complete st₁ st₃ (ins ++ ins') := by
  rintro i ⟨low, high⟩
  rw [List.map_append, List.mem_append]
  by_cases early : i < st₂.vars.length
  · exact .inl (first i ⟨low, early⟩)
  · exact .inr (second i ⟨Int.not_lt.mp early, high⟩)

/-- Some bindings of the names have been entered, and no others. -/
def EntersNames (st st' : Stab) (names : List Name) : Prop :=
  ∃ ins, Inserts st st' ins ∧ Complete st st' ins ∧ ins.map Prod.fst = names

theorem EntersNames.trans {st₁ st₂ st₃ : Stab} {names names' : List Name}
    (first : EntersNames st₁ st₂ names) (second : EntersNames st₂ st₃ names') :
    EntersNames st₁ st₃ (names ++ names') := by
  obtain ⟨ins, enters, complete, rfl⟩ := first
  obtain ⟨ins', enters', complete', rfl⟩ := second
  exact ⟨ins ++ ins', enters.trans enters', complete.trans complete', List.map_append⟩

theorem EntersNames.of_same {st st' : Stab} (vars : st'.innermost.vars = st.innermost.vars)
    (arena : st'.vars = st.vars) : EntersNames st st' [] :=
  ⟨[], (Inserts.same vars arena).1, (Inserts.same vars arena).2, rfl⟩

theorem EntersNames.pushVar (st : Stab) (v : StabVar) :
    EntersNames st ((st.pushVar v).2.insertVar v.name st.vars.length) [v.name] :=
  ⟨_, (Inserts.pushVar st v).1, (Inserts.pushVar st v).2, rfl⟩

/-! ## Declarations -/

theorem stabAddVar_enters {st st' : Stab} {name : Name} {type id : Index} {off off' : Int} {up : Bool}
    (added : stabAddVar st name type off up = .ok (id, off', st')) : EntersNames st st' [name] := by
  obtain ⟨t, -, rfl, -, rfl⟩ := stabAddVar_eq_ok.mp added
  exact .pushVar st ⟨type, name, -1, off, false⟩

theorem stabAddNames_enters {names : List Name} {type : Index} {up : Bool} {st st' : Stab}
    {off off' : Int} (added : stabAddNames st type up names off = .ok (off', st')) :
    EntersNames st st' names := by
  induction names generalizing st off with
  | nil =>
    cases added
    exact .of_same rfl rfl
  | cons var names ih =>
    simp only [stabAddNames] at added
    split at added
    · cases added
    · simp only [except_bind_eq_ok] at added
      obtain ⟨⟨id, off₁, st₁⟩, first, rest⟩ := added
      exact (stabAddVar_enters first).trans (ih rest)

theorem stabResolveType_enters {t : AstType} {st st' : Stab} {i : Index}
    (resolved : stabResolveType st t = .ok (i, st')) : EntersNames st st' [] := by
  have more := stabResolveType_more t resolved
  exact .of_same (congrArg StabScope.vars more.innermost) more.vars

theorem stabResolveRetty_enters {retty : Option AstType} {st st' : Stab} {i : Index}
    (resolved : stabResolveRetty st retty = .ok (i, st')) : EntersNames st st' [] := by
  cases retty with
  | none =>
    cases resolved
    exact .of_same rfl rfl
  | some type => exact stabResolveType_enters resolved

theorem stabAddAllDecls_enters {decls : List AstDecls} {up : Bool} {st st' : Stab} {off off' : Int}
    (added : stabAddAllDecls st up decls off = .ok (off', st')) :
    EntersNames st st' (decls.flatMap AstDecls.names) := by
  induction decls generalizing st off with
  | nil =>
    cases added
    exact .of_same rfl rfl
  | cons d decls ih =>
    simp only [stabAddAllDecls, stabAddDecls, except_bind_eq_ok] at added
    obtain ⟨⟨off₁, st₁⟩, ⟨⟨type, st₂⟩, resolved, names⟩, rest⟩ := added
    rw [List.flatMap_cons]
    exact ((stabResolveType_enters resolved).trans (stabAddNames_enters names)).trans (ih rest)

theorem stabResolveFormals_enters {formals : List (Name × AstType)} {st st' : Stab} {ids : List Index}
    (resolved : stabResolveFormals st formals = .ok (ids, st')) :
    EntersNames st st' (formals.map Prod.fst) := by
  induction formals generalizing st ids with
  | nil =>
    cases resolved
    exact .of_same rfl rfl
  | cons formal formals ih =>
    obtain ⟨name, type⟩ := formal
    simp only [stabResolveFormals, except_bind_eq_ok] at resolved
    obtain ⟨⟨t, st₁⟩, inner, ⟨rest, st₂⟩, more, same⟩ := resolved
    cases same
    exact ((stabResolveType_enters inner).trans
      (.pushVar st₁ ⟨t, name, -1, -1, false⟩)).trans (ih more)

theorem stabAddFunc_enters {st st' : Stab} {name : Name} {sig : AstSig}
    (added : stabAddFunc st name sig = .ok st') :
    EntersNames st st' (sig.formals.map Prod.fst) := by
  obtain ⟨-, type, st₁, resolved, rfl⟩ := stabAddFunc_eq_ok.mp added
  simp only [stabResolveSig, except_bind_eq_ok] at resolved
  obtain ⟨⟨retty, st₂⟩, result, ⟨args, st₃⟩, formals, same⟩ := resolved
  cases same
  have names : sig.formals.map Prod.fst = [] ++ sig.formals.map Prod.fst ++ [] := by
    rw [List.nil_append, List.append_nil]
  rw [names]
  apply EntersNames.trans ((stabResolveRetty_enters result).trans (stabResolveFormals_enters formals))
  exact .of_same rfl rfl

/-- What a subprogram enters into its scope before the subprograms nested in it. -/
def AstSubdecl.ownNames (d : AstSubdecl) : List Name :=
  d.head.args.flatMap AstDecls.names ++ d.decls.flatMap AstDecls.names ++ [d.name]

/-- What the signatures of the subprograms nested in it enter. -/
def signatureNames (subprogs : List AstSubdecl) : List Name :=
  subprogs.flatMap fun d => d.head.formals.map Prod.fst

theorem Opened.enters {st st' : Stab} {d : AstSubdecl} {retslot : Index} {off : Int}
    (opened : Opened st d.head d.name d.types d.decls retslot off st') :
    EntersNames (stabEnter st) st' d.ownNames := by
  obtain ⟨st₁, off₂, st₂, off₃, st₃, retty, st₄, types, formals, locals, result, added⟩ := opened.steps
  obtain ⟨arena, vars, -⟩ := stabAddAllTypes_keeps types
  have named : EntersNames (stabEnter st) st₁ [] := .of_same vars arena
  have filled := ((named.trans (stabAddAllDecls_enters formals)).trans
    (stabAddAllDecls_enters locals)).trans (stabResolveRetty_enters result)
  have whole := filled.trans (stabAddVar_enters added)
  rw [List.nil_append, List.append_nil] at whole
  exact whole

theorem Declared.nodup {st st' : Stab} {names : List Name} {vars : List StabVar}
    (declared : Declared st st' names vars) : names.Nodup := by
  rw [← declared.names_eq, List.nodup_iff_injective_getElem]
  intro i j same
  simp only [List.getElem_map] at same
  have first := declared.bound i _ (List.getElem?_eq_getElem (by simpa using i.isLt))
  have second := declared.bound j _ (List.getElem?_eq_getElem (by simpa using j.isLt))
  rw [same, second] at first
  apply Fin.ext
  omega

theorem Opened.nodup {st st' : Stab} {d : AstSubdecl} {retslot : Index} {off : Int}
    (opened : Opened st d.head d.name d.types d.decls retslot off st') :
    (d.head.args.flatMap AstDecls.names ++ d.decls.flatMap AstDecls.names).Nodup := by
  obtain ⟨st₁, off₂, st₂, off₃, st₃, retty, st₄, -, formals, locals, -, -⟩ := opened.steps
  obtain ⟨vars, declared, -⟩ := stabAddAllDecls_frame formals
  obtain ⟨vars', declared', -⟩ := stabAddAllDecls_frame locals
  exact (declared.trans declared').nodup

theorem analyzeSubprog_enters {d : AstSubdecl} {acx acx' : Acx} {u : Unit} {code : List Insn}
    (sound : acx.st.Sound) (run : analyzeSubprog d acx = .ok (u, acx', code)) :
    Inserts acx.st acx'.st [] := by
  have ran := analyzeSubprog_run d run
  have same : SameScopes acx.st acx'.st := ran.scopes
  apply Inserts.none_
  · rw [same.innermost]
  · exact same.vars
  · intro i v found
    obtain ⟨w, there, name, -⟩ := (ran.steps sound).vars found
    exact ⟨w, there, name⟩

theorem analyzeSubprogs_enters {subprogs : List AstSubdecl} {acx acx' : Acx} {u : Unit}
    {code : List Insn} (sound : acx.st.Sound)
    (run : analyzeSubprogs subprogs acx = .ok (u, acx', code)) :
    ∃ ins, Inserts acx.st acx'.st ins ∧ ins.map Prod.fst = signatureNames subprogs ∧
      ∀ i, SignatureOf i subprogs acx ↔ i ∈ ins.map Prod.snd := by
  induction subprogs generalizing acx code with
  | nil =>
    simp only [analyzeSubprogs, pure_eq_ok] at run
    obtain ⟨-, rfl, -⟩ := run
    refine ⟨[], (Inserts.same rfl rfl).1, rfl, ?_⟩
    intro i
    constructor
    · rintro ⟨⟩
    · exact fun member => absurd member List.not_mem_nil
  | cons d subprogs ih =>
    obtain ⟨st, acx₁, code₁, code₂, added, first, rest, -⟩ := analyzeSubprogs_cons run
    have steps : StabSteps acx.table (st, acx.dispOffset) := stabAddFunc_steps acx.dispOffset sound added
    have sound₁ : st.Sound := steps.sound sound
    have sound₂ := ((analyzeSubprog_run d first).steps sound₁).sound sound₁
    obtain ⟨ins₁, enters₁, complete, names₁⟩ := stabAddFunc_enters added
    obtain ⟨ins₂, enters₂, names₂, signatures⟩ := ih sound₂ rest
    have inner : Inserts st acx₁.st [] := analyzeSubprog_enters (show (acx.setSt st).st.Sound from sound₁) first
    refine ⟨ins₁ ++ ins₂, ?_, ?_, ?_⟩
    · have whole := (enters₁.trans inner).trans enters₂
      rw [List.append_nil] at whole
      exact whole
    · rw [List.map_append, names₁, names₂]
      rfl
    · intro i
      rw [List.map_append, List.mem_append, ← signatures i]
      constructor
      · intro signature
        cases signature with
        | here added' pushed =>
          obtain rfl := Except.ok.inj (added.symm.trans added')
          exact .inl (complete i pushed)
        | later added' first' later =>
          obtain rfl := Except.ok.inj (added.symm.trans added')
          cases Except.ok.inj (first.symm.trans first')
          exact .inr later
      · rintro (member | later)
        · obtain ⟨b, inside, rfl⟩ := List.mem_map.mp member
          exact .here added (enters₁.fresh b inside)
        · exact .later added first later

/-! ## One object for a name -/

/-- In the scope of a subprogram the formals, the locals and the return slot have distinct names,
and every variable that was entered is still what its name is bound to: none has been replaced. -/
structure OneObject (d : AstSubdecl) (start inner : Acx) : Prop where
  distinct : d.ownNames.Nodup
  bound : ∀ i v, DeclaredIn i d start → stabVar inner.st i = some v →
    inner.st.innermost.vars.lookup v.name = i

/-- Neither the return slot nor a formal of a nested signature has a name of something entered
before. -/
structure AstSubdecl.Separate (d : AstSubdecl) : Prop where
  slot : d.name ∉ d.head.args.flatMap AstDecls.names ++ d.decls.flatMap AstDecls.names
  signatures : (signatureNames d.subprogs).Nodup
  apart : ∀ n ∈ signatureNames d.subprogs, n ∉ d.ownNames

theorem Parts.distinct_iff {d : AstSubdecl} {start inner : Acx} {retslot : Index} {off : Int}
    {nested own : List Insn} (parts : Parts d start inner retslot off nested own)
    (sound : start.st.Sound) : OneObject d start inner ↔ d.Separate := by
  obtain ⟨acx, opened, ran⟩ := parts.nested
  have sound₁ : acx.st.Sound := (openSubprog_steps sound opened).sound sound
  obtain ⟨st, enters, same, -⟩ := openSubprog_eq_ok.mp opened
  have distinct := enters.nodup
  obtain ⟨ins, entered, complete, names⟩ := enters.enters
  obtain ⟨ins', entered', names', signatures⟩ := analyzeSubprogs_enters sound₁ ran
  have table : acx.st = st := by rw [same]; rfl
  rw [← table] at entered complete
  have whole := entered.trans entered'
  -- the variables of the scope are those of the bindings
  have declared : ∀ i, DeclaredIn i d start ↔ i ∈ (ins ++ ins').map Prod.snd := by
    intro i
    rw [List.map_append, List.mem_append, ← signatures i]
    constructor
    · rintro ⟨slot, acx', opening, again, pushed⟩
      cases Except.ok.inj (opened.symm.trans again)
      exact pushed.imp_left (complete i)
    · intro member
      refine ⟨_, acx, _, opened, member.imp_left ?_⟩
      intro inside
      obtain ⟨b, here, rfl⟩ := List.mem_map.mp inside
      exact entered.fresh b here
  have bound : (∀ i v, DeclaredIn i d start → stabVar inner.st i = some v →
      inner.st.innermost.vars.lookup v.name = i) ↔ (d.ownNames ++ signatureNames d.subprogs).Nodup := by
    rw [← names, ← names', ← List.map_append, ← bindAll_iff whole.ids, ← whole.lookup]
    constructor
    · intro each b member
      obtain ⟨v, found, name⟩ := whole.names b member
      rw [← name]
      exact each b.2 v ((declared b.2).mpr (List.mem_map_of_mem member)) found
    · intro each i v inside found
      obtain ⟨b, member, rfl⟩ := List.mem_map.mp ((declared i).mp inside)
      obtain ⟨w, found', name⟩ := whole.names b member
      cases found.symm.trans found'
      rw [name]
      exact each b member
  constructor
  · rintro ⟨own_, each⟩
    obtain ⟨-, nodup, apart⟩ := List.nodup_append.mp (bound.mp each)
    refine ⟨?_, nodup, fun n member inside => apart n inside n member rfl⟩
    intro inside
    exact (List.nodup_append.mp own_).2.2 d.name inside d.name (List.mem_singleton_self _) rfl
  · rintro ⟨slot, nodup, apart⟩
    have own_ : d.ownNames.Nodup := by
      refine List.nodup_append.mpr ⟨distinct, List.nodup_singleton _, ?_⟩
      intro n member m last same
      rw [same, List.mem_singleton.mp last] at member
      exact slot member
    refine ⟨own_, bound.mpr (List.nodup_append.mpr ⟨own_, nodup, ?_⟩)⟩
    intro n inside m member same
    exact apart m member (same ▸ inside)

/-- In an accepted program the analyzer comes to every subprogram, and there a name of its scope is
one object exactly when the declaration keeps the unchecked names apart. -/
theorem oneObject_iff (prog : AstProgram) (acx : Acx) (code : List Insn)
    (accepted : analyze prog = .ok (acx, code)) (path : List Nat) (d : AstSubdecl)
    (declared : prog.subprogAt path = some d) :
    (∃ start before inner retslot off nested own, prog.Visits path d start before ∧
      Parts d start inner retslot off nested own) ∧
    ∀ start before inner retslot off nested own, prog.Visits path d start before →
      Parts d start inner retslot off nested own → (OneObject d start inner ↔ d.Separate) := by
  constructor
  · obtain ⟨start, before, inner, retslot, off, nested, own, after, visits, parts, -⟩ :=
      analyze_visits accepted declared
    exact ⟨start, before, inner, retslot, off, nested, own, visits, parts⟩
  · intro start before inner retslot off nested own visits parts
    exact parts.distinct_iff visits.sound

-- procedure q(d: integer); begin end
def nestedDecl : AstSubdecl := .mk ⟨.procedure, [⟨["d"], .integer⟩], none⟩ "q" [] [] [] .null

-- procedure p(a, b: integer); var c: integer; q of nestedDecl; begin c := a end
def nestingDecl : AstSubdecl :=
  .mk ⟨.procedure, [⟨["a", "b"], .integer⟩], none⟩ "p" [⟨["c"], .integer⟩] [nestedDecl] []
    (.assign (.path (astPath "c")) (.path (astPath "a")))

def nestingProgram : AstProgram := ⟨[], [⟨["d"], .integer⟩], [nestingDecl], [], .null⟩

theorem nestingProgram_oneObject : ∃ acx code start before inner,
    analyze nestingProgram = .ok (acx, code) ∧ nestingProgram.Visits [0] nestingDecl start before ∧
      OneObject nestingDecl start inner := by
  have accepts : (analyze nestingProgram).toOption.isSome = true := by decide +kernel
  obtain ⟨⟨acx, code⟩, result⟩ := exists_ok_of_isSome accepts
  obtain ⟨comes, same⟩ := oneObject_iff nestingProgram acx code result [0] nestingDecl rfl
  obtain ⟨start, before, inner, retslot, off, nested, own, visits, parts⟩ := comes
  refine ⟨acx, code, start, before, inner, result, visits, ?_⟩
  apply (same start before inner retslot off nested own visits parts).mpr
  exact ⟨by decide, by decide, by decide⟩

-- procedure q; var q: integer; begin end.
def selfNamed : AstSubdecl := .mk ⟨.procedure, [], none⟩ "q" [⟨["q"], .integer⟩] [] [] .null

def selfNamedProgram : AstProgram := ⟨[], [], [selfNamed], [], .null⟩

-- The return slot replaces a local of the same name.
theorem not_forall_oneObject : ¬ ∀ (prog : AstProgram) (acx : Acx) (code : List Insn),
    analyze prog = .ok (acx, code) → ∀ (path : List Nat) (d : AstSubdecl),
      prog.subprogAt path = some d → ∀ start before inner retslot off nested own,
        prog.Visits path d start before → Parts d start inner retslot off nested own →
          OneObject d start inner := by
  intro all
  have accepts : (analyze selfNamedProgram).toOption.isSome = true := by
    decide +kernel
  obtain ⟨⟨acx, code⟩, result⟩ := exists_ok_of_isSome accepts
  have declared : selfNamedProgram.subprogAt [0] = some selfNamed := rfl
  obtain ⟨start, before, inner, retslot, off, nested, own, after, visits, parts, -⟩ :=
    analyze_visits result declared
  have one := all selfNamedProgram acx code result [0] selfNamed declared start before inner retslot
    off nested own visits parts
  exact ((parts.distinct_iff visits.sound).mp one).slot (List.mem_singleton_self _)

end Dragon
