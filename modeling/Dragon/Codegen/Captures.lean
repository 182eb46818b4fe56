import Dragon.Codegen.Trace

/-! Display slots over a run.

Every call of the analyzer takes the table through steps, so what is kept by the
steps holds at every moment of a run, whether it is accepted or stops.
-/

set_option autoImplicit false

namespace Dragon

open Analysis Stab

namespace Follows

/-! ## Calls without moments -/

theorem stop_ {α : Type} (s : Stop) (acx : Acx) : Follows (stop s : Analysis α) quiet acx := stops rfl

theorem pure_ {α : Type} (a : α) (acx : Acx) : Follows (pure a : Analysis α) quiet acx := by
  apply of_table
  intro b acx' code run
  obtain ⟨-, rfl, rfl⟩ := pure_eq_ok.mp run
  exact ⟨rfl, rfl⟩

theorem emit_ {lines : List Insn} (silent : displayed lines = []) (acx : Acx) :
    Follows (emit lines) quiet acx := by
  apply of_table
  intro b acx' code run
  obtain ⟨rfl, rfl⟩ := emit_eq_ok.mp run
  exact ⟨rfl, silent⟩

theorem modify_ {f : Acx → Acx} (acx : Acx) (same : (f acx).table = acx.table) :
    Follows (modify f) quiet acx := by
  apply of_table
  intro b acx' code run
  obtain ⟨rfl, rfl⟩ := modify_eq_ok.mp run
  exact ⟨same, rfl⟩

theorem regGimme_ (acx : Acx) : Follows regGimme quiet acx := by
  apply of_table
  intro r acx' code run
  cases run
  exact ⟨rfl, displayed_gimme _⟩

theorem regTakeitback_ (r : Reg) (acx : Acx) : Follows (regTakeitback r) quiet acx := by
  apply of_table
  intro u acx' code run
  obtain ⟨rfl, rfl⟩ := regTakeitback_eq_ok.mp run
  exact ⟨rfl, displayed_takeitback _ _⟩

theorem saveRegisters_ (acx : Acx) : Follows saveRegisters quiet acx := by
  apply of_table
  intro u acx' code run
  cases run
  exact ⟨rfl, displayed_map (fun _ => rfl) _⟩

theorem nextLabel_ (acx : Acx) : Follows nextLabel quiet acx := by
  apply of_table
  intro k acx' code run
  cases run
  exact ⟨rfl, rfl⟩

theorem ofExcept_ {α : Type} (x : Except Stop α) (acx : Acx) : Follows (ofExcept x) quiet acx := by
  cases x with
  | error s => exact stops rfl
  | ok a =>
    apply of_table
    intro b acx' code run
    cases run
    exact ⟨rfl, rfl⟩

theorem withStab_ {α : Type} {g : Stab → Except Stop (α × Stab)} (acx : Acx)
    (since : ∀ a st, g acx.st = .ok (a, st) → Since acx.table [] (st, acx.dispOffset)) :
    Follows (withStab g) quiet acx := by
  apply of_quiet
  intro a acx' code run
  obtain ⟨st, found, rfl, rfl⟩ := withStab_eq_ok.mp run
  exact ⟨since a st found, rfl, rfl⟩

theorem emit_bind {α : Type} {lines : List Insn} {f : Unit → Analysis α} {t : Tracer} {acx : Acx}
    (silent : displayed lines = []) (rest : Follows (f ()) t acx) :
    Follows (emit lines >>= f) t acx := skip rfl silent rest

theorem single {α : Type} {x : Analysis α} {c : Call} {acx : Acx}
    (start : (⟨c, acx⟩ : Moment).Settles)
    (ends : ∀ a acx' code, x acx = .ok (a, acx', code) →
      Ends acx.table [⟨c, acx⟩] acx'.table code) : Follows x (here c) acx where
  since m member := by
    rw [List.mem_singleton.mp member]
    exact .refl
  settled m member := by
    rw [List.mem_singleton.mp member]
    exact start
  ordered := List.pairwise_singleton ..
  ended := ends

theorem leaf {α : Type} {x : Analysis α} {c : Call} {acx : Acx} (sound : acx.st.Sound)
    (start : (⟨c, acx⟩ : Moment).Settles)
    (ends : ∀ a acx' code, x acx = .ok (a, acx', code) →
      Ends acx.table [⟨c, acx⟩] acx'.table code) : Follows x (Dragon.traced c x quiet) acx :=
  ((single start ends).finish sound).congr rfl

theorem ends_of_table {c : Call} {acx : Acx} {code : List Insn}
    (start : (⟨c, acx⟩ : Moment).settled = acx.table)
    (printed : (⟨c, acx⟩ : Moment).displayed = displayed code) (returned : c.Returns acx) :
    Ends acx.table [⟨c, acx⟩] acx.table code := by
  refine ⟨.refl, ?_, ?_, fun i v found _ => .inl found, List.forall_mem_singleton.mpr returned⟩
  · rw [List.forall_mem_singleton, start]
  · rw [List.flatMap_singleton, printed]

end Follows

/-! ## Paths -/

theorem Acx.use_keeps (acx : Acx) (name : Name) (idx : Index) (v : StabVar) :
    KeepsFuncs acx.st (acx.use name idx v).st := by
  unfold Acx.use
  split
  · exact .of_innermost rfl rfl
  · exact .refl _

theorem follows_address (name : Name) (reg : Reg) {acx : Acx} (sound : acx.st.Sound)
    (resolved : stabResolveVar acx.st name ≠ resolveFailure) :
    Follows (pathAddress name (stabResolveVar acx.st name) reg)
      (traced (.address name reg) (pathAddress name (stabResolveVar acx.st name) reg) quiet) acx := by
  apply Follows.leaf sound
  · refine ⟨?_, fun v inside => absurd inside List.not_mem_nil, ?_⟩
    · simp only [Moment.settled]
      split
      next => exact .refl
      next run => exact (pathAddress_loaded run).steps
    · intro i use
      simp only [Moment.nonlocal] at use
      split at use
      next =>
        cases use
        exact (sound.resolveVar name).resolve_left resolved
      next => cases use
  · intro v acx' code run
    have since : Since acx.table [] acx'.table := by
      have steps := (pathAddress_loaded run).steps
      obtain ⟨w, -, rfl, -⟩ := pathAddress_run run
      exact .of_keeps steps (acx.use_keeps _ _ _)
    refine ⟨since.mono (List.nil_subset _), ?_, ?_, ?_, List.forall_mem_singleton.mpr trivial⟩
    · rw [List.forall_mem_singleton]
      simp only [Moment.settled, run]
      exact .refl
    · rw [List.flatMap_singleton]
      simp only [Moment.displayed, Analysis.displayed, run]
    · intro i w found captured
      by_cases nonlocal : stabHasLocalVar acx.st name = false
      · by_cases same : i = stabResolveVar acx.st name
        · refine .inr ⟨_, List.mem_singleton_self _, ?_⟩
          simp only [Moment.nonlocal, nonlocal, if_true, same]
        · obtain ⟨v₀, found₀, rfl, -⟩ := pathAddress_run run
          unfold Acx.use at found
          split at found
          next =>
            change stabVar (acx.st.setVar _ _) i = some w at found
            rw [stabVar_setVar (arenaGet_lt found₀).1 found₀, if_neg same] at found
            exact .inl found
          next => exact .inl found
      · obtain ⟨rfl, -⟩ := pathAddress_local run nonlocal
        exact .inl found

theorem follows_path (p : AstPath) (rv : Bool) {acx : Acx} (sound : acx.st.Sound) :
    Follows (typeOfPath p rv) (pathTrace p rv) acx := by
  apply Follows.traced sound rfl ⟨rfl, rfl⟩ rfl id
  unfold typeOfPath
  apply Follows.get_bind
  dsimp only
  by_cases unresolved : stabResolveVar acx.st p.first = resolveFailure
  · rw [if_pos unresolved]
    apply (Follows.stop_ _ acx).congr
    rw [if_pos unresolved]
    rfl
  · rw [if_neg unresolved]
    apply Follows.congr (t := regGimme.follow quiet fun reg => traced (.address p.first reg)
      (pathAddress p.first (stabResolveVar acx.st p.first) reg) quiet)
    · rw [if_neg unresolved]
    apply Follows.bind sound (Follows.regGimme_ acx)
    intro reg acx₁ code taken sound₁
    have same : acx₁.st = acx.st := by
      cases taken
      rfl
    rw [← same]
    apply Follows.last sound₁ (follows_address p.first reg sound₁ (same ▸ unresolved))
    intro v acx₂ code₂ _ _
    apply Follows.of_table
    intro r acx₃ code₃ run
    obtain ⟨t, -, run⟩ := ofOption_bind_eq_ok.mp run
    obtain ⟨u, acx₄, lines, loaded, loop, last, rfl⟩ := bind_eq_ok.mp run
    simp only [emit_bind_eq_ok, pure_eq_ok] at last
    obtain ⟨_, ⟨-, rfl, rfl⟩, rfl⟩ := last
    obtain ⟨rfl, -⟩ := fieldLoop_run loop
    rw [displayed_append, displayed_fieldLoop loop]
    cases rv <;> exact ⟨rfl, rfl⟩

/-! ## Calls -/

def ActualsFollow (args : List TracedActual) : Prop :=
  ∀ e ∈ args, ∀ rv acx, acx.st.Sound → Follows (e.actual.run rv) (e.trace rv) acx

theorem follows_routineCall {newline : List Insn} (silent : displayed newline = []) (which : Name)
    (r : Resu) (acx : Acx) : Follows (routineCall which r newline) quiet acx := by
  unfold routineCall
  split
  next => exact Follows.stop_ _ acx
  next =>
    apply Follows.emit_bind
    · rw [displayed_append, silent]
      rfl
    · exact Follows.regTakeitback_ r.reg acx

theorem follows_writes {args : List TracedActual} (each : ActualsFollow args) {acx : Acx}
    (sound : acx.st.Sound) :
    Follows (writeArgs (args.map TracedActual.actual)) (writesTrace args) acx := by
  induction args generalizing acx with
  | nil => exact Follows.pure_ () acx
  | cons e args ih =>
    rw [ActualsFollow, List.forall_mem_cons] at each
    apply Follows.bind sound (each.1 true acx sound)
    intro r acx₁ code _ sound₁
    apply Follows.bind sound₁ (follows_routineCall rfl "write" r acx₁)
    intro u acx₂ code₂ _ sound₂
    exact ih each.2 sound₂

theorem follows_reads {newline : List Insn} (silent : displayed newline = [])
    {args : List TracedActual} (each : ActualsFollow args) {acx : Acx} (sound : acx.st.Sound) :
    Follows (readArgs newline (args.map TracedActual.actual)) (readsTrace newline args) acx := by
  induction args generalizing acx with
  | nil => exact Follows.pure_ () acx
  | cons e args ih =>
    rw [ActualsFollow, List.forall_mem_cons] at each
    rw [List.map_cons, readArgs, readsTrace]
    split
    next =>
      apply Follows.bind sound (each.1 false acx sound)
      intro r acx₁ code _ sound₁
      apply Follows.bind sound₁ (follows_routineCall silent "read" r acx₁)
      intro u acx₂ code₂ _ sound₂
      exact ih each.2 sound₂
    next => exact Follows.stop_ _ acx

theorem follows_actuals {args : List TracedActual} (each : ActualsFollow args) (formals : List Index)
    {acx : Acx} (sound : acx.st.Sound) :
    Follows (pushActuals (args.map TracedActual.actual) formals) (actualsTrace args formals) acx := by
  induction args generalizing acx formals with
  | nil => exact Follows.pure_ () acx
  | cons e args ih =>
    rw [ActualsFollow, List.forall_mem_cons] at each
    cases formals with
    | nil => exact Follows.pure_ () acx
    | cons ft formals =>
      apply Follows.bind sound (each.1 true acx sound)
      intro et acx₁ code _ sound₁
      apply Follows.get_bind
      cases found : stabVar acx₁.st ft with
      | none =>
        apply Follows.congr (t := quiet)
        · simp only [found, quiet]
        · exact Follows.stops rfl
      | some v =>
        apply Follows.congr (t := (ofExcept (stabTypesEq acx₁.st et.type v.type)).follow
          (here (.typesEq et.type v.type)) fun _ =>
            (emit [.push et.reg.name]).follow quiet fun _ => actualsTrace args formals)
        · simp only [found]
        apply Follows.pure_bind (a := v)
        apply Follows.bind sound₁
        · exact Follows.cons rfl ⟨rfl, rfl⟩ rfl (fun _ => trivial) (Follows.ofExcept_ _ acx₁)
        · intro b acx₂ code₂ _ sound₂
          apply Follows.bind sound₂ (Follows.emit_ rfl acx₂)
          intro u acx₃ code₃ _ sound₃
          exact ih each.2 formals sound₃

theorem follows_magic (which : Magic) {args : List TracedActual} (each : ActualsFollow args)
    {acx : Acx} (sound : acx.st.Sound) :
    Follows (analyzeMagic which (args.map TracedActual.actual)) (magicTrace which args) acx := by
  cases which with
  | write => exact follows_writes each sound
  | writeln =>
    apply Follows.last sound (follows_writes each sound)
    exact fun _ acx' _ _ _ => Follows.emit_ rfl acx'
  | read => exact follows_reads rfl each sound
  | readln => exact follows_reads rfl each sound

theorem follows_call (p : AstPath) {args : List TracedActual} (each : ActualsFollow args) {acx : Acx}
    (sound : acx.st.Sound) :
    Follows (analyzeCall p (args.map TracedActual.actual)) (calleeTrace p args) acx := by
  unfold analyzeCall
  by_cases dotted : p.rest = []
  · rw [if_neg (not_not.mpr dotted)]
    apply Follows.get_bind
    dsimp only
    by_cases unresolved : stabResolveFunc acx.st p.first = resolveFailure
    · rw [if_pos unresolved]
      apply (Follows.stop_ _ acx).congr
      simp only [quiet, calleeTrace, calleeOf, unresolved, ne_eq, not_true_eq_false, and_false,
        if_false]
    · rw [if_neg unresolved]
      have callee : calleeOf acx.st p = stabType acx.st (stabResolveFunc acx.st p.first) := by
        rw [calleeOf, if_pos ⟨dotted, unresolved⟩]
      cases found : stabType acx.st (stabResolveFunc acx.st p.first) with
      | none =>
        apply Follows.congr (t := quiet)
        · simp only [quiet, calleeTrace, callee, found]
        · exact Follows.stops rfl
      | some pt =>
        apply Follows.pure_bind (a := pt)
        cases isMagic : pt.magic with
        | some which =>
          apply Follows.congr (t := magicTrace which args)
          · simp only [calleeTrace, callee, found, isMagic]
          apply Follows.last sound (follows_magic which each sound)
          exact fun _ acx' _ _ _ => Follows.pure_ _ acx'
        | none =>
          cases shape : pt.ty with
          | func type formals retty =>
            by_cases many : args.length = formals.length
            · apply Follows.congr
                (t := saveRegisters.follow quiet fun _ => actualsTrace args formals)
              · simp only [calleeTrace, callee, found, isMagic, shape, many, ne_eq,
                  not_true_eq_false, if_false]
              simp only [callSubprog, shape, List.length_map, many, ne_eq, not_true_eq_false,
                if_false]
              apply Follows.bind sound (Follows.saveRegisters_ acx)
              intro u acx₁ code _ sound₁
              apply Follows.last sound₁ (follows_actuals each formals sound₁)
              intro u acx₂ code₂ _ _
              apply Follows.of_table
              intro r acx₃ code₃ run
              simp only [regGimme_bind_eq_ok, emit_bind_eq_ok, restoreRegistersExcept_bind_eq_ok,
                pure_eq_ok] at run
              obtain ⟨_, ⟨_, ⟨_, ⟨-, rfl, rfl⟩, rfl⟩, rfl⟩, rfl⟩ := run
              refine ⟨rfl, ?_⟩
              have entered : displayed (enterCall p.first formals.length) = [] := by
                unfold enterCall
                split <;> rfl
              have pops := @displayed_map (fun i => .pop (REGS i)) fun _ => rfl
              simp only [displayed_append, displayed_gimme, entered, pops]
              rfl
            · apply Follows.congr (t := quiet)
              · simp only [quiet, calleeTrace, callee, found, isMagic, shape, many, ne_eq,
                  not_false_eq_true, if_true]
              apply Follows.stops
              simp only [callSubprog, shape, List.length_map, many, ne_eq, not_false_eq_true, if_true]
              rfl
          | _ =>
            apply Follows.congr (t := quiet)
            · simp only [quiet, calleeTrace, callee, found, isMagic, shape]
            apply Follows.stops
            simp only [callSubprog, shape]
            rfl
  · rw [if_pos dotted]
    apply (Follows.stop_ _ acx).congr
    simp only [quiet, calleeTrace, calleeOf, dotted, false_and, if_false]

/-! ## Expressions -/

theorem map_argsTrace (args : List AstExpr) :
    (argsTrace args).map TracedActual.actual = analyzeArgs args := by
  induction args with
  | nil => rfl
  | cons e args ih => rw [argsTrace, List.map_cons, ih, analyzeArgs]

mutual

theorem follows_expr : ∀ (e : AstExpr) (rv : Bool) {acx : Acx}, acx.st.Sound →
    Follows (analyzeExpr e rv) (exprTrace e rv) acx
  | .app p args, rv, acx, sound => by
      apply Follows.traced sound rfl ⟨rfl, rfl⟩ rfl id
      apply Follows.traced sound rfl ⟨rfl, rfl⟩ rfl id
      have call := follows_call p (follows_args args) sound
      rw [map_argsTrace] at call
      exact call
  | .bin op left right, rv, acx, sound => by
      apply Follows.traced sound rfl ⟨rfl, rfl⟩ rfl id
      apply Follows.bind sound (follows_expr left true sound)
      intro lty acx₁ code _ sound₁
      apply Follows.last sound₁ (follows_expr right true sound₁)
      intro rty acx₂ code₂ _ _
      apply Follows.of_table
      intro r acx₃ code₃ run
      simp only [checkOperands_bind_eq_ok, ofExcept_bind_eq_ok, emit_bind_eq_ok,
        regTakeitback_bind_eq_ok, pure_eq_ok] at run
      obtain ⟨-, lines, print, _, ⟨_, ⟨-, rfl, rfl⟩, rfl⟩, rfl⟩ := run
      rw [displayed_append, displayed_append, displayed_binCode print, displayed_takeitback]
      exact ⟨rfl, rfl⟩
  | .deref (.path p), rv, acx, sound => by
      apply Follows.traced sound rfl ⟨rfl, rfl⟩ rfl id
      apply Follows.last sound (follows_path p false sound)
      intro pathty acx₁ code _ _
      apply Follows.of_table
      intro r acx₂ code₂ run
      simp only [get_bind_eq_ok, ofOption_bind_eq_ok] at run
      obtain ⟨st, -, run⟩ := run
      cases shape : st.ty with
      | pointer target =>
        simp only [shape, emit_bind_eq_ok, pure_eq_ok] at run
        obtain ⟨_, ⟨-, rfl, rfl⟩, rfl⟩ := run
        exact ⟨rfl, rfl⟩
      | _ => simp [shape] at run
  | .idx p e, rv, acx, sound => by
      apply Follows.traced sound rfl ⟨rfl, rfl⟩ rfl id
      apply Follows.bind sound (follows_path p false sound)
      intro pathty acx₁ code _ sound₁
      apply Follows.get_bind
      cases found : stabType acx₁.st pathty.type with
      | none =>
        apply Follows.congr (t := quiet)
        · simp only [found, quiet, Option.map_none]
        · exact Follows.stops rfl
      | some pt =>
        apply Follows.pure_bind (a := pt)
        cases shape : pt.ty with
        | array lower upper elt =>
          apply Follows.congr (t := exprTrace e true)
          · simp only [found, Option.map_some, shape]
          apply Follows.last sound₁ (follows_expr e true sound₁)
          intro ety acx₂ code₂ _ _
          apply Follows.of_table
          intro r acx₃ code₃ run
          split at run
          next => simp at run
          next =>
            simp only [emit_bind_eq_ok, pure_eq_ok] at run
            obtain ⟨_, ⟨-, rfl, rfl⟩, rfl⟩ := run
            cases rv <;> exact ⟨rfl, rfl⟩
        | _ =>
          apply Follows.congr (t := quiet)
          · simp only [found, quiet, Option.map_some, shape]
          · exact Follows.stops rfl
  | .path p, rv, acx, sound => by
      apply Follows.traced sound rfl ⟨rfl, rfl⟩ rfl id
      exact follows_path p rv sound
  | .un op e, rv, acx, sound => by
      apply Follows.traced sound rfl ⟨rfl, rfl⟩ rfl id
      apply Follows.last sound (follows_expr e true sound)
      intro ety acx₁ code _ _
      apply Follows.of_table
      intro r acx₂ code₂ run
      split at run
      next => simp at run
      next =>
        split at run
        next => simp at run
        next =>
          simp only [emit_bind_eq_ok, pure_eq_ok] at run
          obtain ⟨_, ⟨-, rfl, rfl⟩, rfl⟩ := run
          exact ⟨rfl, rfl⟩
  | .deref (.app ..), rv, acx, sound | .deref (.bin ..), rv, acx, sound
  | .deref (.deref _), rv, acx, sound | .deref (.idx ..), rv, acx, sound
  | .deref (.un ..), rv, acx, sound | .deref (.lit _), rv, acx, sound
  | .deref (.addrof _), rv, acx, sound => by
      apply Follows.traced sound rfl ⟨rfl, rfl⟩ rfl id
      exact Follows.stops rfl
  | .lit s, rv, acx, sound => by
      apply Follows.traced sound rfl ⟨rfl, rfl⟩ rfl id
      apply Follows.of_table
      intro r acx₁ code run
      simp only [analyzeExpr, regGimme_bind_eq_ok, emit_bind_eq_ok, pure_eq_ok] at run
      obtain ⟨_, ⟨_, ⟨-, rfl, rfl⟩, rfl⟩, rfl⟩ := run
      rw [displayed_append, displayed_gimme]
      exact ⟨rfl, rfl⟩
  | .addrof e, rv, acx, sound => by
      apply Follows.traced sound rfl ⟨rfl, rfl⟩ rfl id
      exact Follows.stops rfl

theorem follows_args : ∀ args : List AstExpr, ActualsFollow (argsTrace args)
  | [] => fun _ member => absurd member List.not_mem_nil
  | e :: args => by
      rw [argsTrace, ActualsFollow, List.forall_mem_cons]
      exact ⟨fun rv _ sound => follows_expr e rv sound, follows_args args⟩

end

/-! ## Statements -/

theorem follows_checkRoot (name : Name) (acx : Acx) : Follows (checkRoot name) quiet acx := by
  apply Follows.get_bind
  split
  next => exact Follows.stop_ _ acx
  next => exact Follows.modify_ acx rfl

theorem follows_checkTarget : ∀ (e : AstExpr) {acx : Acx}, acx.st.Sound →
    Follows (checkTarget e) quiet acx
  | .path p, acx, _ => follows_checkRoot p.first acx
  | .idx p _, acx, sound => by
      apply Follows.last sound (follows_checkRoot p.first acx)
      exact fun _ acx' _ _ _ => follows_checkRoot p.first acx'
  | .deref e, acx, sound => by
      apply Follows.last sound (follows_checkTarget e sound)
      exact fun _ acx' _ _ _ => Follows.stop_ _ acx'
  | .app .., acx, _ | .bin .., acx, _ | .un .., acx, _ | .lit _, acx, _ | .addrof _, acx, _ =>
      Follows.stop_ _ acx

theorem follows_target (e : AstExpr) {acx : Acx} (sound : acx.st.Sound) :
    Follows (checkAssignability e) (traced (.target e) (checkAssignability e) quiet) acx := by
  apply Follows.traced sound rfl ⟨rfl, rfl⟩ rfl id
  apply Follows.get_bind
  split
  next => exact Follows.pure_ () acx
  next => exact follows_checkTarget e sound

theorem follows_cond (cond : AstExpr) (message : String) {acx : Acx} (sound : acx.st.Sound) :
    Follows (analyzeCond cond message) (exprTrace cond true) acx := by
  apply Follows.last sound (follows_expr cond true sound)
  intro cty acx₁ code _ _
  split
  next => exact Follows.stop_ _ acx₁
  next => exact Follows.pure_ _ acx₁

theorem follows_assign (lvalue rvalue : AstExpr) {acx : Acx} (sound : acx.st.Sound) :
    Follows (analyzeStmt (.assign lvalue rvalue)) (assignTrace lvalue rvalue) acx := by
  apply Follows.bind sound (follows_expr lvalue false sound)
  intro lty acx₁ code _ sound₁
  apply Follows.bind sound₁ (follows_target lvalue sound₁)
  intro u acx₂ code₂ _ sound₂
  apply Follows.bind sound₂ (follows_expr rvalue true sound₂)
  intro rty acx₃ code₃ _ _
  apply Follows.get_bind
  refine Follows.cons rfl ⟨rfl, rfl⟩ rfl (fun _ => trivial) ?_
  apply Follows.of_table
  intro v acx₄ code₄ run
  simp only [ofExcept_bind_eq_ok] at run
  obtain ⟨same, -, run⟩ := run
  split at run
  next => simp at run
  next =>
    simp only [emit_bind_eq_ok, regTakeitback_bind_eq_ok, regTakeitback_eq_ok] at run
    obtain ⟨_, ⟨_, ⟨rfl, rfl⟩, rfl⟩, rfl⟩ := run
    rw [displayed_append, displayed_append, displayed_takeitback, displayed_takeitback]
    exact ⟨rfl, rfl⟩

theorem follows_enter (acx : Acx) :
    Follows (modify fun acx => acx.setSt (stabEnter acx.st)) (here (.declare .enter)) acx := by
  refine Follows.cons rfl ⟨rfl, rfl⟩ rfl (fun _ => trivial) ?_
  apply Follows.of_quiet
  intro u acx' code run
  obtain ⟨rfl, rfl⟩ := modify_eq_ok.mp run
  exact ⟨.of_keeps (.single .enter) (.enter _), rfl, rfl⟩

theorem follows_leave (acx : Acx) :
    Follows (withStab fun st => do return ((), ← stabLeave st)) (here (.declare .leave)) acx := by
  refine Follows.cons rfl ⟨rfl, rfl⟩ rfl (fun _ => trivial) ?_
  apply Follows.withStab_
  intro u st found
  obtain ⟨st', left, same⟩ := except_bind_eq_ok.mp found
  cases same
  exact .of_keeps (.single (.leave left)) (.leave left)

mutual

theorem follows_stmt : ∀ (s : AstStmt) {acx : Acx}, acx.st.Sound →
    Follows (analyzeStmt s) (stmtTrace s) acx
  | .null, acx, sound => by
      apply Follows.traced sound rfl ⟨rfl, rfl⟩ rfl id
      exact Follows.pure_ () acx
  | .assign lvalue rvalue, acx, sound => by
      apply Follows.traced sound rfl ⟨rfl, rfl⟩ rfl id
      exact follows_assign lvalue rvalue sound
  | .foor id start finish body, acx, sound => by
      refine Follows.traced sound rfl ⟨rfl, rfl⟩ rfl (fun returns => returns) ?_
      apply Follows.bind sound (follows_expr start true sound)
      intro sty acx₁ code₁ _ sound₁
      apply Follows.bind sound₁ (follows_expr finish true sound₁)
      intro ety acx₂ code₂ _ sound₂
      by_cases integers : sty.type ≠ integerTypeIdx ∨ ety.type ≠ integerTypeIdx
      · rw [if_pos integers]
        by_cases first : sty.type = integerTypeIdx
        · rw [if_neg (not_not.mpr first), if_pos (integers.resolve_left (not_not.mpr first))]
          exact Follows.stop_ _ acx₂
        · rw [if_pos first]
          exact Follows.stop_ _ acx₂
      · rw [if_neg integers, if_neg (not_or.mp integers).1, if_neg (not_or.mp integers).2]
        apply Follows.bind sound₂ (follows_path (astPath id) false sound₂)
        intro ity acx₃ code₃ _ sound₃
        split
        next => exact Follows.stop_ _ acx₃
        next =>
          apply Follows.bind sound₃ (follows_enter acx₃)
          intro u acx₄ code₄ _ sound₄
          apply Follows.emit_bind rfl
          apply Follows.bind sound₄ (Follows.nextLabel_ acx₄)
          intro l₀ acx₅ code₅ _ sound₅
          apply Follows.bind sound₅ (Follows.nextLabel_ acx₅)
          intro l₁ acx₆ code₆ _ sound₆
          apply Follows.emit_bind rfl
          apply Follows.bind sound₆ (follows_stmt body sound₆)
          intro u acx₇ code₇ _ sound₇
          apply Follows.emit_bind rfl
          apply Follows.bind sound₇ (Follows.regTakeitback_ ety.reg acx₇)
          intro u acx₈ code₈ _ sound₈
          apply Follows.bind sound₈ (Follows.regTakeitback_ sty.reg acx₈)
          intro u acx₉ code₉ _ _
          exact follows_leave acx₉
  | .ite cond thenn elze, acx, sound => by
      apply Follows.traced sound rfl ⟨rfl, rfl⟩ rfl id
      apply Follows.bind sound (follows_cond cond _ sound)
      intro cty acx₁ code₁ _ sound₁
      apply Follows.bind sound₁ (Follows.nextLabel_ acx₁)
      intro l₀ acx₂ code₂ _ sound₂
      apply Follows.bind sound₂ (Follows.nextLabel_ acx₂)
      intro l₁ acx₃ code₃ _ sound₃
      apply Follows.emit_bind rfl
      apply Follows.bind sound₃ (Follows.regTakeitback_ cty.reg acx₃)
      intro u acx₄ code₄ _ sound₄
      apply Follows.bind sound₄ (follows_stmt thenn sound₄)
      intro u acx₅ code₅ _ sound₅
      apply Follows.emit_bind rfl
      apply Follows.last sound₅ (follows_stmt elze sound₅)
      exact fun _ acx' _ _ _ => Follows.emit_ rfl acx'
  | .proc p args, acx, sound => by
      apply Follows.traced sound rfl ⟨rfl, rfl⟩ rfl id
      have call := follows_call p (follows_args args) sound
      rw [map_argsTrace] at call
      apply Follows.last sound (Follows.traced sound rfl ⟨rfl, rfl⟩ rfl id call)
      exact fun cty acx' _ _ _ => Follows.regTakeitback_ cty.reg acx'
  | .stmts body, acx, sound => by
      apply Follows.traced sound rfl ⟨rfl, rfl⟩ rfl id
      exact follows_stmts body sound
  | .wdo cond body, acx, sound => by
      apply Follows.traced sound rfl ⟨rfl, rfl⟩ rfl id
      apply Follows.bind sound (Follows.nextLabel_ acx)
      intro l₀ acx₁ code₁ _ sound₁
      apply Follows.bind sound₁ (Follows.nextLabel_ acx₁)
      intro l₁ acx₂ code₂ _ sound₂
      apply Follows.emit_bind rfl
      apply Follows.bind sound₂ (follows_cond cond _ sound₂)
      intro cty acx₃ code₃ _ sound₃
      apply Follows.emit_bind rfl
      apply Follows.bind sound₃ (Follows.regTakeitback_ cty.reg acx₃)
      intro u acx₄ code₄ _ sound₄
      apply Follows.last sound₄ (follows_stmt body sound₄)
      exact fun _ acx' _ _ _ => Follows.emit_ rfl acx'

theorem follows_stmts : ∀ (body : List AstStmt) {acx : Acx}, acx.st.Sound →
    Follows (analyzeStmts body) (stmtsTrace body) acx
  | [], acx, _ => Follows.pure_ () acx
  | s :: body, acx, sound => by
      apply Follows.bind sound (follows_stmt s sound)
      intro u acx₁ code _ sound₁
      exact follows_stmts body sound₁

end

/-! ## Subprograms -/

theorem withStab_bind {α β : Type} {g : Stab → Except Stop (α × Stab)}
    {h : α → Stab → Except Stop (β × Stab)} {acx : Acx} :
    withStab (fun st => g st >>= fun r => h r.1 r.2) acx =
      (withStab g >>= fun a => withStab (h a)) acx := by
  change _ = andThen (withStab g) (fun a => withStab (h a)) acx
  cases first : g acx.st with
  | error s => simp only [withStab, andThen, first, Bind.bind, Except.bind]
  | ok r =>
    cases second : h r.1 r.2 with
    | error s => simp only [withStab, andThen, first, Bind.bind, Except.bind, second, Acx.setSt]
    | ok r' =>
      simp only [withStab, andThen, first, Bind.bind, Except.bind, second, Acx.setSt,
        List.append_nil]

theorem Follows.of_eq {α : Type} {x y : Analysis α} {t : Tracer} {acx : Acx} (same : y acx = x acx)
    (rest : Follows x t acx) : Follows y t acx :=
  ⟨rest.since, rest.settled, rest.ordered, fun a acx' code run => rest.ended a acx' code (same ▸ run)⟩

theorem withStab_types (t : AstTypeDecl) (types : List AstTypeDecl) (acx : Acx) :
    (withStab fun st => do return ((), ← stabAddAllTypes st (t :: types))) acx =
      (addType t >>= fun _ => withStab fun st => do return ((), ← stabAddAllTypes st types)) acx := by
  rw [addType, ← withStab_bind]
  apply congrFun
  congr 1
  funext st
  simp only [stabAddAllTypes]
  cases stabAddType st t.name t.type <;> rfl

theorem follows_addType (t : AstTypeDecl) {acx : Acx} (sound : acx.st.Sound) :
    Follows (addType t) (here (.declare (.type t))) acx := by
  refine Follows.cons rfl ⟨rfl, rfl⟩ rfl (fun _ => trivial) ?_
  apply Follows.withStab_
  intro u st found
  obtain ⟨st', added, same⟩ := except_bind_eq_ok.mp found
  cases same
  exact .of_keeps (stabAddType_steps acx.dispOffset sound added) (.addType added)

theorem follows_types (types : List AstTypeDecl) {acx : Acx} (sound : acx.st.Sound) :
    Follows (withStab fun st => do return ((), ← stabAddAllTypes st types)) (typesTrace types) acx := by
  induction types generalizing acx with
  | nil =>
    apply Follows.withStab_
    intro u st found
    cases found
    exact .refl
  | cons t types ih =>
    apply Follows.of_eq (withStab_types t types acx)
    apply Follows.bind sound (follows_addType t sound)
    intro u acx₁ code _ sound₁
    exact ih sound₁

theorem withStab_decls (arguments : Bool) (d : AstDecls) (decls : List AstDecls) (off : Int)
    (acx : Acx) :
    (withStab fun st => stabAddAllDecls st arguments (d :: decls) off) acx =
      ((withStab fun st => stabAddDecls st d off arguments) >>= fun off =>
        withStab fun st => stabAddAllDecls st arguments decls off) acx := by
  rw [← withStab_bind]
  rfl

theorem follows_addDecls (arguments : Bool) (d : AstDecls) (off : Int) {acx : Acx}
    (sound : acx.st.Sound) :
    Follows (withStab fun st => stabAddDecls st d off arguments) (here (.declare (.decls d arguments)))
      acx := by
  refine Follows.cons rfl ⟨rfl, rfl⟩ rfl (fun _ => trivial) ?_
  apply Follows.withStab_
  intro off' st added
  have one : stabAddAllDecls acx.st arguments [d] off = .ok (off', st) := by
    simp only [stabAddAllDecls, added]
    rfl
  exact .of_keeps (stabAddAllDecls_steps acx.dispOffset sound one) (.addDecls added)

theorem follows_decls (arguments : Bool) (decls : List AstDecls) (off : Int) {acx : Acx}
    (sound : acx.st.Sound) :
    Follows (withStab fun st => stabAddAllDecls st arguments decls off)
      (declsTrace arguments decls off) acx := by
  induction decls generalizing acx off with
  | nil =>
    apply Follows.withStab_
    intro u st found
    cases found
    exact .refl
  | cons d decls ih =>
    apply Follows.of_eq (withStab_decls arguments d decls off acx)
    apply Follows.bind sound (follows_addDecls arguments d off sound)
    intro off' acx₁ code _ sound₁
    exact ih off' sound₁

theorem follows_open (head : AstSig) (name : Name) (types : List AstTypeDecl)
    (decls : List AstDecls) {acx : Acx} (sound : acx.st.Sound) :
    Follows (openSubprog head name types decls) (openTrace head name types decls) acx := by
  apply Follows.bind sound (Follows.modify_ acx rfl)
  intro u acx₁ code₁ _ sound₁
  apply Follows.emit_bind rfl
  apply Follows.bind sound₁ (follows_enter acx₁)
  intro u acx₂ code₂ _ sound₂
  apply Follows.bind sound₂ (follows_types types sound₂)
  intro u acx₃ code₃ _ sound₃
  apply Follows.bind sound₃ (follows_decls false head.args _ sound₃)
  intro off acx₄ code₄ _ sound₄
  apply Follows.bind sound₄ (follows_decls true decls 0 sound₄)
  intro off acx₅ code₅ _ sound₅
  refine Follows.cons rfl ⟨rfl, rfl⟩ rfl (fun _ => trivial) ?_
  apply Follows.of_quiet
  intro slot acx₆ code₆ run
  simp only [withStab_bind_eq_ok, withStab_eq_ok] at run
  obtain ⟨retty, st, resolved, st', added, rfl, rfl⟩ := run
  obtain ⟨⟨id, off', st₁⟩, slotAdded, same⟩ := except_bind_eq_ok.mp added
  cases same
  have steps : StabSteps acx₅.table (st, acx₅.dispOffset) :=
    (stabResolveRetty_steps acx₅.dispOffset sound₅ resolved).1
  have since : Since acx₅.table [] (st₁, acx₅.dispOffset) :=
    .of_keeps (steps.trans (stabAddVar_steps acx₅.dispOffset slotAdded))
      ((KeepsFuncs.retty resolved).trans (.addVar slotAdded))
  exact ⟨since, rfl, rfl⟩

theorem exists_of_mem_capturedVars {st : Stab} {entries : List (BucketEntry Name)} {v : StabVar}
    (member : v ∈ capturedVars st entries) : ∃ i, stabVar st i = some v ∧ v.captured = true := by
  unfold capturedVars at member
  rw [List.mem_filter, List.mem_filterMap] at member
  obtain ⟨⟨ent, -, found⟩, captured⟩ := member
  exact ⟨ent.val, found, captured⟩

theorem follows_checkReturn (acx : Acx) : Follows checkReturn quiet acx := by
  apply Follows.get_bind
  dsimp only
  split
  next => exact Follows.stop_ _ acx
  next => exact Follows.pure_ () acx

theorem follows_own (retslot : Index) (off : Int) (body : AstStmt) {acx : Acx}
    (sound : acx.st.Sound) : Follows (ownCode retslot off body) (ownTrace retslot off body) acx := by
  apply Follows.bind sound
  · apply Follows.leaf sound ⟨.refl, fun v inside => absurd inside List.not_mem_nil,
      fun i use => by cases use⟩
    intro captured acx' code run
    obtain ⟨rfl, -⟩ := prologue_run run
    refine Follows.ends_of_table rfl ?_ trivial
    simp only [Moment.displayed, Analysis.displayed, run]
  intro captured acx₁ code₁ opened sound₁
  obtain ⟨rfl, rfl, -⟩ := prologue_run opened
  apply Follows.bind sound₁ (follows_stmt body sound₁)
  intro u acx₂ code₂ ran sound₂
  apply Follows.bind sound₂ (follows_checkReturn acx₂)
  intro u acx₃ code₃ checked sound₃
  have steps : StabSteps acx₁.table acx₃.table :=
    ((follows_stmt body sound₁).ended _ _ _ ran).steps.trans
      ((follows_checkReturn acx₂).ended _ _ _ checked).steps
  apply Follows.leaf sound₃
  · refine ⟨.refl, ?_, fun i use => by cases use⟩
    intro v member
    obtain ⟨i, found, captured⟩ := exists_of_mem_capturedVars member
    exact ⟨i, steps.kept found captured, captured⟩
  intro u acx' code run
  obtain ⟨slot, rfl, -⟩ := epilogue_run run
  refine Follows.ends_of_table rfl ?_ trivial
  simp only [Moment.displayed, Analysis.displayed, run]

theorem Stab.chain_insertFunc (st : Stab) (name : Name) (id : Index) :
    (st.insertFunc name id).chain =
      { st.innermost with funcs := st.innermost.funcs.insert name id } :: st.enclosing := rfl

theorem functions_insertFunc {s : Stab × Int} {ms : List Moment} {st st' : Stab} {d : Int} {name : Name}
    {id : Index} (keeps : KeepsFuncs s.1 st) (same : st' = st.insertFunc name id)
    (origin : Origin s ms (st', d) name id) :
    ∀ sc ∈ st'.chain, ∀ n, Origin s ms (st', d) n (sc.funcs.lookup n) := by
  have kept : ∀ sc ∈ st.chain, ∀ n, Origin s ms (st', d) n (sc.funcs.lookup n) := by
    intro sc member n
    rcases keeps sc member with empty | ⟨sc₀, open_, funcs⟩
    · rw [empty]
      exact .unbound (NameTable.lookup_empty n)
    · rw [funcs]
      exact .before open_ rfl
  intro sc member n
  rw [same, Stab.chain_insertFunc] at member
  rcases List.mem_cons.mp member with rfl | member
  · rw [NameTable.lookup_insert]
    split
    next named =>
      rw [named]
      exact origin
    next => exact kept st.innermost List.mem_cons_self n
  · exact kept sc (List.mem_cons_of_mem _ member) n

theorem stabAddFunc_resolves {st st' : Stab} {name : Name} {sig : AstSig}
    (added : stabAddFunc st name sig = .ok st') :
    ∃ st₁ id, KeepsFuncs st st₁ ∧ st' = st₁.insertFunc name id ∧ stabResolveFunc st' name = id := by
  obtain ⟨-, id, st₁, resolved, rfl⟩ := stabAddFunc_eq_ok.mp added
  refine ⟨st₁, id, .sig resolved, rfl, ?_⟩
  simp only [stabResolveSig, except_bind_eq_ok] at resolved
  obtain ⟨⟨retty, st₂⟩, -, ⟨args, st₃⟩, -, pushed⟩ := resolved
  cases pushed
  have index : (st₃.types.length : Int) ≠ -1 := by omega
  simp only [stabResolveFunc, Stab.chain_insertFunc, resolveIn, NameTable.lookup_insert_self]
  exact if_neg index

theorem follows_addFunc (d : AstSubdecl) {acx : Acx} (sound : acx.st.Sound) :
    Follows (addFunc d) (here (.declare (.func d.name d.head))) acx := by
  apply Follows.single ⟨.refl, fun v inside => absurd inside List.not_mem_nil, fun i use => by cases use⟩
  intro u acx' code run
  obtain ⟨st, found, rfl, rfl⟩ := withStab_eq_ok.mp run
  obtain ⟨st', added, same⟩ := except_bind_eq_ok.mp found
  cases same
  have steps := stabAddFunc_steps acx.dispOffset sound added
  obtain ⟨st₁, id, keeps, inserted, bound⟩ := stabAddFunc_resolves added
  refine ⟨⟨steps, functions_insertFunc keeps inserted ?_⟩, ?_, rfl, ?_,
    List.forall_mem_singleton.mpr trivial⟩
  · exact .declared (List.mem_singleton_self _) ⟨rfl, added⟩ bound .refl
  · exact List.forall_mem_singleton.mpr steps
  · exact fun i v found captured => .inl (steps.captured_before rfl found captured)

mutual

theorem follows_sub : ∀ (d : AstSubdecl) {acx : Acx}, acx.st.Sound →
    Follows (analyzeSubprog d) (subTrace d) acx
  | .mk head name decls subprogs types body, acx, sound => by
      apply Follows.traced sound rfl ⟨rfl, rfl⟩ rfl id
      apply Follows.get_bind
      apply Follows.bind sound (follows_open head name types decls sound)
      intro slot acx₁ code₁ _ sound₁
      apply Follows.bind sound₁ (follows_subs subprogs sound₁)
      intro u acx₂ code₂ _ sound₂
      apply Follows.bind sound₂ (follows_own slot.1 slot.2 body sound₂)
      intro u acx₃ code₃ _ sound₃
      apply Follows.last sound₃ (follows_leave acx₃)
      exact fun _ acx' _ _ _ => Follows.modify_ acx' rfl

theorem follows_subs : ∀ (subprogs : List AstSubdecl) {acx : Acx}, acx.st.Sound →
    Follows (analyzeSubprogs subprogs) (subsTrace subprogs) acx
  | [], acx, _ => Follows.pure_ () acx
  | d :: subprogs, acx, sound => by
      apply Follows.bind sound (follows_addFunc d sound)
      intro u acx₁ code₁ _ sound₁
      apply Follows.bind sound₁ (follows_sub d sound₁)
      intro u acx₂ code₂ _ sound₂
      exact follows_subs subprogs sound₂

end

/-! ## Programs -/

theorem stabAddMagicFunc_since (st : Stab) (which : Magic) (d : Int) :
    Since (st, d) [] (stabAddMagicFunc st which, d) := by
  refine ⟨stabAddMagicFunc_steps st which d, ?_⟩
  have pushed := sameScopes_pushType st ⟨.func .function [] 0, 0, some which⟩
  apply functions_insertFunc (.of_chain pushed.chain) rfl
  exact .magic (stabType_pushType ..) (Option.some_ne_none which)

theorem doImports_since {args : List Name} {st st' : Stab} (d : Int)
    (imports : doImports st args = .ok st') : Since (st, d) [] (st', d) :=
  doImports_preserves (fun st₁ which (before : Since (st, d) [] (st₁, d)) =>
    before.trans (stabAddMagicFunc_since st₁ which d)) .refl imports

theorem follows_imports (args : List Name) (acx : Acx) :
    Follows (withStab fun st => do return ((), ← doImports st args)) quiet acx := by
  apply Follows.withStab_
  intro u st found
  obtain ⟨st', imports, same⟩ := except_bind_eq_ok.mp found
  cases same
  exact doImports_since acx.dispOffset imports

theorem follows_openProgram (prog : AstProgram) {acx : Acx} (sound : acx.st.Sound) :
    Follows (openProgram prog) (openProgramTrace prog) acx := by
  apply Follows.emit_bind rfl
  apply Follows.bind sound (follows_imports prog.args acx)
  intro u acx₁ code₁ _ sound₁
  apply Follows.bind sound₁ (follows_types prog.types sound₁)
  intro u acx₂ code₂ _ sound₂
  exact follows_decls true prog.decls 0 sound₂

theorem follows_main (off : Int) (body : AstStmt) {acx : Acx} (sound : acx.st.Sound) :
    Follows (mainCode off body) (mainTrace body) acx := by
  apply Follows.emit_bind rfl
  apply Follows.emit_bind rfl
  apply Follows.get_bind
  apply Follows.congr (t := (storeGlobals acx.st.innermost.vars.entries).follow
    (traced .globals (storeGlobals acx.st.innermost.vars.entries) quiet) fun _ =>
      (modify fun acx => { acx with toplevel := true }).follow quiet fun _ => stmtTrace body)
  · rfl
  apply Follows.bind sound
  · apply Follows.leaf sound ⟨.refl, fun v inside => absurd inside List.not_mem_nil,
      fun i use => by cases use⟩
    intro u acx' code run
    obtain ⟨rfl, -⟩ := storeGlobals_run run
    refine Follows.ends_of_table rfl ?_ trivial
    simp only [Moment.displayed, Analysis.displayed, run]
  intro u acx₁ code₁ _ sound₁
  apply Follows.bind sound₁ (Follows.modify_ acx₁ rfl)
  intro u acx₂ code₂ _ sound₂
  apply Follows.last sound₂ (follows_stmt body sound₂)
  exact fun _ acx' _ _ _ => Follows.emit_ rfl acx'

theorem follows_program (prog : AstProgram) {acx : Acx} (sound : acx.st.Sound) :
    Follows (analyzeProgram prog) (programTrace prog) acx := by
  apply Follows.traced sound rfl ⟨rfl, rfl⟩ rfl id
  apply Follows.bind sound (follows_openProgram prog sound)
  intro off acx₁ code₁ _ sound₁
  apply Follows.bind sound₁ (follows_subs prog.subprogs sound₁)
  intro u acx₂ code₂ _ sound₂
  exact follows_main off prog.body sound₂

theorem ends_of_accepted {prog : AstProgram} {acx : Acx} {code : List Insn}
    (accepted : analyze prog = .ok (acx, code)) : Ends initialAcx.table prog.trace acx.table code := by
  unfold analyze at accepted
  split at accepted
  next => cases accepted
  next u acx' code' run =>
    cases accepted
    exact (@follows_program prog initialAcx sound_stabNew).ended _ _ _ run

theorem sound_of_mem {prog : AstProgram} {m : Moment} (member : m ∈ prog.trace) : m.acx.st.Sound :=
  ((@follows_program prog initialAcx sound_stabNew).reached m member).sound sound_stabNew

/-! ## Slots -/

theorem mem_displayed_flatMap {vars : List StabVar} {lines : StabVar → List Insn} {d : Int} :
    d ∈ displayed (vars.flatMap lines) ↔ ∃ v ∈ vars, d ∈ displayed (lines v) := by
  induction vars with
  | nil => simp
  | cons v vars ih =>
    rw [List.flatMap_cons, displayed_append, List.mem_append, ih, List.exists_mem_cons_iff]

theorem mem_displayed_saveLines {v : StabVar} {d : Int} (member : d ∈ displayed (saveLines v)) :
    d = v.dispOffset * abiPointerSize := by
  simpa [saveLines, displayed, Insn.displayed] using member

theorem mem_displayed_storeLines {rs : RegisterSet} {v : StabVar} {d : Int}
    (member : d ∈ displayed (storeLines rs v)) : d = v.dispOffset * abiPointerSize := by
  simp only [storeLines, displayed_append, displayed_gimme, displayed_takeitback, List.nil_append,
    List.append_nil] at member
  exact List.mem_singleton.mp member

theorem mem_displayed_epilogue {rs : RegisterSet} {type : Subprogs} {slot : StabVar} {off d : Int}
    {captured : List StabVar} (member : d ∈ displayed (epilogueLines rs type slot off captured)) :
    ∃ v ∈ captured, d = v.dispOffset * abiPointerSize := by
  have copied : displayed (copyLines type slot rs) = [] := by
    unfold copyLines
    split
    · simp only [displayed_append, displayed_gimme, displayed_takeitback]
      rfl
    · rfl
  have last : displayed [.addImm .rsp (off - abiPointerSize), .ret] = [] := rfl
  simp only [epilogueLines, displayed_append, displayed_gimme, displayed_takeitback, copied, last,
    List.append_nil, List.nil_append, restoreDisplay] at member
  obtain ⟨v, inside, named⟩ := mem_displayed_flatMap.mp member
  refine ⟨v, List.mem_of_mem_drop (List.mem_reverse.mp inside), ?_⟩
  simpa [displayed, Insn.displayed, eq_comm] using named

theorem Moment.exists_of_displayed {m : Moment} (settles : m.Settles) {d : Int}
    (member : d ∈ m.displayed) : ∃ i v, stabVar m.settled.1 i = some v ∧ v.captured = true ∧
      d = v.dispOffset * abiPointerSize := by
  obtain ⟨call, acx⟩ := m
  cases call with
  | address name reg =>
    simp only [displayed, Analysis.displayed] at member
    simp only [settled]
    split at member
    next => exact absurd member List.not_mem_nil
    next v acx' code run =>
      rw [run]
      by_cases nonlocal : stabHasLocalVar acx.st name = false
      · obtain ⟨found, captured, rfl, -⟩ := pathAddress_nonlocal run nonlocal
        exact ⟨_, v, found, captured, List.mem_singleton.mp member⟩
      · obtain ⟨-, rfl⟩ := pathAddress_local run nonlocal
        exact absurd member List.not_mem_nil
  | prologue off =>
    simp only [displayed, Analysis.displayed] at member
    split at member
    next => exact absurd member List.not_mem_nil
    next captured acx' code run =>
      obtain ⟨rfl, rfl, rfl⟩ := prologue_run run
      obtain ⟨v, inside, named⟩ := mem_displayed_flatMap.mp member
      obtain ⟨i, found, captured⟩ := exists_of_mem_capturedVars inside
      exact ⟨i, v, found, captured, mem_displayed_saveLines named⟩
  | epilogue retslot off captured =>
    simp only [displayed, Analysis.displayed] at member
    split at member
    next => exact absurd member List.not_mem_nil
    next u acx' code run =>
      obtain ⟨slot, rfl, -, rfl⟩ := epilogue_run run
      obtain ⟨v, inside, named⟩ := mem_displayed_epilogue member
      obtain ⟨i, found, captured⟩ := settles.captured v inside
      exact ⟨i, v, found, captured, named⟩
  | globals =>
    simp only [displayed, Analysis.displayed] at member
    split at member
    next => exact absurd member List.not_mem_nil
    next u acx' code run =>
      obtain ⟨rfl, rfl⟩ := storeGlobals_run run
      obtain ⟨v, inside, named⟩ := mem_displayed_flatMap.mp member
      obtain ⟨i, found, captured⟩ := exists_of_mem_capturedVars inside
      exact ⟨i, v, found, captured, mem_displayed_storeLines named⟩
  | _ => exact absurd member List.not_mem_nil

/-- A captured variable is as it was. -/
def Keeps (st later : Stab) : Prop :=
  ∀ (i : Int) v, stabVar st i = some v → v.captured = true → stabVar later i = some v

/-- The line printed at a moment to come to a nonlocal variable loads from the slot that the
variable has in a later table. -/
def LoadsSlot (m : Moment) (later : Stab) : Prop :=
  ∀ name reg w acx code, m.call = .address name reg → stabHasLocalVar m.acx.st name = false →
    pathAddress name (stabResolveVar m.acx.st name) reg m.acx = .ok (w, acx, code) →
      ∃ v, stabVar later (stabResolveVar m.acx.st name) = some v ∧ v.captured = true ∧
        code = [.loadDisplay reg.name (v.dispOffset * abiPointerAlign)]

/-- The words of the display named at a moment are those of captured variables of a later table. -/
def NamesSlots (m : Moment) (later : Stab) : Prop :=
  ∀ d ∈ m.displayed, ∃ i v, stabVar later i = some v ∧ v.captured = true ∧
    d = v.dispOffset * abiPointerSize

/-- What holds of a moment and a table that comes later in the run. -/
structure SlotsStay (m : Moment) (later : Stab) : Prop where
  keeps : Keeps m.acx.st later
  loads : LoadsSlot m later
  names : NamesSlots m later

theorem slotsStay_of_steps {m : Moment} (settles : m.Settles) {later : Stab × Int}
    (steps : StabSteps m.settled later) : SlotsStay m later.1 where
  keeps i v found captured := StabSteps.kept (settles.steps.trans steps) found captured
  loads name reg w acx code called nonlocal run := by
    obtain ⟨found, captured, rfl, -⟩ := pathAddress_nonlocal run nonlocal
    refine ⟨w, ?_, captured, rfl⟩
    apply steps.kept _ captured
    simp only [Moment.settled, called, run]
    exact found
  names d member := by
    obtain ⟨i, v, found, captured, named⟩ := Moment.exists_of_displayed settles member
    exact ⟨i, v, steps.kept found captured, captured, named⟩

/-- At every moment of every run the slots given out belong to one captured variable each, at every
later moment they are the same, and what is printed to come to a variable names its slot. When the
program is accepted this holds up to the end, and all words of the display in the output are named
at one of the moments. -/
theorem slots_identify (prog : AstProgram) :
    (∀ m ∈ prog.trace, Slotted m.acx.table) ∧
    prog.trace.Pairwise (fun m n => SlotsStay m n.acx.st) ∧
    ∀ acx code, analyze prog = .ok (acx, code) → Slotted acx.table ∧
      (∀ m ∈ prog.trace, SlotsStay m acx.st) ∧
        displayed code = prog.trace.flatMap Moment.displayed := by
  have follows := @follows_program prog initialAcx sound_stabNew
  have start : Slotted initialAcx.table := slotted_stabNew
  refine ⟨?_, ?_, ?_⟩
  · exact fun m member => (follows.reached m member).slotted start
  · apply List.Pairwise.imp_of_mem _ follows.ordered
    exact fun member _ steps => slotsStay_of_steps (follows.settled _ member) steps
  · intro acx code accepted
    have ends := ends_of_accepted accepted
    exact ⟨ends.steps.slotted start,
      fun m member => slotsStay_of_steps (follows.settled m member) (ends.kept m member), ends.printed⟩

end Dragon
