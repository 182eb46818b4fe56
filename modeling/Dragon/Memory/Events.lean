import Dragon.Memory.Ledger

/-! The steps of the analyzer that take part in the memory of a run.

They are the calls that the program makes, with the places of the names they are
given, and the paths of the for loops.
-/

set_option autoImplicit false

namespace Dragon

open Ownership

/-- A call into the symbol table, at the place of the node it is for, or the path of a for loop. -/
inductive Event where
  | declare (e : Declaration) (place : Place)
  | loop (id : Place)

namespace Event

def declaration : Event → Option Declaration
  | .declare e _ => some e
  | .loop _ => none

/-- The strings of the tree that are freed or given away. -/
def lent : Event → List Place
  | .declare e place => Ledger.takenOver place e
  | .loop id => [id]

def run : Event → Ledger → Ledger
  | .declare e place, l => Ledger.declare place e l
  | .loop id, l => Ledger.loop id l

end Event

/-! ## The events of a program -/

/-- The calls for what is declared without a string of the tree. -/
def plainEvents (place : Place) (es : List Declaration) : List Event := es.map (.declare · place)

mutual

def AstStmt.events : AstStmt → Place → List Event
  | .foor _ _ _ body, place =>
      [.loop (.id :: place)] ++ (plainEvents place [.enter] ++ (body.events (.body :: place) ++
        plainEvents place [.leave]))
  | .ite _ thenn elze, place => thenn.events (.thenn :: place) ++ elze.events (.elze :: place)
  | .wdo _ body, place => body.events (.body :: place)
  | .stmts body, place => stmtsEvents body (.stmts :: place)
  | .null, _ | .assign .., _ | .proc .., _ => []

def stmtsEvents : List AstStmt → Place → List Event
  | [], _ => []
  | s :: body, node => s.events (.elt :: node) ++ stmtsEvents body (.next :: node)

end

def typesEvents : List AstTypeDecl → Place → List Event
  | [], _ => []
  | t :: types, node => [.declare (.type t) (.elt :: node)] ++ typesEvents types (.next :: node)

mutual

def AstSubdecl.events : AstSubdecl → Place → List Event
  | .mk head name decls subprogs types body, place =>
      plainEvents place [.enter] ++ (typesEvents types (.types :: place) ++
        (plainEvents place (head.args.map (.decls · false) ++ (decls.map (.decls · true) ++
          [.result name head.retty])) ++
        (subprogsEvents subprogs (.subprogs :: place) ++ (body.events (.body :: place) ++
          plainEvents place [.leave]))))

def subprogsEvents : List AstSubdecl → Place → List Event
  | [], _ => []
  | d :: subprogs, node =>
      plainEvents (.elt :: node) [.func d.name d.head] ++ (d.events (.elt :: node) ++
        subprogsEvents subprogs (.next :: node))

end

def AstProgram.events (prog : AstProgram) : List Event :=
  plainEvents [] (importDeclarations prog.args) ++ (typesEvents prog.types [.types] ++
    (plainEvents [] (prog.decls.map (.decls · true)) ++ (subprogsEvents prog.subprogs [.subprogs] ++
      prog.body.events [.body])))

/-! ## The events are the calls of the analyzer -/

theorem declarations_plainEvents (place : Place) (es : List Declaration) :
    (plainEvents place es).filterMap Event.declaration = es := by
  simp only [plainEvents, List.filterMap_map]
  exact List.filterMap_some

mutual

theorem declarations_stmt : ∀ (s : AstStmt) (place : Place),
    (s.events place).filterMap Event.declaration = s.declarations
  | .foor _ _ _ body, place => by
      simp only [AstStmt.events, AstStmt.declarations, List.filterMap_append,
        declarations_plainEvents, declarations_stmt body]
      rfl
  | .ite _ thenn elze, place => by
      simp only [AstStmt.events, AstStmt.declarations, List.filterMap_append, declarations_stmt thenn,
        declarations_stmt elze]
  | .wdo _ body, place => declarations_stmt body _
  | .stmts body, place => declarations_stmts body _
  | .null, _ | .assign .., _ | .proc .., _ => rfl

theorem declarations_stmts : ∀ (body : List AstStmt) (node : Place),
    (stmtsEvents body node).filterMap Event.declaration = stmtsDeclarations body
  | [], _ => rfl
  | s :: body, node => by
      simp only [stmtsEvents, stmtsDeclarations, List.filterMap_append, declarations_stmt s,
        declarations_stmts body]

end

theorem declarations_types (types : List AstTypeDecl) (node : Place) :
    (typesEvents types node).filterMap Event.declaration = types.map .type := by
  induction types generalizing node with
  | nil => rfl
  | cons t types ih =>
    rw [typesEvents, List.filterMap_append, ih]
    rfl

mutual

theorem declarations_subdecl : ∀ (d : AstSubdecl) (place : Place),
    (d.events place).filterMap Event.declaration = d.declarations
  | .mk head name decls subprogs types body, place => by
      simp only [AstSubdecl.events, AstSubdecl.declarations, openDeclarations, List.filterMap_append,
        declarations_plainEvents, declarations_types, declarations_stmt,
        declarations_subprogs subprogs, List.append_assoc]

theorem declarations_subprogs : ∀ (subprogs : List AstSubdecl) (node : Place),
    (subprogsEvents subprogs node).filterMap Event.declaration = subprogsDeclarations subprogs
  | [], _ => rfl
  | d :: subprogs, node => by
      simp only [subprogsEvents, subprogsDeclarations, List.filterMap_append,
        declarations_plainEvents, declarations_subdecl d, declarations_subprogs subprogs]

end

theorem declarations_events (prog : AstProgram) :
    prog.events.filterMap Event.declaration = prog.declarations := by
  simp only [AstProgram.events, AstProgram.declarations, List.filterMap_append,
    declarations_plainEvents, declarations_types, declarations_subprogs, declarations_stmt]

/-! ## What is lent is part of the tree -/

/-- No string of the tree is taken over. -/
def Plain (es : List Declaration) : Prop := ∀ e ∈ es, ∀ place, Ledger.takenOver place e = []

theorem lent_plainEvents {es : List Declaration} (plain : Plain es) (place : Place) :
    (plainEvents place es).flatMap Event.lent = [] := by
  refine List.flatMap_eq_nil_iff.mpr ?_
  intro event among
  obtain ⟨e, here, rfl⟩ := List.mem_map.mp among
  exact plain e here place

theorem Plain.append {es fs : List Declaration} (left : Plain es) (right : Plain fs) :
    Plain (es ++ fs) := fun e member =>
  (List.mem_append.mp member).elim (left e) (right e)

theorem plain_one {e : Declaration} (plain : ∀ place, Ledger.takenOver place e = []) : Plain [e] := by
  intro f member
  rw [List.mem_singleton.mp member]
  exact plain

theorem plain_enter : Plain [.enter] := plain_one fun _ => rfl

theorem plain_leave : Plain [.leave] := plain_one fun _ => rfl

theorem plain_func (name : Name) (sig : AstSig) : Plain [.func name sig] := plain_one fun _ => rfl

theorem plain_decls (decls : List AstDecls) (arguments : Bool) :
    Plain (decls.map (.decls · arguments)) := by
  intro e member place
  obtain ⟨d, -, rfl⟩ := List.mem_map.mp member
  rfl

theorem plain_open (head : AstSig) (name : Name) (decls : List AstDecls) :
    Plain (head.args.map (.decls · false) ++ (decls.map (.decls · true) ++
      [.result name head.retty])) :=
  (plain_decls _ _).append ((plain_decls _ _).append (plain_one fun _ => rfl))

theorem plain_imports (args : List Name) : Plain (importDeclarations args) := by
  induction args with
  | nil => exact fun e member => absurd member List.not_mem_nil
  | cons imported args ih =>
    rw [importDeclarations]
    refine Plain.append ?_ ih
    split
    · exact Plain.append (plain_one fun _ => rfl) (plain_one fun _ => rfl)
    · split
      · exact Plain.append (plain_one fun _ => rfl) (plain_one fun _ => rfl)
      · exact fun e member => absurd member List.not_mem_nil

mutual

theorem lent_stmt : ∀ (s : AstStmt) (place : Place) {x : Place},
    x ∈ (s.events place).flatMap Event.lent → x ∈ s.owned.blocks place
  | .foor _ start finish body, place, x, member => by
      simp only [AstStmt.events, List.flatMap_append, lent_plainEvents plain_enter,
        lent_plainEvents plain_leave, List.nil_append, List.append_nil, List.mem_append] at member
      simp only [AstStmt.owned, Pointer.blocks, Pointer.fieldBlocks, Pointer.plain, List.mem_append,
        List.mem_singleton, List.not_mem_nil, or_false]
      rcases member with here | inner
      · exact .inr (.inl (List.mem_singleton.mp here))
      · exact .inr (.inr (.inr (.inr (lent_stmt body _ inner))))
  | .ite cond thenn elze, place, x, member => by
      simp only [AstStmt.events, List.flatMap_append, List.mem_append] at member
      simp only [AstStmt.owned, Pointer.blocks, Pointer.fieldBlocks, List.mem_append,
        List.mem_singleton, List.not_mem_nil, or_false]
      rcases member with one | other
      · exact .inr (.inr (.inl (lent_stmt thenn _ one)))
      · exact .inr (.inr (.inr (lent_stmt elze _ other)))
  | .wdo cond body, place, x, member => by
      simp only [AstStmt.owned, Pointer.blocks, Pointer.fieldBlocks, List.mem_append,
        List.mem_singleton, List.not_mem_nil, or_false]
      exact .inr (.inr (lent_stmt body _ member))
  | .stmts body, place, x, member => by
      simp only [AstStmt.owned, Pointer.blocks, Pointer.fieldBlocks, List.mem_append,
        List.mem_singleton, List.not_mem_nil, or_false]
      exact .inr (mem_listOf (lent_stmts body _ member))
  | .null, _, _, member | .assign .., _, _, member | .proc .., _, _, member =>
      absurd member List.not_mem_nil

theorem lent_stmts : ∀ (body : List AstStmt) (node : Place) {x : Place},
    x ∈ (stmtsEvents body node).flatMap Event.lent → x ∈ (chain (ownedStmts body)).blocks node
  | [], _, _, member => absurd member List.not_mem_nil
  | s :: body, node, x, member => by
      simp only [stmtsEvents, List.flatMap_append, List.mem_append] at member
      simp only [ownedStmts, chain, Pointer.blocks, Pointer.fieldBlocks, List.mem_append,
        List.mem_singleton, List.not_mem_nil, or_false]
      rcases member with here | later
      · exact .inr (.inl (lent_stmt s _ here))
      · exact .inr (.inr (lent_stmts body _ later))

end

theorem lent_types (types : List AstTypeDecl) (node : Place) {x : Place}
    (member : x ∈ (typesEvents types node).flatMap Event.lent) :
    x ∈ (chain (types.map AstTypeDecl.owned)).blocks node := by
  induction types generalizing node with
  | nil => exact absurd member List.not_mem_nil
  | cons t types ih =>
    simp only [typesEvents, List.flatMap_append, List.flatMap_cons, List.flatMap_nil,
      List.append_nil, Event.lent, Ledger.takenOver, List.mem_append, List.mem_singleton] at member
    simp only [List.map_cons, chain, AstTypeDecl.owned, Pointer.blocks, Pointer.fieldBlocks,
      Pointer.plain, List.mem_append, List.mem_singleton, List.not_mem_nil, or_false]
    rcases member with here | later
    · exact .inr (.inl (.inr (.inl here)))
    · exact .inr (.inr (ih _ later))

mutual

theorem lent_subdecl : ∀ (d : AstSubdecl) (place : Place) {x : Place},
    x ∈ (d.events place).flatMap Event.lent → x ∈ d.owned.blocks place
  | .mk head name decls subprogs types body, place, x, member => by
      simp only [AstSubdecl.events, List.flatMap_append, lent_plainEvents plain_enter,
        lent_plainEvents plain_leave, lent_plainEvents (plain_open head name decls),
        List.nil_append, List.append_nil, List.mem_append] at member
      simp only [AstSubdecl.owned, Pointer.blocks, Pointer.fieldBlocks, List.mem_append,
        List.mem_singleton, List.not_mem_nil, or_false]
      -- the place is behind the types, the subprograms or the body
      rcases member with typed | subs | inner
      · exact .inr (.inr (.inr (.inr (.inr (.inl (mem_listOf (lent_types types _ typed)))))))
      · exact .inr (.inr (.inr (.inr (.inl (mem_listOf (lent_subprogs subprogs _ subs))))))
      · exact .inr (.inr (.inr (.inr (.inr (.inr (lent_stmt body _ inner))))))

theorem lent_subprogs : ∀ (subprogs : List AstSubdecl) (node : Place) {x : Place},
    x ∈ (subprogsEvents subprogs node).flatMap Event.lent →
      x ∈ (chain (ownedSubprogs subprogs)).blocks node
  | [], _, _, member => absurd member List.not_mem_nil
  | d :: subprogs, node, x, member => by
      simp only [subprogsEvents, List.flatMap_append, lent_plainEvents (plain_func d.name d.head),
        List.nil_append, List.mem_append] at member
      simp only [ownedSubprogs, chain, Pointer.blocks, Pointer.fieldBlocks, List.mem_append,
        List.mem_singleton, List.not_mem_nil, or_false]
      rcases member with here | later
      · exact .inr (.inl (lent_subdecl d _ here))
      · exact .inr (.inr (lent_subprogs subprogs _ later))

end

/-- The names of the type declarations and of the variables of the for loops. -/
def AstProgram.lent (prog : AstProgram) : List Place := prog.events.flatMap Event.lent

theorem lent_program (prog : AstProgram) {x : Place} (member : x ∈ prog.lent) :
    x ∈ prog.owned.blocks [] := by
  simp only [AstProgram.lent, AstProgram.events, List.flatMap_append,
    lent_plainEvents (plain_imports prog.args), lent_plainEvents (plain_decls prog.decls true),
    List.nil_append, List.mem_append] at member
  simp only [AstProgram.owned, Pointer.blocks, Pointer.fieldBlocks, List.mem_append,
    List.mem_singleton, List.not_mem_nil, or_false]
  rcases member with types | subs | inner
  · exact .inr (.inr (.inr (.inr (.inl (mem_listOf (lent_types prog.types _ types))))))
  · exact .inr (.inr (.inr (.inr (.inr (.inl (mem_listOf (lent_subprogs prog.subprogs _ subs)))))))
  · exact .inr (.inr (.inr (.inr (.inr (.inr (lent_stmt prog.body _ inner))))))

/-! ## What lends nothing -/

mutual

def AstStmt.hasLoop : AstStmt → Bool
  | .foor .. => true
  | .ite _ thenn elze => thenn.hasLoop || elze.hasLoop
  | .wdo _ body => body.hasLoop
  | .stmts body => anyLoop body
  | .null | .assign .. | .proc .. => false

def anyLoop : List AstStmt → Bool
  | [] => false
  | s :: body => s.hasLoop || anyLoop body

end

mutual

/-- The subprogram, or one inside it, declares a type or has a for loop. -/
def AstSubdecl.lends : AstSubdecl → Bool
  | .mk _ _ _ subprogs types body => !types.isEmpty || anyLends subprogs || body.hasLoop

def anyLends : List AstSubdecl → Bool
  | [] => false
  | d :: subprogs => d.lends || anyLends subprogs

end

/-- The program declares a type or has a for loop, maybe in a subprogram. -/
def AstProgram.lends (prog : AstProgram) : Bool :=
  !prog.types.isEmpty || anyLends prog.subprogs || prog.body.hasLoop

mutual

theorem lent_stmt_eq_nil : ∀ (s : AstStmt) (place : Place),
    (s.events place).flatMap Event.lent = [] ↔ s.hasLoop = false
  | .foor .., _ => by simp [AstStmt.events, AstStmt.hasLoop, Event.lent]
  | .ite _ thenn elze, _ => by
      simp only [AstStmt.events, AstStmt.hasLoop, List.flatMap_append, List.append_eq_nil_iff,
        Bool.or_eq_false_iff, lent_stmt_eq_nil thenn, lent_stmt_eq_nil elze]
  | .wdo _ body, place => lent_stmt_eq_nil body _
  | .stmts body, place => lent_stmts_eq_nil body _
  | .null, _ | .assign .., _ | .proc .., _ => ⟨fun _ => rfl, fun _ => rfl⟩

theorem lent_stmts_eq_nil : ∀ (body : List AstStmt) (node : Place),
    (stmtsEvents body node).flatMap Event.lent = [] ↔ anyLoop body = false
  | [], _ => ⟨fun _ => rfl, fun _ => rfl⟩
  | s :: body, node => by
      simp only [stmtsEvents, anyLoop, List.flatMap_append, List.append_eq_nil_iff,
        Bool.or_eq_false_iff, lent_stmt_eq_nil s, lent_stmts_eq_nil body]

end

theorem lent_types_eq_nil (types : List AstTypeDecl) (node : Place) :
    (typesEvents types node).flatMap Event.lent = [] ↔ (!types.isEmpty) = false := by
  cases types with
  | nil => exact ⟨fun _ => rfl, fun _ => rfl⟩
  | cons t types => simp [typesEvents, Event.lent, Ledger.takenOver]

mutual

theorem lent_subdecl_eq_nil : ∀ (d : AstSubdecl) (place : Place),
    (d.events place).flatMap Event.lent = [] ↔ d.lends = false
  | .mk head name decls subprogs types body, place => by
      simp only [AstSubdecl.events, AstSubdecl.lends, List.flatMap_append, List.append_eq_nil_iff,
        Bool.or_eq_false_iff, lent_types_eq_nil, lent_stmt_eq_nil, lent_subprogs_eq_nil subprogs,
        lent_plainEvents (plain_open head name decls), lent_plainEvents plain_enter,
        lent_plainEvents plain_leave, true_and, and_true, and_assoc]

theorem lent_subprogs_eq_nil : ∀ (subprogs : List AstSubdecl) (node : Place),
    (subprogsEvents subprogs node).flatMap Event.lent = [] ↔ anyLends subprogs = false
  | [], _ => ⟨fun _ => rfl, fun _ => rfl⟩
  | d :: subprogs, node => by
      simp only [subprogsEvents, anyLends, List.flatMap_append, List.append_eq_nil_iff,
        Bool.or_eq_false_iff, lent_subdecl_eq_nil d, lent_subprogs_eq_nil subprogs,
        lent_plainEvents (plain_func d.name d.head), true_and]

end

theorem lent_eq_nil (prog : AstProgram) : prog.lent = [] ↔ prog.lends = false := by
  simp only [AstProgram.lent, AstProgram.events, AstProgram.lends, List.flatMap_append,
    List.append_eq_nil_iff, Bool.or_eq_false_iff, lent_types_eq_nil, lent_stmt_eq_nil,
    lent_subprogs_eq_nil, lent_plainEvents (plain_imports prog.args),
    lent_plainEvents (plain_decls prog.decls true), true_and, and_assoc]

/-! ## Runs -/

def Ledger.after (l : Ledger) (events : List Event) : Ledger := events.foldl (fun l e => e.run l) l

theorem settled_after (events : List Event) (l : Ledger) :
    Ledger.Settled ((events.flatMap Event.lent).map .tree) [] l (l.after events) := by
  induction events generalizing l with
  | nil => exact Ledger.Settled.refl _ l
  | cons e events ih =>
    have here : Ledger.Settled (e.lent.map .tree) [] l (e.run l) := by
      cases e with
      | declare e place => exact Ledger.settled_declare place e l
      | loop id => exact Ledger.settled_loop id l
    have first := here.frame ((events.flatMap Event.lent).map .tree)
    rw [← List.map_append] at first
    exact first.trans (ih (e.run l))

end Dragon
