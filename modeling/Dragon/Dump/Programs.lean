import Dragon.Dump.Declarations

/-! What the dump of a program tells.

Two programs that the parser takes have the same dump just when they differ in
nothing but their type declarations, the names of their subprograms and the
blocks of their statements.
-/

set_option autoImplicit false

namespace Dragon

open PrintedText Lexical Pattern

/-! ## Subprograms -/

namespace AstSubdecl

mutual

def shown : AstSubdecl → AstSubdecl
  | .mk head _ decls subprogs _ body => .mk head "" decls (shownAll subprogs) [] (.stmts body.opened)

def shownAll : List AstSubdecl → List AstSubdecl
  | [] => []
  | d :: subprogs => d.shown :: shownAll subprogs

end

mutual

def printable : AstSubdecl → Bool
  | .mk head _ decls subprogs _ body => head.printable && decls.all AstDecls.printable &&
      allPrintable subprogs && body.printable

def allPrintable : List AstSubdecl → Bool
  | [] => true
  | d :: subprogs => d.printable && allPrintable subprogs

end

theorem printAll_eq (subprogs : List AstSubdecl) (n : Nat) :
    printAll subprogs n = subprogs.flatMap (·.print n) := by
  induction subprogs with
  | nil => rfl
  | cons d subprogs ih => rw [printAll, ih, List.flatMap_cons]

theorem shownAll_eq (subprogs : List AstSubdecl) : shownAll subprogs = subprogs.map shown := by
  induction subprogs with
  | nil => rfl
  | cons d subprogs ih => rw [shownAll, ih, List.map_cons]

theorem allPrintable_iff {subprogs : List AstSubdecl} :
    allPrintable subprogs = true ↔ ∀ d ∈ subprogs, d.printable = true := by
  induction subprogs with
  | nil => simp [allPrintable]
  | cons d subprogs ih => rw [allPrintable, Bool.and_eq_true, ih, List.forall_mem_cons]

theorem atColumn (d : AstSubdecl) (n : Nat) (r : List Char) : AtColumn ' ' n (d.print n ++ r) := by
  cases d with
  | mk head name decls subprogs types body =>
    rw [print, List.append_assoc]
    exact head.atColumn n _

/-- A subprogram is told by its dump up to what is not shown of it. -/
abbrev Told (n : Nat) (d : AstSubdecl) : Prop :=
  Tells (fun d => d.printable = true) (·.print n) shown (StartsBefore ' ' (n + INDSZ)) d

theorem told_list {ds ds' : List AstSubdecl} {n : Nat} {r r' : List Char}
    (each : ∀ d ∈ ds, Told n d) (ok : allPrintable ds = true) (ok' : allPrintable ds' = true)
    (may : StartsBefore ' ' n r) (may' : StartsBefore ' ' n r')
    (same : printAll ds n ++ r = printAll ds' n ++ r') : shownAll ds = shownAll ds' ∧ r = r' := by
  have right : n < n + INDSZ := Nat.lt_add_of_pos_right (by decide)
  rw [printAll_eq, printAll_eq] at same
  rw [shownAll_eq, shownAll_eq]
  exact tells_list each (fun d _ => atColumn d n) right (allPrintable_iff.mp ok) ds' r r'
    (allPrintable_iff.mp ok') may may' same

mutual

theorem told : ∀ (d : AstSubdecl), d.printable = true → ∀ n, Told n d
  | .mk head name decls subprogs types body, ok, n => by
      intro d' r r' ok' may may' same
      obtain ⟨head', name', decls', subprogs', types', body'⟩ := d'
      simp only [printable, Bool.and_eq_true] at ok ok'
      simp only [print, List.append_assoc] at same
      have inner := toldAll subprogs ok.1.2 (n + INDSZ)
      have next : ∀ s, StartsBefore ' ' (n + INDSZ) (INDENT n ++ (puts "WITH SUBPROGRAMS:" ++ s)) :=
        fun s => startsBefore_line (c := 'W') (by decide)
      have next' : ∀ s, StartsBefore ' ' (n + INDSZ) (INDENT n ++ (puts "AND VARIABLES" ++ s)) :=
        fun s => startsBefore_line (c := 'A') (by decide)
      have next'' : ∀ s, StartsBefore ' ' (n + INDSZ) (INDENT n ++ (puts "DOES:" ++ s)) :=
        fun s => startsBefore_line (c := 'D') (by decide)
      obtain ⟨sig, rest⟩ := head.told ok.1.1.1 n head' _ _ ok'.1.1.1 (next _) (next _) same
      obtain ⟨subs, more⟩ := told_list inner ok.1.2 ok'.1.2 (next' _) (next' _)
        (List.append_cancel_left (List.append_cancel_left rest))
      obtain ⟨vars, others⟩ := AstDecls.told_list ok.1.1.2 ok'.1.1.2 (next'' _) (next'' _)
        (List.append_cancel_left (List.append_cancel_left more))
      obtain ⟨statements, ends⟩ := AstStmt.tells ok.2 (n + INDSZ) body' r r' ok'.2 may may'
        (List.append_cancel_left (List.append_cancel_left others))
      exact ⟨by rw [shown, shown, show head = head' from sig, subs, vars, statements], ends⟩

theorem toldAll : ∀ (subprogs : List AstSubdecl), allPrintable subprogs = true → ∀ n,
    ∀ d ∈ subprogs, Told n d
  | [], _, _ => fun _ member => nomatch member
  | d :: subprogs, ok, n => by
      rw [allPrintable, Bool.and_eq_true] at ok
      exact List.forall_mem_cons.mpr ⟨told d ok.1 n, toldAll subprogs ok.2 n⟩

end

mutual

theorem print_shown : ∀ (d : AstSubdecl) (n : Nat), d.shown.print n = d.print n
  | .mk _ _ _ subprogs _ body, n => by
      rw [shown, print, print, printAll_shownAll subprogs, AstStmt.print, ← body.print_opened]

theorem printAll_shownAll : ∀ (subprogs : List AstSubdecl) (n : Nat),
    printAll (shownAll subprogs) n = printAll subprogs n
  | [], _ => rfl
  | d :: subprogs, n => by
      rw [shownAll, printAll, printAll, print_shown d, printAll_shownAll subprogs]

end

end AstSubdecl

/-! ## Programs -/

namespace NamedProgram

def shown (p : NamedProgram) : NamedProgram where
  name := p.name
  args := p.args
  decls := p.decls
  subprogs := AstSubdecl.shownAll p.subprogs
  types := []
  body := .stmts p.body.opened

def printable (p : NamedProgram) : Bool :=
  isQuotable p.name && p.args.all isQuotable && p.decls.all AstDecls.printable &&
    AstSubdecl.allPrintable p.subprogs && p.body.printable

theorem print_shown (p : NamedProgram) (n : Nat) : p.shown.print n = p.print n := by
  rw [print, print, shown, AstSubdecl.printAll_shownAll, AstStmt.print, ← p.body.print_opened]

theorem shown_of_dump {p q : NamedProgram} (ok : p.printable = true) (ok' : q.printable = true)
    (same : p.dump = q.dump) : p.shown = q.shown := by
  simp only [printable, Bool.and_eq_true] at ok ok'
  obtain ⟨⟨⟨⟨name, args⟩, decls⟩, subprogs⟩, body⟩ := ok
  obtain ⟨⟨⟨⟨name', args'⟩, decls'⟩, subprogs'⟩, body'⟩ := ok'
  simp only [dump, print, List.append_assoc] at same
  -- each part is followed by a line that starts before its own lines
  have next : ∀ s, StartsBefore ' ' (0 + INDSZ) (INDENT 0 ++ (puts "AND VARIABLES:" ++ s)) :=
    fun s => startsBefore_line (c := 'A') (by decide)
  have next' : ∀ s, StartsBefore ' ' (0 + INDSZ) (INDENT 0 ++ (puts "AND SUBPROGRAMS:" ++ s)) :=
    fun s => startsBefore_line (c := 'A') (by decide)
  have next'' : ∀ s, StartsBefore ' ' (0 + INDSZ) (INDENT 0 ++ (puts "DOES:" ++ s)) :=
    fun s => startsBefore_line (c := 'D') (by decide)
  have last : StartsBefore ' ' (0 + INDSZ) (puts "-- done dumping ast --") :=
    startsBefore_line (n := 0) (c := '-') (by decide)
  obtain ⟨named, rest⟩ := quoted_unique name name'
    (List.append_cancel_left (List.append_cancel_left same))
  obtain ⟨imports, rest₁⟩ := told_names args args' (next _) (next _)
    (List.append_cancel_left (show puts " WITH ARGS:" ++ _ = puts " WITH ARGS:" ++ _ from rest))
  obtain ⟨vars, rest₂⟩ := AstDecls.told_list decls decls' (next' _) (next' _)
    (List.append_cancel_left (List.append_cancel_left rest₁))
  obtain ⟨subs, rest₃⟩ := AstSubdecl.told_list (AstSubdecl.toldAll _ subprogs _) subprogs subprogs'
    (next'' _) (next'' _) (List.append_cancel_left (List.append_cancel_left rest₂))
  obtain ⟨statements, -⟩ := AstStmt.tells body (0 + INDSZ) q.body _ _ body' last last
    (List.append_cancel_left (List.append_cancel_left rest₃))
  simp only [shown, named, imports, vars, subs, statements]

end NamedProgram

/-! ## Programs that the parser takes -/

theorem isPlain_of_spelled {n : Name} (spelled : (Terminal.ID n).spelled = true) :
    isPlain n = true := by
  simp only [Terminal.spelled, Bool.and_eq_true] at spelled
  have inside := accepts_iff.mp spelled.1
  simp only [identifier, mem_seq, mem_set, mem_star_set] at inside
  obtain ⟨_, ⟨c, first, rfl⟩, w, others, same⟩ := inside
  rw [isPlain, ← same, List.all_append, List.all_cons, Bool.and_eq_true, Bool.and_eq_true]
  refine ⟨⟨?_, rfl⟩, List.all_eq_true.mpr others⟩
  rw [isNameChar, Bool.or_right_comm, first, Bool.true_or]

theorem isQuotable_of_spelled {t : Terminal} {n : Name} (spelled : t.spelled = true)
    (named : t = .ID n ∨ t = .NUM n) : isQuotable n = true := by
  rw [isQuotable, List.all_eq_true]
  exact fun c member => bne_iff_ne.mpr (spelled_mentions spelled named c member).2

theorem AstPath.printable_of_write {p : AstPath} (spelled : p.write.all Terminal.spelled = true) :
    p.printable = true := by
  rw [AstPath.write, List.all_cons, Bool.and_eq_true] at spelled
  rw [AstPath.printable, Bool.and_eq_true]
  refine ⟨isPlain_of_spelled spelled.1, ?_⟩
  rw [List.all_eq_true]
  intro n member
  have named := List.all_eq_true.mp spelled.2 (.ID n)
    (List.mem_flatMap.mpr ⟨n, member, List.mem_cons_of_mem _ List.mem_cons_self⟩)
  exact isPlain_of_spelled named

namespace AstExpr

mutual

theorem printable_of_write : ∀ {e : AstExpr}, e.grammatical = true →
    e.write.all Terminal.spelled = true → e.printable = true
  | .app p args, grammatical, spelled => by
      simp only [write, List.all_append, List.all_cons, Bool.and_eq_true] at spelled
      rw [printable, AstPath.printable_of_write spelled.1,
        allPrintable_of_write grammatical spelled.2.2.1]
      rfl
  | .bin op left right, grammatical, spelled => by
      simp only [write, List.all_append, List.all_cons, Bool.and_eq_true] at spelled
      simp only [AstExpr.grammatical, Bool.and_eq_true] at grammatical
      rw [printable, printable_of_write grammatical.1.2 spelled.2.1,
        printable_of_write grammatical.2 spelled.2.2.2.1]
      rfl
  | .deref (.path p), _, spelled => by
      rw [write, List.all_append, Bool.and_eq_true] at spelled
      exact AstPath.printable_of_write spelled.1
  | .idx p index, grammatical, spelled => by
      simp only [write, List.all_append, List.all_cons, Bool.and_eq_true] at spelled
      rw [printable, AstPath.printable_of_write spelled.1,
        printable_of_write (e := index) grammatical spelled.2.2.1]
      rfl
  | .lit n, _, spelled => by
      rw [write, List.all_cons, Bool.and_eq_true] at spelled
      exact isQuotable_of_spelled spelled.1 (.inr rfl)
  | .path p, _, spelled => AstPath.printable_of_write (p := p) spelled
  | .un op operand, grammatical, spelled => by
      simp only [AstExpr.grammatical, Bool.and_eq_true] at grammatical
      refine printable_of_write (e := operand) grammatical.2 ?_
      cases op <;> simp only [write, List.all_append, List.all_cons, Bool.and_eq_true] at spelled
      case not => exact spelled.2
      all_goals exact spelled.2.2.1
  | .addrof target, grammatical, spelled => by
      rw [write, List.all_cons, Bool.and_eq_true] at spelled
      exact printable_of_write (e := target) grammatical spelled.2

theorem allPrintable_of_write : ∀ {args : List AstExpr}, allGrammatical args = true →
    (writeArguments args).all Terminal.spelled = true → allPrintable args = true
  | [], _, _ => rfl
  | e :: args, grammatical, spelled => by
      obtain ⟨first, others⟩ := Bool.and_eq_true_iff.mp grammatical
      rw [writeArguments, List.all_append, Bool.and_eq_true] at spelled
      rw [allPrintable, printable_of_write first spelled.1, allPrintable_of_others others spelled.2]
      rfl

theorem allPrintable_of_others : ∀ {args : List AstExpr}, allGrammatical args = true →
    (writeOthers args).all Terminal.spelled = true → allPrintable args = true
  | [], _, _ => rfl
  | e :: args, grammatical, spelled => by
      obtain ⟨first, others⟩ := Bool.and_eq_true_iff.mp grammatical
      simp only [writeOthers, List.all_append, List.all_cons, Bool.and_eq_true] at spelled
      rw [allPrintable, printable_of_write first spelled.2.1,
        allPrintable_of_others others spelled.2.2]
      rfl

end

end AstExpr

namespace AstStmt

mutual

theorem printable_of_write : ∀ {s : AstStmt}, s.grammatical = true →
    s.write.all Terminal.spelled = true → s.printable = true
  | .null, _, _ => rfl
  | .assign lvalue rvalue, grammatical, spelled => by
      simp only [write, List.all_append, List.all_cons, Bool.and_eq_true] at spelled
      simp only [AstStmt.grammatical, Bool.and_eq_true] at grammatical
      rw [printable, AstExpr.printable_of_write grammatical.1.2 spelled.1,
        AstExpr.printable_of_write grammatical.2 spelled.2.2]
      rfl
  | .foor id start finish body, grammatical, spelled => by
      simp only [write, List.all_append, List.all_cons, Bool.and_eq_true] at spelled
      simp only [AstStmt.grammatical, Bool.and_eq_true] at grammatical
      obtain ⟨-, name, -, first, -, last, -, inner⟩ := spelled
      rw [printable, isQuotable_of_spelled name (.inl rfl),
        AstExpr.printable_of_write grammatical.1.1 first,
        AstExpr.printable_of_write grammatical.1.2 last, printable_of_write grammatical.2 inner]
      rfl
  | .ite cond thenn elze, grammatical, spelled => by
      simp only [write, List.all_append, List.all_cons, Bool.and_eq_true] at spelled
      simp only [AstStmt.grammatical, Bool.and_eq_true] at grammatical
      obtain ⟨-, test, -, yes, -, no⟩ := spelled
      rw [printable, AstExpr.printable_of_write grammatical.1.1 test,
        printable_of_write grammatical.1.2 yes, printable_of_write grammatical.2 no]
      rfl
  | .proc p args, grammatical, spelled => by
      simp only [write, List.all_append, List.all_cons, Bool.and_eq_true] at spelled
      rw [printable, AstPath.printable_of_write spelled.1,
        AstExpr.allPrintable_of_write grammatical spelled.2.2.1]
      rfl
  | .stmts (s :: body), grammatical, spelled => by
      obtain ⟨first, others⟩ := Bool.and_eq_true_iff.mp grammatical
      simp only [write, List.all_append, List.all_cons, Bool.and_eq_true] at spelled
      rw [printable, allPrintable, printable_of_write first spelled.2.1,
        allPrintable_of_write others spelled.2.2.1]
      rfl
  | .wdo cond body, grammatical, spelled => by
      simp only [write, List.all_append, List.all_cons, Bool.and_eq_true] at spelled
      simp only [AstStmt.grammatical, Bool.and_eq_true] at grammatical
      obtain ⟨-, test, -, inner⟩ := spelled
      rw [printable, AstExpr.printable_of_write grammatical.1 test,
        printable_of_write grammatical.2 inner]
      rfl

theorem allPrintable_of_write : ∀ {body : List AstStmt}, allGrammatical body = true →
    (writeAfter body).all Terminal.spelled = true → allPrintable body = true
  | [], _, _ => rfl
  | s :: body, grammatical, spelled => by
      obtain ⟨first, others⟩ := Bool.and_eq_true_iff.mp grammatical
      simp only [writeAfter, List.all_append, List.all_cons, Bool.and_eq_true] at spelled
      rw [allPrintable, printable_of_write first spelled.2.1, allPrintable_of_write others spelled.2.2]
      rfl

end

end AstStmt

namespace AstType

mutual

theorem printable_of_write : ∀ {t : AstType}, t.written = true →
    t.write.all Terminal.spelled = true → t.printable = true
  | .array lower upper eltType, written, spelled => by
      simp only [write, List.all_cons, Bool.and_eq_true] at spelled
      obtain ⟨-, -, low, -, high, -, -, -⟩ := spelled
      have elements : eltType.printable = true := by
        cases eltType <;> first | rfl | cases written
      rw [printable, isQuotable_of_spelled low (.inr rfl), isQuotable_of_spelled high (.inr rfl),
        elements]
      rfl
  | .pointer target, written, spelled => by
      rw [write, List.all_cons, Bool.and_eq_true] at spelled
      exact printable_of_write (t := target) written spelled.2
  | .record fields, written, spelled => by
      simp only [write, List.all_append, List.all_cons, Bool.and_eq_true] at spelled
      exact printableFields_of_write written spelled.2.1
  | .ref n, _, spelled => by
      rw [write, List.all_cons, Bool.and_eq_true] at spelled
      exact isQuotable_of_spelled spelled.1 (.inl rfl)
  | .boolean, _, _ | .char, _, _ | .integer, _, _ | .real, _, _ | .string, _, _ => rfl

theorem printableFields_of_write : ∀ {fields : List (Name × AstType)}, fieldsWritten fields = true →
    (writeFields fields).all Terminal.spelled = true → printableFields fields = true
  | [], _, _ => rfl
  | (n, type) :: fields, written, spelled => by
      obtain ⟨first, others⟩ := Bool.and_eq_true_iff.mp written
      simp only [writeFields, List.all_append, List.all_cons, Bool.and_eq_true] at spelled
      obtain ⟨⟨name, -, type_, -⟩, rest⟩ := spelled
      rw [printableFields, isQuotable_of_spelled name (.inl rfl), printable_of_write first type_,
        printableFields_of_write others rest]
      rfl

end

end AstType

theorem quotable_of_writeNames {names : List Name}
    (spelled : (writeNames names).all Terminal.spelled = true) : names.all isQuotable = true := by
  rw [List.all_eq_true]
  intro n member
  have written : Terminal.ID n ∈ writeNames names := by
    cases names with
    | nil => cases member
    | cons m names =>
      rcases List.mem_cons.mp member with rfl | member
      · exact List.mem_cons_self
      · exact List.mem_cons_of_mem _
          (List.mem_flatMap.mpr ⟨n, member, List.mem_cons_of_mem _ List.mem_cons_self⟩)
  exact isQuotable_of_spelled (List.all_eq_true.mp spelled _ written) (.inl rfl)

theorem AstDecls.printable_of_writeGroup {d : AstDecls} (grammatical : d.grammatical = true)
    (spelled : d.writeGroup.all Terminal.spelled = true) : d.printable = true := by
  rw [AstDecls.writeGroup, List.all_append, List.all_cons, Bool.and_eq_true, Bool.and_eq_true]
    at spelled
  rw [AstDecls.printable, quotable_of_writeNames spelled.1,
    AstType.printable_of_write (Bool.and_eq_true_iff.mp grammatical).2 spelled.2.2]
  rfl

theorem AstDecls.all_printable_of_write {decls : List AstDecls}
    (grammatical : decls.all AstDecls.grammatical = true)
    (spelled : (decls.flatMap AstDecls.write).all Terminal.spelled = true) :
    decls.all AstDecls.printable = true := by
  rw [List.all_eq_true] at grammatical ⊢
  rw [List.all_flatMap, List.all_eq_true] at spelled
  intro d member
  have here := spelled d member
  simp only [AstDecls.write, List.all_append, List.all_cons, Bool.and_eq_true] at here
  exact d.printable_of_writeGroup (grammatical d member) here.2.1

theorem all_printable_of_writeFormals {args : List AstDecls}
    (grammatical : args.all AstDecls.grammatical = true)
    (spelled : (writeFormals args).all Terminal.spelled = true) :
    args.all AstDecls.printable = true := by
  cases args with
  | nil => rfl
  | cons d ds =>
    rw [List.all_cons, Bool.and_eq_true] at grammatical ⊢
    simp only [writeFormals, List.all_append, List.all_cons, Bool.and_eq_true] at spelled
    obtain ⟨-, ⟨first, others⟩, -⟩ := spelled
    refine ⟨d.printable_of_writeGroup grammatical.1 first, ?_⟩
    rw [List.all_flatMap, List.all_eq_true] at others
    rw [List.all_eq_true] at grammatical ⊢
    intro e member
    have here := others e member
    rw [List.all_cons, Bool.and_eq_true] at here
    exact e.printable_of_writeGroup (grammatical.2 e member) here.2

theorem AstSig.printable_of_write {sig : AstSig} {name : Name} (grammatical : sig.grammatical = true)
    (spelled : (sig.write name).all Terminal.spelled = true) : sig.printable = true := by
  obtain ⟨type, args, retty⟩ := sig
  obtain ⟨formals, result⟩ := Bool.and_eq_true_iff.mp grammatical
  cases type with
  | function =>
    cases retty with
    | none => cases result
    | some t =>
      simp only [AstSig.write, List.all_append, List.all_cons, Bool.and_eq_true] at spelled
      have standard : t.printable = true := by
        cases t <;> first | rfl | cases result
      rw [AstSig.printable, all_printable_of_writeFormals formals spelled.2.2.1]
      exact standard
  | procedure =>
    cases retty with
    | some t => cases result
    | none =>
      simp only [AstSig.write, List.all_cons, Bool.and_eq_true] at spelled
      rw [AstSig.printable, all_printable_of_writeFormals formals spelled.2.2]
      rfl

namespace AstSubdecl

mutual

theorem printable_of_write : ∀ {d : AstSubdecl}, d.grammatical = true →
    d.write.all Terminal.spelled = true → d.printable = true
  | .mk head name decls subprogs types body, grammatical, spelled => by
      simp only [AstSubdecl.grammatical, Bool.and_eq_true] at grammatical
      simp only [AstSubdecl.write, List.all_append, List.all_cons, Bool.and_eq_true] at spelled
      obtain ⟨⟨⟨⟨⟨sig, vars⟩, inner⟩, -⟩, -⟩, inside⟩ := grammatical
      obtain ⟨head_, -, subs, -, decls_, body_⟩ := spelled
      rw [printable, head.printable_of_write sig head_, AstDecls.all_printable_of_write vars decls_,
        allPrintable_of_write inner subs, body.printable_of_write inside body_]
      rfl

theorem allPrintable_of_write : ∀ {ds : List AstSubdecl}, subprogsGrammatical ds = true →
    (writeSubprograms ds).all Terminal.spelled = true → allPrintable ds = true
  | [], _, _ => rfl
  | d :: ds, grammatical, spelled => by
      obtain ⟨first, others⟩ := Bool.and_eq_true_iff.mp grammatical
      simp only [writeSubprograms, List.all_append, Bool.and_eq_true] at spelled
      rw [allPrintable, printable_of_write first spelled.1.1, allPrintable_of_write others spelled.2]
      rfl

end

end AstSubdecl

theorem NamedProgram.printable_of_parsed {s : List Char} {p : NamedProgram}
    (parsed : yyparse (tokensToEnd s) = some p) : p.printable = true := by
  have derived := parses_iff.mp parsed
  have grammatical := derived.grammatical
  have spelled := derived.spelled (spelled_tokensToEnd s)
  simp only [NamedProgram.grammatical, Bool.and_eq_true] at grammatical
  simp only [NamedProgram.write, List.all_append, List.all_cons, Bool.and_eq_true] at spelled
  obtain ⟨⟨⟨⟨vars, inner⟩, -⟩, -⟩, inside⟩ := grammatical
  obtain ⟨-, name, -, args, -, -, -, decls, subs, body, -⟩ := spelled
  rw [printable, isQuotable_of_spelled name (.inl rfl), quotable_of_writeNames args,
    AstDecls.all_printable_of_write vars decls, AstSubdecl.allPrintable_of_write inner subs,
    p.body.printable_of_write inside body]
  rfl

/-- Two source texts that the parser takes have the same dump just when their programs are the same
but for what is not shown. -/
theorem dump_eq_iff (s s' : List Char) (p p' : NamedProgram) (parsed : yyparse (tokensToEnd s) = some p)
    (parsed' : yyparse (tokensToEnd s') = some p') : p.dump = p'.dump ↔ p.shown = p'.shown := by
  constructor
  · exact NamedProgram.shown_of_dump (NamedProgram.printable_of_parsed parsed)
      (NamedProgram.printable_of_parsed parsed')
  · intro same
    rw [NamedProgram.dump, NamedProgram.dump, ← p.print_shown, ← p'.print_shown, same]

-- program p(); begin x end.
def plainText : List Terminal := [.PROGRAM, .ID "p", .char '(', .char ')', .char ';', .TBEGIN, .ID "x",
  .END, .char '.']

-- program p(); begin begin x end; begin end end.
def blockText : List Terminal := [.PROGRAM, .ID "p", .char '(', .char ')', .char ';', .TBEGIN, .TBEGIN,
  .ID "x", .END, .char ';', .TBEGIN, .END, .END, .char '.']

theorem plainText_dump : ∃ p p', yyparse (tokensToEnd (writeText plainText)) = some p ∧
    yyparse (tokensToEnd (writeText blockText)) = some p' ∧ p.dump = p'.dump := by
  have parsed : ∃ p, yyparse (tokensToEnd (writeText plainText)) = some p ∧
      p.shown = ⟨⟨[], [], [], [], .stmts [.proc (astPath "x") []]⟩, "p"⟩ := by
    rw [tokensToEnd_writeText (by decide) (by decide +kernel)]
    exact ⟨_, rfl, rfl⟩
  have parsed' : ∃ p, yyparse (tokensToEnd (writeText blockText)) = some p ∧
      p.shown = ⟨⟨[], [], [], [], .stmts [.proc (astPath "x") []]⟩, "p"⟩ := by
    rw [tokensToEnd_writeText (by decide) (by decide +kernel)]
    exact ⟨_, rfl, rfl⟩
  obtain ⟨p, here, shown⟩ := parsed
  obtain ⟨p', here', shown'⟩ := parsed'
  exact ⟨p, p', here, here', (dump_eq_iff _ _ p p' here here').mpr (shown.trans shown'.symm)⟩

end Dragon
