import Dragon.Dump.Expressions

/-! Statements are told by their dump up to their blocks.

What begin and end enclose is printed in the column of the block, and an empty
block leaves nothing. So the dump shows the statements with all blocks opened.
-/

set_option autoImplicit false

namespace Dragon

open PrintedText

namespace AstStmt

mutual

/-- The statements that are printed for a statement: the blocks in it are opened. -/
def opened : AstStmt → List AstStmt
  | .null => []
  | .stmts body => openedAll body
  | .assign lvalue rvalue => [.assign lvalue rvalue]
  | .ite cond thenn elze => [.ite cond (.stmts thenn.opened) (.stmts elze.opened)]
  | .proc p args => [.proc p args]
  | .wdo cond body => [.wdo cond (.stmts body.opened)]
  | .foor id start finish body => [.foor id start finish (.stmts body.opened)]

def openedAll : List AstStmt → List AstStmt
  | [] => []
  | s :: body => s.opened ++ openedAll body

end

mutual

theorem print_opened : ∀ (s : AstStmt) (indent : Nat),
    s.print indent = printAll s.opened indent
  | .null, _ => rfl
  | .stmts body, indent => by
      rw [print, opened]
      exact printAll_openedAll body indent
  | .assign _ _, _ | .proc _ _, _ => by rw [opened, printAll, printAll, List.append_nil]
  | .ite _ thenn elze, indent => by
      rw [opened, printAll, printAll, List.append_nil, print, print, print, print,
        print_opened thenn, print_opened elze]
  | .wdo _ body, indent => by
      rw [opened, printAll, printAll, List.append_nil, print, print, print, print_opened body]
  | .foor _ _ _ body, indent => by
      rw [opened, printAll, printAll, List.append_nil, print, print, print, print_opened body]

theorem printAll_openedAll : ∀ (body : List AstStmt) (indent : Nat),
    printAll body indent = printAll (openedAll body) indent
  | [], _ => rfl
  | s :: body, indent => by
      rw [printAll, openedAll, print_opened s, printAll_openedAll body]
      simp only [printAll_eq, List.flatMap_append]

end

/-! ## Printable statements -/

mutual

def printable : AstStmt → Bool
  | .null => true
  | .assign lvalue rvalue => lvalue.printable && rvalue.printable
  | .foor id start finish body =>
      isQuotable id && start.printable && finish.printable && body.printable
  | .ite cond thenn elze => cond.printable && thenn.printable && elze.printable
  | .proc p args => p.printable && AstExpr.allPrintable args
  | .stmts body => allPrintable body
  | .wdo cond body => cond.printable && body.printable

def allPrintable : List AstStmt → Bool
  | [] => true
  | s :: body => s.printable && allPrintable body

end

/-- A statement with a line of its own. -/
def isItem : AstStmt → Bool
  | .null | .stmts _ => false
  | _ => true

/-- What can be in a list of opened statements. -/
def Item (s : AstStmt) : Prop := s.isItem = true ∧ s.printable = true

theorem allPrintable_append (first second : List AstStmt) :
    allPrintable (first ++ second) = (allPrintable first && allPrintable second) := by
  induction first with
  | nil => rfl
  | cons s first ih => rw [List.cons_append, allPrintable, allPrintable, ih, Bool.and_assoc]

mutual

theorem allPrintable_opened : ∀ (s : AstStmt), allPrintable s.opened = s.printable
  | .null => rfl
  | .stmts body => by rw [opened, printable, allPrintable_openedAll body]
  | .assign _ _ | .proc _ _ => by rw [opened, allPrintable, allPrintable, Bool.and_true]
  | .ite _ thenn elze => by
      rw [opened, allPrintable, allPrintable, Bool.and_true, printable, printable, printable, printable,
        allPrintable_opened thenn, allPrintable_opened elze]
  | .wdo _ body | .foor _ _ _ body => by
      rw [opened, allPrintable, allPrintable, Bool.and_true, printable, printable, printable,
        allPrintable_opened body]

theorem allPrintable_openedAll : ∀ (body : List AstStmt),
    allPrintable (openedAll body) = allPrintable body
  | [] => rfl
  | s :: body => by
      rw [openedAll, allPrintable_append, allPrintable_opened s, allPrintable_openedAll body,
        allPrintable]

end

theorem allPrintable_iff {body : List AstStmt} :
    allPrintable body = true ↔ ∀ s ∈ body, s.printable = true := by
  induction body with
  | nil => simp [allPrintable]
  | cons s body ih => simp [allPrintable, ih]

mutual

theorem isItem_of_opened : ∀ (s : AstStmt), ∀ t ∈ s.opened, t.isItem = true
  | .null => fun _ member => nomatch member
  | .stmts body => isItem_of_openedAll body
  | .assign _ _ | .proc _ _ | .ite _ _ _ | .wdo _ _ | .foor _ _ _ _ => fun t member => by
      rw [opened, List.mem_singleton] at member
      rw [member]
      rfl

theorem isItem_of_openedAll : ∀ (body : List AstStmt), ∀ t ∈ openedAll body, t.isItem = true
  | [] => fun _ member => nomatch member
  | s :: body => fun t member => by
      rcases List.mem_append.mp member with member | member
      · exact isItem_of_opened s t member
      · exact isItem_of_openedAll body t member

end

theorem items_opened {s : AstStmt} (ok : s.printable = true) : ∀ t ∈ s.opened, t.Item :=
  fun t member => ⟨isItem_of_opened s t member,
    allPrintable_iff.mp ((allPrintable_opened s).trans ok) t member⟩

theorem openedAll_append (first second : List AstStmt) :
    openedAll (first ++ second) = openedAll first ++ openedAll second := by
  induction first with
  | nil => rfl
  | cons s first ih => rw [List.cons_append, openedAll, openedAll, ih, List.append_assoc]

theorem openedAll_eq (body : List AstStmt) : openedAll body = body.flatMap opened := by
  induction body with
  | nil => rfl
  | cons s body ih => rw [openedAll, ih, List.flatMap_cons]

mutual

theorem openedAll_opened : ∀ (s : AstStmt), openedAll s.opened = s.opened
  | .null => rfl
  | .stmts body => openedAll_openedAll body
  | .assign _ _ | .proc _ _ => by rw [opened, openedAll, openedAll, List.append_nil, opened]
  | .ite _ thenn elze => by
      rw [opened, openedAll, openedAll, List.append_nil, opened, opened, opened,
        openedAll_opened thenn, openedAll_opened elze]
  | .wdo _ body | .foor _ _ _ body => by
      rw [opened, openedAll, openedAll, List.append_nil, opened, opened, openedAll_opened body]

theorem openedAll_openedAll : ∀ (body : List AstStmt), openedAll (openedAll body) = openedAll body
  | [] => rfl
  | s :: body => by
      rw [openedAll, openedAll_append, openedAll_opened s, openedAll_openedAll body]

end

def head : AstStmt → List Char × Char
  | .assign _ _ => ("ASSIGN".toList, '\n')
  | .ite _ _ _ => ("IF".toList, ' ')
  | .proc _ _ => ("APPLY".toList, ' ')
  | .wdo _ _ => ("WHILE".toList, ' ')
  | .foor _ _ _ _ => ("FOR".toList, ' ')
  | .null | .stmts _ => ([], '\n')

def after : AstStmt → Nat → List Char
  | .assign lvalue rvalue, n => lvalue.print (n + INDSZ) ++ (INDENT n ++ (puts "TO" ++
      rvalue.print (n + INDSZ)))
  | .ite cond thenn elze, n => puts "FOLLOWING IS TRUE:" ++ (cond.print (n + INDSZ) ++
      (INDENT n ++ (puts "THEN:" ++ (thenn.print (n + INDSZ) ++
        (INDENT n ++ (puts "OTHERWISE:" ++ elze.print (n + INDSZ)))))))
  | .proc p args, n => '`' :: (p.print ++ '`' :: if args.isEmpty then ['\n']
      else puts " WITH:" ++ AstExpr.printAll args (n + INDSZ))
  | .wdo cond body, n => puts "THE FOLLOWING IS TRUE:" ++ (cond.print (n + INDSZ) ++
      (INDENT n ++ (puts "DO:" ++ body.print (n + INDSZ))))
  | .foor id start finish body, n => '`' :: (id.toList ++ '`' :: (" STARTING AT:\n".toList ++
      (start.print (n + INDSZ) ++ (INDENT n ++ (puts "AND GOING TO:" ++ (finish.print (n + INDSZ) ++
        (INDENT n ++ (puts "DO:" ++ body.print (n + INDSZ)))))))))
  | .null, _ | .stmts _, _ => []

theorem print_head {s : AstStmt} (item : s.isItem = true) (n : Nat) :
    s.print n = INDENT n ++ (s.head.1 ++ s.head.2 :: s.after n) := by
  cases s with
  | null => cases item
  | stmts body => cases item
  | proc p args =>
    rw [print, after]
    split <;> rfl
  | _ =>
    rw [print]
    rfl

theorem all_head (s : AstStmt) : s.head.1.all isPathChar = true ∧ isPathChar s.head.2 = false := by
  cases s <;> exact ⟨rfl, rfl⟩

theorem kind_of_head {s t : AstStmt} (item : s.isItem = true) (item' : t.isItem = true)
    (word : s.head.1 = t.head.1) : s.ctorIdx = t.ctorIdx := by
  cases s <;> cases t <;> first
    | rfl
    | (cases item; done)
    | (cases item'; done)
    | cases word

theorem atColumn {s : AstStmt} (item : s.isItem = true) (n : Nat) (r : List Char) :
    AtColumn ' ' n (s.print n ++ r) := by
  rw [print_head item, List.append_assoc, List.append_assoc]
  refine atColumn_word (all_head s).1 ?_
  cases s with
  | null => cases item
  | stmts body => cases item
  | _ => exact fun empty => by cases empty

theorem same_head {s t : AstStmt} (item : s.isItem = true) (item' : t.isItem = true) {n : Nat}
    {r r' : List Char} (same : s.print n ++ r = t.print n ++ r') :
    s.ctorIdx = t.ctorIdx ∧ s.after n ++ r = t.after n ++ r' := by
  simp only [print_head item, print_head item', List.append_assoc, List.cons_append] at same
  obtain ⟨word, -, rest⟩ := word_unique (all_head s).1 (all_head t).1 (all_head s).2
    (all_head t).2 (columns_unique same)
  exact ⟨kind_of_head item item' word, rest⟩

/-- A statement with a line of its own is told by its text, but for the blocks in it. -/
abbrev Told (n : Nat) (s : AstStmt) : Prop :=
  Tells Item (·.print n) opened (StartsBefore ' ' (n + INDSZ)) s

theorem told_body {s t : AstStmt} {n : Nat} {r r' : List Char}
    (each : ∀ u ∈ s.opened, ∀ n, Told n u) (ok : s.printable = true) (ok' : t.printable = true)
    (may : StartsBefore ' ' n r) (may' : StartsBefore ' ' n r')
    (same : s.print n ++ r = t.print n ++ r') : s.opened = t.opened ∧ r = r' := by
  have right : n < n + INDSZ := Nat.lt_add_of_pos_right (by decide)
  rw [print_opened s, print_opened t, printAll_eq, printAll_eq] at same
  obtain ⟨views, ends⟩ := tells_list (fun u member => each u member n)
    (fun u item => atColumn item.1 n) right (items_opened ok) t.opened r r' (items_opened ok') may may'
    same
  -- what is shown of the members are their lists of one opened statement
  have joined : s.opened.flatMap opened = t.opened.flatMap opened := by
    rw [List.flatMap_def, List.flatMap_def]
    exact congrArg List.flatten views
  rw [← openedAll_eq, ← openedAll_eq, openedAll_opened, openedAll_opened] at joined
  exact ⟨joined, ends⟩

theorem Told.congr {n : Nat} {s t : AstStmt} (told : Told n s) (print : s.print n = t.print n)
    (view : s.opened = t.opened) : Told n t := by
  intro u r r' item may may' same
  dsimp only at same
  rw [← print] at same
  obtain ⟨here, ends⟩ := told u r r' item may may' same
  exact ⟨view ▸ here, ends⟩

theorem told_assign {lvalue rvalue : AstExpr} (ok : (assign lvalue rvalue).printable = true)
    (n : Nat) : Told n (.assign lvalue rvalue) := by
  intro t r r' item may may' same
  obtain ⟨kind, rest⟩ := same_head rfl item.1 same
  cases t with
  | assign lvalue' rvalue' =>
    have ok' := item.2
    rw [printable, Bool.and_eq_true] at ok ok'
    simp only [after, List.append_assoc] at rest
    have next : ∀ s, StartsBefore ' ' (n + INDSZ + INDSZ) (INDENT n ++ (puts "TO" ++ s)) := fun s =>
      startsBefore_next (startsBefore_line (c := 'T') (by decide))
    obtain ⟨left, more⟩ := lvalue.told ok.1 _ lvalue' _ _ ok'.1 (next _) (next _) rest
    obtain ⟨right, ends⟩ := rvalue.told ok.2 _ rvalue' _ _ ok'.2 (startsBefore_next may)
      (startsBefore_next may') (List.append_cancel_left (List.append_cancel_left more))
    exact ⟨by rw [show lvalue = lvalue' from left, show rvalue = rvalue' from right], ends⟩
  | _ => cases kind

theorem told_proc {p : AstPath} {args : List AstExpr} (ok : (proc p args).printable = true)
    (n : Nat) : Told n (.proc p args) := by
  intro t r r' item may may' same
  obtain ⟨kind, rest⟩ := same_head rfl item.1 same
  cases t with
  | proc p' args' =>
    have ok' := item.2
    rw [printable, Bool.and_eq_true] at ok ok'
    simp only [after, List.append_assoc, List.cons_append] at rest
    obtain ⟨rfl, -, more⟩ := path_unique ok.1 ok'.1 rfl rfl (List.cons.inj rest).2
    cases args with
    | nil =>
      cases args' with
      | nil => exact ⟨rfl, List.append_cancel_left more⟩
      | cons e' args' => cases (List.cons.inj more).1
    | cons e args =>
      cases args' with
      | nil => cases (List.cons.inj more).1
      | cons e' args' =>
        simp only [List.isEmpty_cons, Bool.false_eq_true, if_false, List.append_assoc] at more
        obtain ⟨others, ends⟩ := AstExpr.told_list (AstExpr.toldAll _ ok.2 (n + INDSZ)) ok.2 ok'.2
          may may' (List.append_cancel_left more)
        exact ⟨by rw [others], ends⟩
  | _ => cases kind

theorem told_ite {cond : AstExpr} {thenn elze : AstStmt}
    (first : ∀ u ∈ thenn.opened, ∀ n, Told n u) (second : ∀ u ∈ elze.opened, ∀ n, Told n u)
    (ok : (ite cond thenn elze).printable = true) (n : Nat) : Told n (.ite cond thenn elze) := by
  intro t r r' item may may' same
  obtain ⟨kind, rest⟩ := same_head rfl item.1 same
  cases t with
  | ite cond' thenn' elze' =>
    have ok' := item.2
    simp only [printable, Bool.and_eq_true] at ok ok'
    simp only [after, List.append_assoc] at rest
    have next : ∀ s, StartsBefore ' ' (n + INDSZ + INDSZ) (INDENT n ++ (puts "THEN:" ++ s)) := fun s =>
      startsBefore_next (startsBefore_line (c := 'T') (by decide))
    have next' : ∀ s, StartsBefore ' ' (n + INDSZ) (INDENT n ++ (puts "OTHERWISE:" ++ s)) := fun s =>
      startsBefore_line (c := 'O') (by decide)
    obtain ⟨test, more⟩ := cond.told ok.1.1 _ cond' _ _ ok'.1.1 (next _) (next _)
      (List.append_cancel_left rest)
    obtain ⟨yes, more'⟩ := told_body first ok.1.2 ok'.1.2 (next' _) (next' _)
      (List.append_cancel_left (List.append_cancel_left more))
    obtain ⟨no, ends⟩ := told_body second ok.2 ok'.2 may may'
      (List.append_cancel_left (List.append_cancel_left more'))
    exact ⟨by rw [opened, opened, show cond = cond' from test, yes, no], ends⟩
  | _ => cases kind

theorem told_wdo {cond : AstExpr} {body : AstStmt} (each : ∀ u ∈ body.opened, ∀ n, Told n u)
    (ok : (wdo cond body).printable = true) (n : Nat) : Told n (.wdo cond body) := by
  intro t r r' item may may' same
  obtain ⟨kind, rest⟩ := same_head rfl item.1 same
  cases t with
  | wdo cond' body' =>
    have ok' := item.2
    rw [printable, Bool.and_eq_true] at ok ok'
    simp only [after, List.append_assoc] at rest
    have next : ∀ s, StartsBefore ' ' (n + INDSZ + INDSZ) (INDENT n ++ (puts "DO:" ++ s)) := fun s =>
      startsBefore_next (startsBefore_line (c := 'D') (by decide))
    obtain ⟨test, more⟩ := cond.told ok.1 _ cond' _ _ ok'.1 (next _) (next _)
      (List.append_cancel_left rest)
    obtain ⟨inner, ends⟩ := told_body each ok.2 ok'.2 may may'
      (List.append_cancel_left (List.append_cancel_left more))
    exact ⟨by rw [opened, opened, show cond = cond' from test, inner], ends⟩
  | _ => cases kind

theorem told_foor {id : Name} {start finish : AstExpr} {body : AstStmt}
    (each : ∀ u ∈ body.opened, ∀ n, Told n u) (ok : (foor id start finish body).printable = true)
    (n : Nat) : Told n (.foor id start finish body) := by
  intro t r r' item may may' same
  obtain ⟨kind, rest⟩ := same_head rfl item.1 same
  cases t with
  | foor id' start' finish' body' =>
    have ok' := item.2
    simp only [printable, Bool.and_eq_true] at ok ok'
    simp only [after, List.append_assoc, List.cons_append] at rest
    have next : ∀ s, StartsBefore ' ' (n + INDSZ + INDSZ) (INDENT n ++ (puts "AND GOING TO:" ++ s)) :=
      fun s => startsBefore_next (startsBefore_line (c := 'A') (by decide))
    have next' : ∀ s, StartsBefore ' ' (n + INDSZ + INDSZ) (INDENT n ++ (puts "DO:" ++ s)) :=
      fun s => startsBefore_next (startsBefore_line (c := 'D') (by decide))
    obtain ⟨rfl, more⟩ := quoted_unique ok.1.1.1 ok'.1.1.1 (List.cons.inj rest).2
    obtain ⟨from_, more'⟩ := start.told ok.1.1.2 _ start' _ _ ok'.1.1.2 (next _) (next _)
      (List.append_cancel_left more)
    obtain ⟨upTo, more''⟩ := finish.told ok.1.2 _ finish' _ _ ok'.1.2 (next' _) (next' _)
      (List.append_cancel_left (List.append_cancel_left more'))
    obtain ⟨inner, ends⟩ := told_body each ok.2 ok'.2 may may'
      (List.append_cancel_left (List.append_cancel_left more''))
    exact ⟨by rw [opened, opened, show start = start' from from_, show finish = finish' from upTo,
      inner], ends⟩
  | _ => cases kind

theorem told_single {s u : AstStmt} {n : Nat} (told : Told n s) (single : s.opened = [u]) : Told n u := by
  refine told.congr ?_ ?_
  · rw [print_opened s, single, printAll, printAll, List.append_nil]
  · have again := openedAll_opened s
    rw [single, openedAll, openedAll, List.append_nil] at again
    rw [single, again]

mutual

theorem told : ∀ (s : AstStmt), s.printable = true → ∀ u ∈ s.opened, ∀ n, Told n u
  | .null, _ => fun _ member => nomatch member
  | .stmts body, ok => toldAll body ok
  | .assign lvalue rvalue, ok => List.forall_mem_singleton.mpr fun n => told_assign ok n
  | .proc p args, ok => List.forall_mem_singleton.mpr fun n => told_proc ok n
  | .ite cond thenn elze, ok => by
      have parts := ok
      simp only [printable, Bool.and_eq_true] at parts
      have first := told thenn parts.1.2
      have second := told elze parts.2
      exact List.forall_mem_singleton.mpr fun n => told_single (told_ite first second ok n) rfl
  | .wdo cond body, ok => by
      have parts := ok
      rw [printable, Bool.and_eq_true] at parts
      have each := told body parts.2
      exact List.forall_mem_singleton.mpr fun n => told_single (told_wdo each ok n) rfl
  | .foor id start finish body, ok => by
      have parts := ok
      rw [printable, Bool.and_eq_true] at parts
      have each := told body parts.2
      exact List.forall_mem_singleton.mpr fun n => told_single (told_foor each ok n) rfl

theorem toldAll : ∀ (body : List AstStmt), allPrintable body = true →
    ∀ u ∈ openedAll body, ∀ n, Told n u
  | [], _ => fun _ member => nomatch member
  | s :: body, ok => by
      rw [allPrintable, Bool.and_eq_true] at ok
      exact List.forall_mem_append.mpr ⟨told s ok.1, toldAll body ok.2⟩

end

theorem tells {s : AstStmt} (ok : s.printable = true) (n : Nat) :
    Tells (fun s => s.printable = true) (·.print n) opened (StartsBefore ' ' n) s :=
  fun _ _ _ ok' may may' same => told_body (told s ok) ok ok' may may' same

end AstStmt

end Dragon
