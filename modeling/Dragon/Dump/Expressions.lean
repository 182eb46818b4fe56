import Dragon.Dump.Printer

/-! Expressions are told by their dump.

The line of an expression starts with a word of its own, or it is a path and
nothing else. Its parts start further right than what follows it, but for the
lines that are printed at the margin.
-/

set_option autoImplicit false

namespace Dragon

open PrintedText

/-! ## Names and operators -/

def isNameChar (c : Char) : Bool := c.isAlpha || c.isDigit || c == '_'

def isPathChar (c : Char) : Bool := isNameChar c || c == '.'

/-- An identifier is told by what it is printed between. -/
def isPlain (n : Name) : Bool := n.toList.all isNameChar

/-- A spelling that may stand in quotes. -/
def isQuotable (n : Name) : Bool := n.toList.all (· != '`')

def AstPath.printable (p : AstPath) : Bool := isPlain p.first && p.rest.all isPlain

theorem all_printFrom {n : Name} {rest : List Name} (first : isPlain n = true)
    (others : rest.all isPlain = true) : (AstPath.printFrom n rest).all isPathChar = true := by
  have name : ∀ {n : Name}, isPlain n = true → n.toList.all isPathChar = true := by
    intro n plain
    rw [List.all_eq_true]
    intro c member
    rw [isPathChar, List.all_eq_true.mp plain c member, Bool.true_or]
  induction rest generalizing n with
  | nil => exact name first
  | cons m rest ih =>
    rw [List.all_cons, Bool.and_eq_true] at others
    rw [AstPath.printFrom, List.all_append, List.all_cons, name first, ih others.1 others.2]
    rfl

theorem printFrom_unique {n m : Name} {ns ms : List Name} {c c' : Char} {r r' : List Char}
    (plain : isPlain n = true ∧ ns.all isPlain = true)
    (plain' : isPlain m = true ∧ ms.all isPlain = true) (mark : isPathChar c = false)
    (mark' : isPathChar c' = false)
    (same : AstPath.printFrom n ns ++ c :: r = AstPath.printFrom m ms ++ c' :: r') :
    n = m ∧ ns = ms ∧ c = c' ∧ r = r' := by
  have other : ∀ {c}, isPathChar c = false → isNameChar c = false ∧ c ≠ '.' := by
    intro c mark
    simpa [isPathChar] using mark
  induction ns generalizing n m ms with
  | nil =>
    cases ms with
    | nil =>
      obtain ⟨name, ends⟩ := word_unique plain.1 plain'.1 (other mark).1 (other mark').1 same
      exact ⟨String.toList_injective name, rfl, ends⟩
    | cons k ms =>
      rw [AstPath.printFrom, AstPath.printFrom, List.append_assoc, List.cons_append] at same
      obtain ⟨-, point, -⟩ := word_unique plain.1 plain'.1 (other mark).1 rfl same
      exact absurd point (other mark).2
  | cons j ns ih =>
    cases ms with
    | nil =>
      rw [AstPath.printFrom, AstPath.printFrom, List.append_assoc, List.cons_append] at same
      obtain ⟨-, point, -⟩ := word_unique plain.1 plain'.1 rfl (other mark').1 same
      exact absurd point.symm (other mark').2
    | cons k ms =>
      simp only [AstPath.printFrom, List.append_assoc, List.cons_append] at same
      obtain ⟨name, -, rest⟩ := word_unique plain.1 plain'.1 rfl rfl same
      have others := Bool.and_eq_true_iff.mp (List.all_cons ▸ plain.2)
      have others' := Bool.and_eq_true_iff.mp (List.all_cons ▸ plain'.2)
      obtain ⟨rfl, rfl, ends⟩ := ih others others' rest
      exact ⟨String.toList_injective name, rfl, ends⟩

theorem path_unique {p p' : AstPath} {c c' : Char} {r r' : List Char} (ok : p.printable = true)
    (ok' : p'.printable = true) (mark : isPathChar c = false) (mark' : isPathChar c' = false)
    (same : p.print ++ c :: r = p'.print ++ c' :: r') : p = p' ∧ c = c' ∧ r = r' := by
  -- a path ends at a character that is not part of one
  obtain ⟨first, rest, ends⟩ := printFrom_unique (Bool.and_eq_true_iff.mp ok)
    (Bool.and_eq_true_iff.mp ok') mark mark' same
  cases p
  cases p'
  cases first
  cases rest
  exact ⟨rfl, ends⟩

theorem all_print {p : AstPath} (ok : p.printable = true) : p.print.all isPathChar = true :=
  all_printFrom (Bool.and_eq_true_iff.mp ok).1 (Bool.and_eq_true_iff.mp ok).2

theorem quoted_unique {n m : Name} {r r' : List Char} (ok : isQuotable n = true)
    (ok' : isQuotable m = true) (same : n.toList ++ '`' :: r = m.toList ++ '`' :: r') :
    n = m ∧ r = r' := by
  obtain ⟨name, -, ends⟩ := word_unique ok ok' rfl rfl same
  exact ⟨String.toList_injective name, ends⟩

theorem operator_unique {op op' : Token} {r r' : List Char}
    (same : printToken op.write ++ r = printToken op'.write ++ r') : op = op' ∧ r = r' := by
  have line : ∀ op : Token, ∃ w, tokenLine op.write = some w := by
    intro op
    cases op <;> exact ⟨_, rfl⟩
  obtain ⟨w, here⟩ := line op
  obtain ⟨w', here'⟩ := line op'
  have word : ∀ {op : Token} {w : List Char}, tokenLine op.write = some w →
      w.all (· != '\n') = true := by
    intro op w here
    rw [List.all_eq_true]
    intro c member
    apply bne_iff_ne.mpr
    rintro rfl
    exact (tokenLine_newline (spelled_operator op) here).1 member
  rw [printToken, printToken, here, here', Option.map_some, Option.map_some, Option.getD_some,
    Option.getD_some, List.append_assoc, List.append_assoc] at same
  obtain ⟨rfl, -, ends⟩ := word_unique (word here) (word here') rfl rfl same
  have terminal := tokenLine_unique here here'
  refine ⟨?_, ends⟩
  cases op <;> cases op' <;> first | rfl | cases terminal

theorem atColumn_indent {n : Nat} {c : Char} {s : List Char} (other : c ≠ ' ') :
    AtColumn ' ' n (INDENT n ++ c :: s) := ⟨c, s, other, rfl⟩

theorem atColumn_word {n : Nat} {w : List Char} {c : Char} {s : List Char}
    (word : w.all isPathChar = true) (empty : w = [] → c ≠ ' ') :
    AtColumn ' ' n (INDENT n ++ (w ++ c :: s)) := by
  cases w with
  | nil => exact atColumn_indent (empty rfl)
  | cons d w =>
    refine atColumn_indent ?_
    rintro rfl
    rw [List.all_cons] at word
    cases word

theorem startsBefore_line {n : Nat} {c : Char} {s : List Char} (other : c ≠ ' ') :
    StartsBefore ' ' (n + INDSZ) (INDENT n ++ c :: s) :=
  (atColumn_indent other).startsBefore (Nat.lt_add_of_pos_right (by decide))

theorem startsBefore_next {n : Nat} {s : List Char} (here : StartsBefore ' ' n s) :
    StartsBefore ' ' (n + INDSZ) s := here.mono (Nat.le_add_right n INDSZ)

/-! ## Expressions -/

namespace AstExpr

mutual

def printable : AstExpr → Bool
  | .app p args => p.printable && allPrintable args
  | .bin _ left right => left.printable && right.printable
  | .deref target => target.printable
  | .idx p index => p.printable && index.printable
  | .lit n => isQuotable n
  | .path p => p.printable
  | .un _ operand => operand.printable
  | .addrof target => target.printable

def allPrintable : List AstExpr → Bool
  | [] => true
  | e :: args => e.printable && allPrintable args

end

theorem allPrintable_iff {args : List AstExpr} :
    allPrintable args = true ↔ ∀ e ∈ args, e.printable = true := by
  induction args with
  | nil => simp [allPrintable]
  | cons e args ih => simp [allPrintable, ih]

/-- The first word of the line of an expression, and the character after it. -/
def head : AstExpr → List Char × Char
  | .app _ _ => ("APPLY".toList, ' ')
  | .bin _ _ _ => ("BINOP".toList, ' ')
  | .deref _ => ("DEREF".toList, ':')
  | .idx _ _ => ("INDEX".toList, ' ')
  | .lit _ => ("LIT".toList, ' ')
  | .path p => (p.print, '\n')
  | .un _ _ => ("UNARY".toList, ' ')
  | .addrof _ => ("ADDRESS".toList, ' ')

/-- What is printed after its head. -/
def after : AstExpr → Nat → List Char
  | .app p args, n => '`' :: (p.print ++ '`' :: ('\n' :: (INDENT n ++ (puts "TO ARGS:" ++
      printAll args (n + INDSZ)))))
  | .bin op left right, n => printToken op.write ++ (INDENT (n + INDSZ) ++ ("LEFT:\n".toList ++
      (left.print (n + INDSZ + INDSZ) ++ (INDENT (n + INDSZ) ++ ("RIGHT:\n".toList ++
        right.print (n + INDSZ + INDSZ))))))
  | .deref target, n => '\n' :: (target.print (n + INDSZ) ++ puts "")
  | .idx p index, n => '`' :: (p.print ++ '`' :: (puts " WITH:" ++ index.print (n + INDSZ)))
  | .lit s, _ => '`' :: (s.toList ++ '`' :: ['\n'])
  | .path _, _ => []
  | .un op operand, n => printToken op.write ++ (puts ":" ++ operand.print (n + INDSZ))
  | .addrof target, n => puts "OF:" ++ target.print (n + INDSZ)

theorem print_head (e : AstExpr) (n : Nat) :
    e.print n = INDENT n ++ (e.head.1 ++ e.head.2 :: e.after n) := by
  cases e <;> rw [print] <;> rfl

theorem all_head {e : AstExpr} (ok : e.printable = true) :
    e.head.1.all isPathChar = true ∧ isPathChar e.head.2 = false := by
  cases e with
  | path p => exact ⟨all_print ok, rfl⟩
  | _ => exact ⟨rfl, rfl⟩

theorem kind_of_head {e e' : AstExpr} (word : e.head.1 = e'.head.1) (mark : e.head.2 = e'.head.2) :
    e.ctorIdx = e'.ctorIdx := by
  cases e <;> cases e' <;> first
    | rfl
    | (cases mark; done)
    | cases word

theorem atColumn {e : AstExpr} (ok : e.printable = true) (n : Nat) (r : List Char) :
    AtColumn ' ' n (e.print n ++ r) := by
  rw [print_head, List.append_assoc, List.append_assoc]
  refine atColumn_word (all_head ok).1 ?_
  cases e with
  | path p => exact fun _ newline => by cases newline
  | _ => exact fun empty => by cases empty

theorem same_head {e e' : AstExpr} (ok : e.printable = true) (ok' : e'.printable = true) {n : Nat}
    {r r' : List Char} (same : e.print n ++ r = e'.print n ++ r') :
    e.ctorIdx = e'.ctorIdx ∧ e.head.1 = e'.head.1 ∧ e.after n ++ r = e'.after n ++ r' := by
  simp only [print_head, List.append_assoc, List.cons_append] at same
  obtain ⟨word, mark, rest⟩ := word_unique (all_head ok).1 (all_head ok').1 (all_head ok).2
    (all_head ok').2 (columns_unique same)
  exact ⟨kind_of_head word mark, word, rest⟩

/-- An expression in a column is told by its text, before what starts less than one level further
right. -/
abbrev Told (n : Nat) (e : AstExpr) : Prop :=
  Tells (fun e => e.printable = true) (·.print n) id (StartsBefore ' ' (n + INDSZ)) e

theorem told_list {args args' : List AstExpr} {n : Nat} {r r' : List Char}
    (each : ∀ e ∈ args, Told n e) (ok : allPrintable args = true) (ok' : allPrintable args' = true)
    (may : StartsBefore ' ' n r) (may' : StartsBefore ' ' n r')
    (same : printAll args n ++ r = printAll args' n ++ r') : args = args' ∧ r = r' := by
  rw [printAll_eq, printAll_eq] at same
  have right : n < n + INDSZ := Nat.lt_add_of_pos_right (by decide)
  have told := tells_list each (fun e ok => atColumn ok n) right
    (allPrintable_iff.mp ok) args' r r' (allPrintable_iff.mp ok') may may' same
  simpa only [List.map_id] using told

mutual

theorem told : ∀ (e : AstExpr), e.printable = true → ∀ n, Told n e
  | .app p args, ok, n => by
      intro e' r r' ok' may may' same
      obtain ⟨kind, -, rest⟩ := same_head ok ok' same
      cases e' with
      | app p' args' =>
        rw [printable, Bool.and_eq_true] at ok ok'
        simp only [after, List.append_assoc, List.cons_append] at rest
        obtain ⟨rfl, -, more⟩ := path_unique ok.1 ok'.1 rfl rfl (List.cons.inj rest).2
        have inner := List.append_cancel_left (List.append_cancel_left (List.cons.inj more).2)
        obtain ⟨rfl, ends⟩ := told_list (toldAll args ok.2 (n + INDSZ)) ok.2 ok'.2 may may' inner
        exact ⟨rfl, ends⟩
      | _ => cases kind
  | .bin op left right, ok, n => by
      intro e' r r' ok' may may' same
      obtain ⟨kind, -, rest⟩ := same_head ok ok' same
      cases e' with
      | bin op' left' right' =>
        rw [printable, Bool.and_eq_true] at ok ok'
        simp only [after, List.append_assoc] at rest
        obtain ⟨rfl, more⟩ := operator_unique rest
        have first := List.append_cancel_left (List.append_cancel_left more)
        -- what comes after the left side is one level further left than it
        have next : ∀ s, StartsBefore ' ' (n + INDSZ + INDSZ + INDSZ)
            (INDENT (n + INDSZ) ++ ("RIGHT:\n".toList ++ s)) := by
          intro s
          have column : AtColumn ' ' (n + INDSZ) (INDENT (n + INDSZ) ++ ("RIGHT:\n".toList ++ s)) :=
            atColumn_indent (c := 'R') (by decide)
          exact column.startsBefore (by unfold INDSZ; omega)
        obtain ⟨here, others⟩ := told left ok.1 _ left' _ _ ok'.1 (next _) (next _) first
        have second := List.append_cancel_left (List.append_cancel_left others)
        obtain ⟨here', ends⟩ := told right ok.2 _ right' _ _ ok'.2
          (may.mono (by unfold INDSZ; omega)) (may'.mono (by unfold INDSZ; omega)) second
        exact ⟨by rw [show left = left' from here, show right = right' from here'], ends⟩
      | _ => cases kind
  | .deref target, ok, n => by
      intro e' r r' ok' may may' same
      obtain ⟨kind, -, rest⟩ := same_head ok ok' same
      cases e' with
      | deref target' =>
        simp only [after, List.append_assoc, List.cons_append] at rest
        have next : ∀ s, StartsBefore ' ' (n + INDSZ + INDSZ) (puts "" ++ s) := fun s =>
          (atColumn_indent (n := 0) (c := '\n') (s := s) (by decide)).startsBefore (by unfold INDSZ; omega)
        obtain ⟨here, ends⟩ := told target ok _ target' _ _ ok' (next r) (next r')
          (List.cons.inj rest).2
        exact ⟨by rw [show target = target' from here], List.append_cancel_left ends⟩
      | _ => cases kind
  | .idx p index, ok, n => by
      intro e' r r' ok' may may' same
      obtain ⟨kind, -, rest⟩ := same_head ok ok' same
      cases e' with
      | idx p' index' =>
        rw [printable, Bool.and_eq_true] at ok ok'
        simp only [after, List.append_assoc, List.cons_append] at rest
        obtain ⟨rfl, -, more⟩ := path_unique ok.1 ok'.1 rfl rfl (List.cons.inj rest).2
        obtain ⟨here, ends⟩ := told index ok.2 _ index' _ _ ok'.2
          (may.mono (by unfold INDSZ; omega)) (may'.mono (by unfold INDSZ; omega))
          (List.append_cancel_left more)
        exact ⟨by rw [show index = index' from here], ends⟩
      | _ => cases kind
  | .lit s, ok, n => by
      intro e' r r' ok' may may' same
      obtain ⟨kind, -, rest⟩ := same_head ok ok' same
      cases e' with
      | lit s' =>
        simp only [after, List.append_assoc, List.cons_append] at rest
        obtain ⟨rfl, ends⟩ := quoted_unique ok ok' (List.cons.inj rest).2
        exact ⟨rfl, (List.cons.inj ends).2⟩
      | _ => cases kind
  | .path p, ok, n => by
      intro e' r r' ok' may may' same
      obtain ⟨kind, word, rest⟩ := same_head ok ok' same
      cases e' with
      | path p' =>
        have ended : p.print ++ '\n' :: r = p'.print ++ '\n' :: r := congrArg (· ++ '\n' :: r) word
        obtain ⟨rfl, -, -⟩ := path_unique ok ok' rfl rfl ended
        exact ⟨rfl, rest⟩
      | _ => cases kind
  | .un op operand, ok, n => by
      intro e' r r' ok' may may' same
      obtain ⟨kind, -, rest⟩ := same_head ok ok' same
      cases e' with
      | un op' operand' =>
        simp only [after, List.append_assoc] at rest
        obtain ⟨rfl, more⟩ := operator_unique rest
        obtain ⟨here, ends⟩ := told operand ok _ operand' _ _ ok'
          (may.mono (by unfold INDSZ; omega)) (may'.mono (by unfold INDSZ; omega))
          (List.append_cancel_left more)
        exact ⟨by rw [show operand = operand' from here], ends⟩
      | _ => cases kind
  | .addrof target, ok, n => by
      intro e' r r' ok' may may' same
      obtain ⟨kind, -, rest⟩ := same_head ok ok' same
      cases e' with
      | addrof target' =>
        simp only [after, List.append_assoc] at rest
        obtain ⟨here, ends⟩ := told target ok _ target' _ _ ok'
          (may.mono (by unfold INDSZ; omega)) (may'.mono (by unfold INDSZ; omega))
          (List.append_cancel_left rest)
        exact ⟨by rw [show target = target' from here], ends⟩
      | _ => cases kind

theorem toldAll : ∀ (args : List AstExpr), allPrintable args = true → ∀ n, ∀ e ∈ args, Told n e
  | [], _, _ => fun _ member => nomatch member
  | e :: args, ok, n => by
      rw [allPrintable, Bool.and_eq_true] at ok
      exact List.forall_mem_cons.mpr ⟨told e ok.1 n, toldAll args ok.2 n⟩

end

end AstExpr

end Dragon
