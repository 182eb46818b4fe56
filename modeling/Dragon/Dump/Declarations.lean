import Dragon.Dump.Statements

/-! Types and declarations are told by their dump.

A reference is printed without a newline, so what follows it stands in its line.
Its name ends at a quote.
-/

set_option autoImplicit false

namespace Dragon

open PrintedText

namespace AstType

mutual

def printable : AstType → Bool
  | .array lower upper eltType => isQuotable lower && isQuotable upper && eltType.printable
  | .pointer target => target.printable
  | .record fields => printableFields fields
  | .ref n => isQuotable n
  | .integer | .real | .string | .boolean | .char => true
  | .void => false

def printableFields : List (Name × AstType) → Bool
  | [] => true
  | (n, type) :: fields => isQuotable n && type.printable && printableFields fields

end

def printField (indent : Nat) (field : Name × AstType) : List Char :=
  INDENT indent ++ ("FIELD `".toList ++ (field.1.toList ++ (puts "` WITH TYPE:" ++
    field.2.print (indent + INDSZ))))

theorem printFields_eq (fields : List (Name × AstType)) (n : Nat) :
    printFields fields n = fields.flatMap (printField n) := by
  induction fields with
  | nil => rfl
  | cons field fields ih =>
    rw [printFields, ih, List.flatMap_cons, printField]
    simp only [List.append_assoc]

theorem printableFields_iff {fields : List (Name × AstType)} : printableFields fields = true ↔
    ∀ field ∈ fields, isQuotable field.1 = true ∧ field.2.printable = true := by
  induction fields with
  | nil => simp [printableFields]
  | cons field fields ih =>
    rw [printableFields, Bool.and_eq_true, Bool.and_eq_true, ih, List.forall_mem_cons]

def head : AstType → List Char × Char
  | .integer => ("INTEGER".toList, '\n')
  | .real => ("REAL".toList, '\n')
  | .string => ("STRING".toList, '\n')
  | .boolean => ("BOOLEAN".toList, '\n')
  | .char => ("CHAR".toList, '\n')
  | .array _ _ _ => ("ARRAY".toList, ' ')
  | .pointer _ => ("POINTER".toList, ' ')
  | .ref _ => ("REFERENCE".toList, ' ')
  | .record _ => ("RECORD".toList, ' ')
  | .void => ([], '\n')

def after : AstType → Nat → List Char
  | .array lower upper eltType, n => "[`".toList ++ (lower.toList ++ '`' :: (" .. `".toList ++
      (upper.toList ++ '`' :: ("] OF:\n".toList ++ eltType.print (n + INDSZ)))))
  | .pointer target, n => puts "TO:" ++ target.print (n + INDSZ)
  | .ref name, _ => '`' :: (name.toList ++ ['`'])
  | .record fields, n => puts "WITH FIELDS:" ++ printFields fields (n + INDSZ)
  | .integer, _ | .real, _ | .string, _ | .boolean, _ | .char, _ | .void, _ => []

theorem print_head {t : AstType} (ok : t.printable = true) (n : Nat) :
    t.print n = INDENT n ++ (t.head.1 ++ t.head.2 :: t.after n) := by
  cases t with
  | void => cases ok
  | _ =>
    rw [print]
    rfl

theorem all_head (t : AstType) : t.head.1.all isPathChar = true ∧ isPathChar t.head.2 = false := by
  cases t <;> exact ⟨rfl, rfl⟩

/-- The first words of the lines, in the order of the constructors. -/
def headWords : List (List Char) :=
  ["ARRAY".toList, "BOOLEAN".toList, "CHAR".toList, "INTEGER".toList, "POINTER".toList, "REAL".toList,
    "RECORD".toList, "REFERENCE".toList, "STRING".toList, []]

theorem kind_of_head {t u : AstType} (word : t.head.1 = u.head.1) : t.ctorIdx = u.ctorIdx := by
  have listed : ∀ t : AstType, headWords[t.ctorIdx]? = some t.head.1 := by
    intro t
    cases t <;> rfl
  have apart : headWords.Nodup := by decide
  have small := (List.getElem?_eq_some_iff.mp (listed t)).1
  apply (List.getElem?_inj small apart).mp
  rw [listed, listed, word]

theorem atColumn {t : AstType} (ok : t.printable = true) (n : Nat) (r : List Char) :
    AtColumn ' ' n (t.print n ++ r) := by
  rw [print_head ok, List.append_assoc, List.append_assoc]
  refine atColumn_word (all_head t).1 ?_
  cases t with
  | void => cases ok
  | _ => exact fun empty => by cases empty

theorem same_head {t u : AstType} (ok : t.printable = true) (ok' : u.printable = true) {n : Nat}
    {r r' : List Char} (same : t.print n ++ r = u.print n ++ r') :
    t.ctorIdx = u.ctorIdx ∧ t.after n ++ r = u.after n ++ r' := by
  simp only [print_head ok, print_head ok', List.append_assoc, List.cons_append] at same
  obtain ⟨word, -, rest⟩ := word_unique (all_head t).1 (all_head u).1 (all_head t).2
    (all_head u).2 (columns_unique same)
  exact ⟨kind_of_head word, rest⟩

abbrev Told (n : Nat) (t : AstType) : Prop :=
  Tells (fun t => t.printable = true) (·.print n) id (StartsBefore ' ' (n + INDSZ)) t

theorem told_field {field : Name × AstType} {n : Nat} (told : Told (n + INDSZ) field.2)
    (quotable : isQuotable field.1 = true) :
    Tells (fun f : Name × AstType => isQuotable f.1 = true ∧ f.2.printable = true) (printField n) id
      (StartsBefore ' ' (n + INDSZ)) field := by
  intro field' r r' ok' may may' same
  simp only [printField, List.append_assoc] at same
  have named := List.append_cancel_left (columns_unique same)
  obtain ⟨name, more⟩ := quoted_unique quotable ok'.1 named
  obtain ⟨type, ends⟩ := told field'.2 r r' ok'.2 (startsBefore_next may) (startsBefore_next may')
    (List.append_cancel_left (show puts " WITH TYPE:" ++ _ = puts " WITH TYPE:" ++ _ from more))
  exact ⟨Prod.ext name type, ends⟩

theorem told_fields {fields fields' : List (Name × AstType)} {n : Nat} {r r' : List Char}
    (each : ∀ field ∈ fields, ∀ n, Told n field.2) (ok : printableFields fields = true)
    (ok' : printableFields fields' = true) (may : StartsBefore ' ' n r) (may' : StartsBefore ' ' n r')
    (same : printFields fields n ++ r = printFields fields' n ++ r') : fields = fields' ∧ r = r' := by
  have right : n < n + INDSZ := Nat.lt_add_of_pos_right (by decide)
  rw [printFields_eq, printFields_eq] at same
  have all := printableFields_iff.mp ok
  have told := tells_list (fun field member => told_field (each field member _) (all field member).1)
    (fun field _ r => by
      rw [printField, List.append_assoc]
      exact atColumn_indent (c := 'F') (by decide))
    right all fields' r r' (printableFields_iff.mp ok') may may' same
  simpa only [List.map_id] using told

mutual

theorem told : ∀ (t : AstType), t.printable = true → ∀ n, Told n t
  | .array lower upper eltType, ok, n => by
      intro u r r' ok' may may' same
      obtain ⟨kind, rest⟩ := same_head ok ok' same
      cases u with
      | array lower' upper' eltType' =>
        simp only [printable, Bool.and_eq_true] at ok ok'
        simp only [after, List.append_assoc, List.cons_append] at rest
        obtain ⟨rfl, more⟩ := quoted_unique ok.1.1 ok'.1.1 (List.append_cancel_left rest)
        obtain ⟨rfl, more'⟩ := quoted_unique ok.1.2 ok'.1.2 (List.append_cancel_left more)
        obtain ⟨elements, ends⟩ := told eltType ok.2 _ eltType' _ _ ok'.2 (startsBefore_next may)
          (startsBefore_next may') (List.append_cancel_left more')
        exact ⟨by rw [show eltType = eltType' from elements], ends⟩
      | _ => cases kind
  | .pointer target, ok, n => by
      intro u r r' ok' may may' same
      obtain ⟨kind, rest⟩ := same_head ok ok' same
      cases u with
      | pointer target' =>
        simp only [after, List.append_assoc] at rest
        obtain ⟨here, ends⟩ := told target ok _ target' _ _ ok' (startsBefore_next may)
          (startsBefore_next may') (List.append_cancel_left rest)
        exact ⟨by rw [show target = target' from here], ends⟩
      | _ => cases kind
  | .record fields, ok, n => by
      intro u r r' ok' may may' same
      obtain ⟨kind, rest⟩ := same_head ok ok' same
      cases u with
      | record fields' =>
        simp only [after, List.append_assoc] at rest
        obtain ⟨here, ends⟩ := told_fields (toldAll fields ok) ok ok' may may'
          (List.append_cancel_left rest)
        exact ⟨by rw [here], ends⟩
      | _ => cases kind
  | .ref name, ok, n => by
      intro u r r' ok' may may' same
      obtain ⟨kind, rest⟩ := same_head ok ok' same
      cases u with
      | ref name' =>
        simp only [after, List.cons_append, List.append_assoc, List.nil_append] at rest
        obtain ⟨rfl, ends⟩ := quoted_unique ok ok' (List.cons.inj rest).2
        exact ⟨rfl, ends⟩
      | _ => cases kind
  | .integer, ok, n | .real, ok, n | .string, ok, n | .boolean, ok, n | .char, ok, n => by
      intro u r r' ok' may may' same
      obtain ⟨kind, rest⟩ := same_head ok ok' same
      cases u <;> first | exact ⟨rfl, rest⟩ | cases kind

theorem toldAll : ∀ (fields : List (Name × AstType)), printableFields fields = true →
    ∀ field ∈ fields, ∀ n, Told n field.2
  | [], _ => fun _ member => nomatch member
  | (name, type) :: fields, ok => by
      rw [printableFields, Bool.and_eq_true, Bool.and_eq_true] at ok
      exact List.forall_mem_cons.mpr ⟨told type ok.1.2, toldAll fields ok.2⟩

end

end AstType

/-! ## Declarations -/

theorem told_name {name : Name} (ok : isQuotable name = true) (n : Nat) :
    Tells (fun name => isQuotable name = true) (Name.print n) id (StartsBefore ' ' (n + INDSZ))
      name := by
  intro name' r r' ok' _ _ same
  simp only [Name.print, List.append_assoc, List.cons_append] at same
  obtain ⟨here, ends⟩ := quoted_unique (r := '\n' :: r) ok ok'
    (List.cons.inj (columns_unique same)).2
  exact ⟨here, (List.cons.inj ends).2⟩

theorem told_names {names names' : List Name} {n : Nat} {r r' : List Char}
    (ok : names.all isQuotable = true) (ok' : names'.all isQuotable = true)
    (may : StartsBefore ' ' n r) (may' : StartsBefore ' ' n r')
    (same : names.flatMap (Name.print n) ++ r = names'.flatMap (Name.print n) ++ r') :
    names = names' ∧ r = r' := by
  have right : n < n + INDSZ := Nat.lt_add_of_pos_right (by decide)
  have all := List.all_eq_true.mp ok
  have told := tells_list (fun name member => told_name (all name member) n)
    (fun name _ r => by
      rw [Name.print, List.append_assoc]
      exact atColumn_indent (c := '`') (by decide))
    right all names' r r' (List.all_eq_true.mp ok') may may' same
  simpa only [List.map_id] using told

namespace AstDecls

def printable (d : AstDecls) : Bool := d.names.all isQuotable && d.type.printable

theorem atColumn (d : AstDecls) (n : Nat) (r : List Char) : AtColumn ' ' n (d.print n ++ r) := by
  rw [print, List.append_assoc]
  exact atColumn_indent (c := 'D') (by decide)

theorem told {d : AstDecls} (ok : d.printable = true) (n : Nat) :
    Tells (fun d => d.printable = true) (AstDecls.print n) id (StartsBefore ' ' (n + INDSZ)) d := by
  intro d' r r' ok' may may' same
  rw [printable, Bool.and_eq_true] at ok ok'
  simp only [print, List.append_assoc] at same
  have next : ∀ s, StartsBefore ' ' (n + INDSZ + INDSZ) (INDENT n ++ (puts "OF NAMES:" ++ s)) :=
    fun s => startsBefore_next (startsBefore_line (c := 'O') (by decide))
  obtain ⟨type, rest⟩ := d.type.told ok.2 _ d'.type _ _ ok'.2 (next _) (next _)
    (List.append_cancel_left (columns_unique same))
  obtain ⟨names, ends⟩ := told_names ok.1 ok'.1 may may'
    (List.append_cancel_left (List.append_cancel_left rest))
  cases d
  cases d'
  cases type
  cases names
  exact ⟨rfl, ends⟩

theorem told_list {ds ds' : List AstDecls} {n : Nat} {r r' : List Char}
    (ok : ds.all printable = true) (ok' : ds'.all printable = true) (may : StartsBefore ' ' n r)
    (may' : StartsBefore ' ' n r')
    (same : ds.flatMap (AstDecls.print n) ++ r = ds'.flatMap (AstDecls.print n) ++ r') :
    ds = ds' ∧ r = r' := by
  have right : n < n + INDSZ := Nat.lt_add_of_pos_right (by decide)
  have all := List.all_eq_true.mp ok
  have told := tells_list (fun d member => told (all d member) n) (fun d _ => atColumn d n) right all
    ds' r r' (List.all_eq_true.mp ok') may may' same
  simpa only [List.map_id] using told

end AstDecls

namespace AstSig

/-- A function has a result and a procedure has none. -/
def printable (sig : AstSig) : Bool :=
  sig.args.all AstDecls.printable &&
    match sig.type, sig.retty with
    | .function, some t => t.printable
    | .procedure, none => true
    | _, _ => false

theorem atColumn (sig : AstSig) (n : Nat) (r : List Char) : AtColumn ' ' n (sig.print n ++ r) := by
  rw [print, List.append_assoc]
  split
  · exact atColumn_indent (c := 'F') (by decide)
  · exact atColumn_indent (c := 'P') (by decide)

theorem told {sig : AstSig} (ok : sig.printable = true) (n : Nat) :
    Tells (fun sig => sig.printable = true) (AstSig.print n) id (StartsBefore ' ' (n + INDSZ)) sig := by
  intro sig' r r' ok' may may' same
  obtain ⟨type, args, retty⟩ := sig
  obtain ⟨type', args', retty'⟩ := sig'
  rw [printable, Bool.and_eq_true] at ok ok'
  simp only [print, List.append_assoc] at same
  have words := columns_unique same
  have next : ∀ s, StartsBefore ' ' (n + INDSZ) (INDENT n ++ (puts "RETURNING:" ++ s)) := fun s =>
    startsBefore_line (c := 'R') (by decide)
  cases type with
  | function =>
    cases type' with
    | procedure => cases (List.cons.inj words).1
    | function =>
      cases retty with
      | none => cases ok.2
      | some t =>
        cases retty' with
        | none => cases ok'.2
        | some t' =>
          simp only [if_true, Option.map_some, Option.getD_some, List.append_assoc] at words
          obtain ⟨rfl, rest⟩ := AstDecls.told_list ok.1 ok'.1 (next _) (next _)
            (List.append_cancel_left (List.append_cancel_left words))
          obtain ⟨result, ends⟩ := t.told ok.2 _ t' _ _ ok'.2 (startsBefore_next may)
            (startsBefore_next may') (List.append_cancel_left (List.append_cancel_left rest))
          exact ⟨by rw [show t = t' from result], ends⟩
  | procedure =>
    cases type' with
    | function => cases (List.cons.inj words).1
    | procedure =>
      cases retty with
      | some t => cases ok.2
      | none =>
        cases retty' with
        | some t' => cases ok'.2
        | none =>
          simp only [reduceCtorEq, if_false, List.nil_append] at words
          obtain ⟨rfl, ends⟩ := AstDecls.told_list ok.1 ok'.1 may may'
            (List.append_cancel_left (List.append_cancel_left words))
          exact ⟨rfl, ends⟩

end AstSig

end Dragon
