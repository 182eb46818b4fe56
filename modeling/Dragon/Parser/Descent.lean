import Dragon.Library.Reader
import Dragon.Parser.Reading

/-! Expressions are read by recursive descent.

The tasks of reading are run with a bound on their depth, which the length of
the tokens gives. What they read is derived by the productions, and the other
way round.
-/

set_option autoImplicit false

namespace Dragon

open Readers

section

variable {E : Type}

/-- What has been read, and the tokens after it. -/
abbrev Read (E : Type) := Option (Value E × List Terminal)

namespace Read

def expr (read : Read E) (rest : E → List Terminal → Read E) : Read E :=
  match read with
  | some (.expr e, s) => rest e s
  | _ => none

def path (read : Read E) (rest : AstPath → List Terminal → Read E) : Read E :=
  match read with
  | some (.path p, s) => rest p s
  | _ => none

def list (read : Read E) (rest : List E → List Terminal → Read E) : Read E :=
  match read with
  | some (.list es, s) => rest es s
  | _ => none

def closing (t : Terminal) (e : E) (s : List Terminal) : Read E :=
  (token t s).map fun read => (.expr e, read.2)

variable {read : Read E} {v : Value E} {r : List Terminal}

theorem expr_eq_some {rest : E → List Terminal → Read E} :
    read.expr rest = some (v, r) ↔ ∃ e s, read = some (.expr e, s) ∧ rest e s = some (v, r) := by
  constructor
  · intro taken
    unfold expr at taken
    split at taken
    · next e s => exact ⟨e, s, rfl, taken⟩
    · cases taken
  · rintro ⟨e, s, rfl, taken⟩
    exact taken

theorem path_eq_some {rest : AstPath → List Terminal → Read E} :
    read.path rest = some (v, r) ↔ ∃ p s, read = some (.path p, s) ∧ rest p s = some (v, r) := by
  constructor
  · intro taken
    unfold path at taken
    split at taken
    · next p s => exact ⟨p, s, rfl, taken⟩
    · cases taken
  · rintro ⟨p, s, rfl, taken⟩
    exact taken

theorem list_eq_some {rest : List E → List Terminal → Read E} :
    read.list rest = some (v, r) ↔ ∃ es s, read = some (.list es, s) ∧ rest es s = some (v, r) := by
  constructor
  · intro taken
    unfold list at taken
    split at taken
    · next es s => exact ⟨es, s, rfl, taken⟩
    · cases taken
  · rintro ⟨es, s, rfl, taken⟩
    exact taken

theorem closing_eq_some {t : Terminal} {e : E} {s : List Terminal} :
    closing t e s = some (v, r) ↔ s = t :: r ∧ v = .expr e := by
  rw [closing, Option.map_eq_some_iff]
  constructor
  · rintro ⟨⟨u, s'⟩, taken, same⟩
    cases same
    exact ⟨token_eq_some.mp taken, rfl⟩
  · rintro ⟨rfl, rfl⟩
    exact ⟨_, token_cons t r, rfl⟩

end Read

namespace Task

def run (A : Actions E) : Nat → Task E → List Terminal → Read E
  | 0, _, _ => none
  | n + 1, .path, s =>
    match s with
    | .ID m :: s => run A n (.fields (astPath m)) s
    | _ => none
  | n + 1, .fields p, s =>
    match s with
    | .char '.' :: .ID m :: s => run A n (.fields (astPathAppend p m)) s
    | s => if clear (· == .char '.') s then some (.path p, s) else none
  | n + 1, .factor, s =>
    match s with
    | .NUM m :: s => some (.expr (A.lit m), s)
    | .char '(' :: s => (run A n .expression s).expr fun e => Read.closing (.char ')') (A.paren e)
    | .NOT :: s => (run A n .factor s).expr fun e r => some (.expr (A.un .not e), r)
    | .char '@' :: s => (run A n .factor s).expr fun e r => some (.expr (A.addrof e), r)
    | s => (run A n .path s).path fun p => run A n (.suffix p)
  | n + 1, .suffix p, s =>
    match s with
    | .char '(' :: s => (run A n .list s).list fun es => Read.closing (.char ')') (A.app p es)
    | .char '[' :: s => (run A n .expression s).expr fun e => Read.closing (.char ']') (A.idx p e)
    | .char '^' :: s => some (.expr (A.deref p), s)
    | s => if clear isSuffix s then some (.expr (A.path p), s) else none
  | n + 1, .term, s => (run A n .factor s).expr fun e => run A n (.factors e)
  | n + 1, .factors e, s =>
    match s with
    | [] => some (.expr e, [])
    | t :: s =>
      match mulop t with
      | none => some (.expr e, t :: s)
      | some op => (run A n .factor s).expr fun f => run A n (.factors (A.bin op e f))
  | n + 1, .simple, s =>
    match s with
    | [] => none
    | t :: s =>
      match sign t with
      | none => (run A n .term (t :: s)).expr fun e => run A n (.terms e)
      | some op => (run A n .term s).expr fun e => run A n (.terms (A.un op e))
  | n + 1, .terms e, s =>
    match s with
    | [] => some (.expr e, [])
    | t :: s =>
      match addop t with
      | none => some (.expr e, t :: s)
      | some op => (run A n .term s).expr fun f => run A n (.terms (A.bin op e f))
  | n + 1, .expression, s =>
    (run A n .simple s).expr fun e s =>
      match s with
      | [] => some (.expr e, [])
      | t :: s =>
        match relop t with
        | none => some (.expr e, t :: s)
        | some op => (run A n .simple s).expr fun f r => some (.expr (A.bin op e f), r)
  | n + 1, .list, s =>
    match s with
    | [] => none
    | t :: s =>
      if isSeparator t then run A n (.members []) (t :: s)
      else (run A n .expression (t :: s)).expr fun e => run A n (.members [e])
  | n + 1, .members es, s =>
    match s with
    | .char ',' :: s => (run A n .expression s).expr fun e => run A n (.members (es ++ [e]))
    | s => if clear (· == .char ',') s then some (.list es, s) else none

end Task

theorem clear_iff {kind : Terminal → Bool} {s : List Terminal} :
    clear kind s = true ↔ Clear kind s := by
  cases s with
  | nil => simp [clear, Clear]
  | cons t s => simp [clear, Clear]

theorem clear_nil {kind : Terminal → Bool} : Clear kind [] := by
  intro t member
  cases member

/-! ## Runs read -/

theorem Task.reads_of_run {A : Actions E} {n : Nat} {task : Task E} {s r : List Terminal}
    {v : Value E} (taken : task.run A n s = some (v, r)) : Reads A task s v r := by
  induction n generalizing task s v r with
  | zero => cases taken
  | succ n ih =>
    cases task with
    | path =>
      unfold run at taken
      split at taken
      · exact .path (ih taken)
      · cases taken
    | fields p =>
      unfold run at taken
      split at taken
      · exact .field (ih taken)
      · split at taken
        · next ends =>
          cases taken
          exact .fieldsEnd (clear_iff.mp ends)
        · cases taken
    | factor =>
      unfold run at taken
      split at taken
      · cases taken
        exact .factorNum
      · obtain ⟨e, s', inside, close⟩ := Read.expr_eq_some.mp taken
        obtain ⟨rfl, rfl⟩ := Read.closing_eq_some.mp close
        exact .factorParen (ih inside)
      · obtain ⟨e, s', operand, same⟩ := Read.expr_eq_some.mp taken
        cases same
        exact .factorNot (ih operand)
      · obtain ⟨e, s', operand, same⟩ := Read.expr_eq_some.mp taken
        cases same
        exact .factorAddrof (ih operand)
      · obtain ⟨p, s', path, suffix⟩ := Read.path_eq_some.mp taken
        exact .factorPath (ih path) (ih suffix)
    | suffix p =>
      unfold run at taken
      split at taken
      · obtain ⟨es, s', args, close⟩ := Read.list_eq_some.mp taken
        obtain ⟨rfl, rfl⟩ := Read.closing_eq_some.mp close
        exact .suffixCall (ih args)
      · obtain ⟨e, s', index, close⟩ := Read.expr_eq_some.mp taken
        obtain ⟨rfl, rfl⟩ := Read.closing_eq_some.mp close
        exact .suffixIndex (ih index)
      · cases taken
        exact .suffixDeref
      · split at taken
        · next ends =>
          cases taken
          exact .suffixEnd (clear_iff.mp ends)
        · cases taken
    | term =>
      obtain ⟨e, s', first, others⟩ := Read.expr_eq_some.mp taken
      exact .term (ih first) (ih others)
    | factors e =>
      unfold run at taken
      split at taken
      · cases taken
        exact .factorsEnd clear_nil
      · split at taken
        · next none_ =>
          cases taken
          exact .factorsEnd (.of_not (by rw [none_]; rfl))
        · next op operator =>
          obtain ⟨f, s', right, others⟩ := Read.expr_eq_some.mp taken
          exact .mulop operator (ih right) (ih others)
    | simple =>
      unfold run at taken
      split at taken
      · cases taken
      · split at taken
        · next none_ =>
          obtain ⟨e, s', first, others⟩ := Read.expr_eq_some.mp taken
          exact .simpleTerm (.of_not (by rw [none_]; rfl)) (ih first) (ih others)
        · next op operator =>
          obtain ⟨e, s', first, others⟩ := Read.expr_eq_some.mp taken
          exact .simpleSign operator (ih first) (ih others)
    | terms e =>
      unfold run at taken
      split at taken
      · cases taken
        exact .termsEnd clear_nil
      · split at taken
        · next none_ =>
          cases taken
          exact .termsEnd (.of_not (by rw [none_]; rfl))
        · next op operator =>
          obtain ⟨f, s', right, others⟩ := Read.expr_eq_some.mp taken
          exact .addop operator (ih right) (ih others)
    | expression =>
      obtain ⟨e, s', left, after⟩ := Read.expr_eq_some.mp taken
      split at after
      · cases after
        exact .expressionSimple (ih left) clear_nil
      · split at after
        · next none_ =>
          cases after
          exact .expressionSimple (ih left) (.of_not (by rw [none_]; rfl))
        · next op operator =>
          obtain ⟨f, s', right, same⟩ := Read.expr_eq_some.mp after
          cases same
          exact .expressionRelop (ih left) operator (ih right)
    | list =>
      unfold run at taken
      split at taken
      · cases taken
      · split at taken
        · next separator => exact .listEmpty ⟨_, _, rfl, separator⟩ (ih taken)
        · next other =>
          obtain ⟨e, s', first, others⟩ := Read.expr_eq_some.mp taken
          exact .listOne (.of_not (Bool.eq_false_iff.mpr other)) (ih first) (ih others)
    | members es =>
      unfold run at taken
      split at taken
      · obtain ⟨e, s', next, others⟩ := Read.expr_eq_some.mp taken
        exact .member (ih next) (ih others)
      · split at taken
        · next ends =>
          cases taken
          exact .membersEnd (clear_iff.mp ends)
        · cases taken

/-! ## What is read is found by a run -/

/-- How far a task is above the tasks that take a token. -/
def Task.rank : Task E → Nat
  | .list => 6
  | .expression => 5
  | .simple => 4
  | .term => 3
  | .factor => 2
  | .path => 1
  | .fields _ | .suffix _ | .factors _ | .terms _ | .members _ => 0

/-- The number of tokens that a task takes at least. -/
def Task.least : Task E → Nat
  | .path | .factor | .term | .simple | .expression => 1
  | _ => 0

theorem Reads.length_le {A : Actions E} {task : Task E} {s r : List Terminal} {v : Value E}
    (read : Reads A task s v r) : r.length + task.least ≤ s.length := by
  induction read <;> simp only [Task.least, List.length_cons] at * <;> omega

-- Every turn of the recursion takes a token or goes down to a task of lower rank.
theorem Reads.run {A : Actions E} {task : Task E} {s r : List Terminal} {v : Value E}
    (read : Reads A task s v r) :
    ∀ n, 8 * s.length + task.rank < n → task.run A n s = some (v, r) := by
  have atLeast : ∀ {k : Nat} {p : Nat → Prop}, (∀ n, k < n + 1 → p (n + 1)) → ∀ n, k < n → p n := by
    intro k p step n less
    cases n with
    | zero => exact absurd less (Nat.not_lt_zero k)
    | succ n => exact step n less
  induction read with
  | path fields ih =>
    refine atLeast fun n bound => ?_
    simp only [Task.rank, List.length_cons] at bound ih
    exact ih n (by omega)
  | field fields ih =>
    refine atLeast fun n bound => ?_
    simp only [Task.rank, List.length_cons] at bound ih
    exact ih n (by omega)
  | @fieldsEnd p s ends =>
    refine atLeast fun n bound => ?_
    unfold Task.run
    split
    · cases ends.not
    · rw [if_pos (clear_iff.mpr ends)]
  | @factorPath p s s' r v path suffix ih₁ ih₂ =>
    refine atLeast fun n bound => ?_
    have shorter := path.length_le
    simp only [Task.rank, Task.least] at bound shorter ih₁ ih₂
    unfold Task.run
    split
    · cases path
    · cases path
    · cases path
    · cases path
    · exact Read.path_eq_some.mpr ⟨p, s', ih₁ n (by omega), ih₂ n (by omega)⟩
  | factorNum =>
    refine atLeast fun n bound => ?_
    rfl
  | @factorParen e s r inside ih =>
    refine atLeast fun n bound => ?_
    simp only [Task.rank, List.length_cons] at bound ih
    exact Read.expr_eq_some.mpr ⟨e, _, ih n (by omega), Read.closing_eq_some.mpr ⟨rfl, rfl⟩⟩
  | @factorNot e s r operand ih =>
    refine atLeast fun n bound => ?_
    simp only [Task.rank, List.length_cons] at bound ih
    exact Read.expr_eq_some.mpr ⟨e, r, ih n (by omega), rfl⟩
  | @factorAddrof e s r operand ih =>
    refine atLeast fun n bound => ?_
    simp only [Task.rank, List.length_cons] at bound ih
    exact Read.expr_eq_some.mpr ⟨e, r, ih n (by omega), rfl⟩
  | @suffixCall p es s r args ih =>
    refine atLeast fun n bound => ?_
    simp only [Task.rank, List.length_cons] at bound ih
    exact Read.list_eq_some.mpr ⟨es, _, ih n (by omega), Read.closing_eq_some.mpr ⟨rfl, rfl⟩⟩
  | @suffixIndex p e s r index ih =>
    refine atLeast fun n bound => ?_
    simp only [Task.rank, List.length_cons] at bound ih
    exact Read.expr_eq_some.mpr ⟨e, _, ih n (by omega), Read.closing_eq_some.mpr ⟨rfl, rfl⟩⟩
  | suffixDeref =>
    refine atLeast fun n bound => ?_
    rfl
  | suffixEnd ends =>
    refine atLeast fun n bound => ?_
    unfold Task.run
    split
    · cases ends.not
    · cases ends.not
    · cases ends.not
    · rw [if_pos (clear_iff.mpr ends)]
  | @term e s s' r v first others ih₁ ih₂ =>
    refine atLeast fun n bound => ?_
    have shorter := first.length_le
    simp only [Task.rank, Task.least] at bound shorter ih₁ ih₂
    exact Read.expr_eq_some.mpr ⟨e, s', ih₁ n (by omega), ih₂ n (by omega)⟩
  | @mulop e f t op s s' r v operator right others ih₁ ih₂ =>
    refine atLeast fun n bound => ?_
    have shorter := right.length_le
    simp only [Task.rank, Task.least, List.length_cons] at bound shorter ih₁ ih₂
    unfold Task.run
    simp only [operator]
    exact Read.expr_eq_some.mpr ⟨f, s', ih₁ n (by omega), ih₂ n (by omega)⟩
  | @factorsEnd e s ends =>
    refine atLeast fun n bound => ?_
    cases s with
    | nil => rfl
    | cons t s =>
      have none_ : Dragon.mulop t = none := by simpa using ends.not
      unfold Task.run
      simp only [none_]
  | @simpleTerm e s s' r v unsigned first others ih₁ ih₂ =>
    refine atLeast fun n bound => ?_
    have shorter := first.length_le
    simp only [Task.rank, Task.least] at bound shorter ih₁ ih₂
    cases s with
    | nil => exact absurd shorter (Nat.not_succ_le_zero _)
    | cons t s =>
      have none_ : sign t = none := by simpa using unsigned.not
      unfold Task.run
      simp only [none_]
      exact Read.expr_eq_some.mpr ⟨e, s', ih₁ n (by omega), ih₂ n (by omega)⟩
  | @simpleSign e t op s s' r v operator first others ih₁ ih₂ =>
    refine atLeast fun n bound => ?_
    have shorter := first.length_le
    simp only [Task.rank, Task.least, List.length_cons] at bound shorter ih₁ ih₂
    unfold Task.run
    simp only [operator]
    exact Read.expr_eq_some.mpr ⟨e, s', ih₁ n (by omega), ih₂ n (by omega)⟩
  | @addop e f t op s s' r v operator right others ih₁ ih₂ =>
    refine atLeast fun n bound => ?_
    have shorter := right.length_le
    simp only [Task.rank, Task.least, List.length_cons] at bound shorter ih₁ ih₂
    unfold Task.run
    simp only [operator]
    exact Read.expr_eq_some.mpr ⟨f, s', ih₁ n (by omega), ih₂ n (by omega)⟩
  | @termsEnd e s ends =>
    refine atLeast fun n bound => ?_
    cases s with
    | nil => rfl
    | cons t s =>
      have none_ : Dragon.addop t = none := by simpa using ends.not
      unfold Task.run
      simp only [none_]
  | @expressionRelop e f t op s s' r left operator right ih₁ ih₂ =>
    refine atLeast fun n bound => ?_
    have shorter := left.length_le
    simp only [Task.rank, Task.least, List.length_cons] at bound shorter ih₁ ih₂
    refine Read.expr_eq_some.mpr ⟨e, t :: s', ih₁ n (by omega), ?_⟩
    simp only [operator]
    exact Read.expr_eq_some.mpr ⟨f, r, ih₂ n (by omega), rfl⟩
  | @expressionSimple e s r simple ends ih =>
    refine atLeast fun n bound => ?_
    simp only [Task.rank] at bound ih
    refine Read.expr_eq_some.mpr ⟨e, r, ih n (by omega), ?_⟩
    cases r with
    | nil => rfl
    | cons t r =>
      have none_ : relop t = none := by simpa using ends.not
      simp only [none_]
  | @listOne e s s' r v some_ first others ih₁ ih₂ =>
    refine atLeast fun n bound => ?_
    have shorter := first.length_le
    simp only [Task.rank, Task.least] at bound shorter ih₁ ih₂
    cases s with
    | nil => exact absurd shorter (Nat.not_succ_le_zero _)
    | cons t s =>
      unfold Task.run
      simp only [some_.not, Bool.false_eq_true, if_false]
      exact Read.expr_eq_some.mpr ⟨e, s', ih₁ n (by omega), ih₂ n (by omega)⟩
  | @listEmpty s r v none_ others ih =>
    refine atLeast fun n bound => ?_
    obtain ⟨t, us, rfl, separator⟩ := none_
    simp only [Task.rank] at bound ih
    unfold Task.run
    simp only [separator, if_true]
    exact ih n (by omega)
  | @member e es s s' r v next others ih₁ ih₂ =>
    refine atLeast fun n bound => ?_
    have shorter := next.length_le
    simp only [Task.rank, Task.least, List.length_cons] at bound shorter ih₁ ih₂
    exact Read.expr_eq_some.mpr ⟨e, s', ih₁ n (by omega), ih₂ n (by omega)⟩
  | membersEnd ends =>
    refine atLeast fun n bound => ?_
    unfold Task.run
    split
    · cases ends.not
    · rw [if_pos (clear_iff.mpr ends)]

/-! ## What is read is derived -/

/-- A loop goes on with tokens that its symbol has derived. -/
def Task.Derived (A : Actions E) : Task E → List Terminal → Value E → Prop
  | .path, ts, v => Derives A .path ts v
  | .fields p, ts, v => ∀ us, Derives A .path us (.path p) → Derives A .path (us ++ ts) v
  | .factor, ts, v => Derives A .factor ts v
  | .suffix p, ts, v => ∀ us, Derives A .path us (.path p) → Derives A .factor (us ++ ts) v
  | .term, ts, v => Derives A .term ts v
  | .factors e, ts, v => ∀ us, Derives A .term us (.expr e) → Derives A .term (us ++ ts) v
  | .simple, ts, v => Derives A .simpleExpression ts v
  | .terms e, ts, v => ∀ us, Derives A .simpleExpression us (.expr e) →
      Derives A .simpleExpression (us ++ ts) v
  | .expression, ts, v => Derives A .expression ts v
  | .list, ts, v => Derives A .expressionList ts v
  | .members es, ts, v => ∀ us, Derives A .expressionList us (.list es) →
      Derives A .expressionList (us ++ ts) v

theorem Reads.derives {A : Actions E} {task : Task E} {s r : List Terminal} {v : Value E}
    (read : Reads A task s v r) : ∃ ts, s = ts ++ r ∧ task.Derived A ts v := by
  -- a loop that ends takes nothing more
  have done : ∀ {s : Symbol} {s' : List Terminal} {w w' : Value E}, w = w' →
      ∃ ts, s' = ts ++ s' ∧ ∀ us, Derives A s us w → Derives A s (us ++ ts) w' := by
    rintro s s' w _ rfl
    refine ⟨[], rfl, fun us derived => ?_⟩
    rwa [List.append_nil]
  induction read with
  | path _ ih =>
    obtain ⟨ts, rfl, fields⟩ := ih
    exact ⟨_ :: ts, rfl, fields [_] .pathName⟩
  | @field p n _ _ _ _ ih =>
    obtain ⟨ts, rfl, fields⟩ := ih
    refine ⟨.char '.' :: .ID n :: ts, rfl, fun us path => ?_⟩
    have more := fields _ (.pathField path)
    rwa [List.append_assoc] at more
  | fieldsEnd => exact done rfl
  | factorPath _ _ ih₁ ih₂ =>
    obtain ⟨ts, rfl, path⟩ := ih₁
    obtain ⟨us, rfl, suffix⟩ := ih₂
    exact ⟨ts ++ us, (List.append_assoc ..).symm, suffix ts path⟩
  | factorNum => exact ⟨[_], rfl, .factorNum⟩
  | factorParen _ ih =>
    obtain ⟨ts, rfl, inside⟩ := ih
    exact ⟨_, by simp, .factorParen inside⟩
  | factorNot _ ih =>
    obtain ⟨ts, rfl, operand⟩ := ih
    exact ⟨_ :: ts, rfl, .factorNot operand⟩
  | factorAddrof _ ih =>
    obtain ⟨ts, rfl, operand⟩ := ih
    exact ⟨_ :: ts, rfl, .factorAddrof operand⟩
  | suffixCall _ ih =>
    obtain ⟨ts, rfl, args⟩ := ih
    exact ⟨.char '(' :: (ts ++ [.char ')']), by simp, fun us path => .factorCall path args⟩
  | suffixIndex _ ih =>
    obtain ⟨ts, rfl, index⟩ := ih
    exact ⟨.char '[' :: (ts ++ [.char ']']), by simp,
      fun us path => .factorLvalue (.lvalueIndex path index)⟩
  | suffixDeref =>
    exact ⟨[.char '^'], rfl, fun us path => .factorLvalue (.lvalueDeref path)⟩
  | suffixEnd =>
    refine ⟨[], rfl, fun us path => ?_⟩
    rw [List.append_nil]
    exact .factorLvalue (.lvaluePath path)
  | term _ _ ih₁ ih₂ =>
    obtain ⟨ts, rfl, first⟩ := ih₁
    obtain ⟨us, rfl, others⟩ := ih₂
    exact ⟨ts ++ us, (List.append_assoc ..).symm, others ts (.termFactor first)⟩
  | @mulop _ _ t _ _ _ _ _ operator _ _ ih₁ ih₂ =>
    obtain ⟨ts, rfl, right⟩ := ih₁
    obtain ⟨us, rfl, others⟩ := ih₂
    refine ⟨t :: (ts ++ us), by simp, fun ws left => ?_⟩
    have more := others _ (.termMulop left operator right)
    rwa [List.append_assoc] at more
  | factorsEnd => exact done rfl
  | simpleTerm _ _ _ ih₁ ih₂ =>
    obtain ⟨ts, rfl, first⟩ := ih₁
    obtain ⟨us, rfl, others⟩ := ih₂
    exact ⟨ts ++ us, (List.append_assoc ..).symm, others ts (.simpleTerm first)⟩
  | @simpleSign _ t _ _ _ _ _ operator _ _ ih₁ ih₂ =>
    obtain ⟨ts, rfl, first⟩ := ih₁
    obtain ⟨us, rfl, others⟩ := ih₂
    exact ⟨t :: (ts ++ us), by simp, others (t :: ts) (.simpleSign operator first)⟩
  | @addop _ _ t _ _ _ _ _ operator _ _ ih₁ ih₂ =>
    obtain ⟨ts, rfl, right⟩ := ih₁
    obtain ⟨us, rfl, others⟩ := ih₂
    refine ⟨t :: (ts ++ us), by simp, fun ws left => ?_⟩
    have more := others _ (.simpleAddop left operator right)
    rwa [List.append_assoc] at more
  | termsEnd => exact done rfl
  | @expressionRelop _ _ t _ _ _ _ _ operator _ ih₁ ih₂ =>
    obtain ⟨ts, rfl, left⟩ := ih₁
    obtain ⟨us, rfl, right⟩ := ih₂
    exact ⟨ts ++ t :: us, by simp, .expressionRelop left operator right⟩
  | expressionSimple _ _ ih =>
    obtain ⟨ts, rfl, simple⟩ := ih
    exact ⟨ts, rfl, .expressionSimple simple⟩
  | listOne _ _ _ ih₁ ih₂ =>
    obtain ⟨ts, rfl, first⟩ := ih₁
    obtain ⟨us, rfl, others⟩ := ih₂
    exact ⟨ts ++ us, (List.append_assoc ..).symm, others ts (.listOne first)⟩
  | listEmpty _ _ ih =>
    obtain ⟨ts, rfl, others⟩ := ih
    exact ⟨ts, rfl, others [] .listEmpty⟩
  | member _ _ ih₁ ih₂ =>
    obtain ⟨ts, rfl, next⟩ := ih₁
    obtain ⟨us, rfl, others⟩ := ih₂
    refine ⟨.char ',' :: (ts ++ us), by simp, fun ws list => ?_⟩
    have more := others _ (.listMore list next)
    rwa [List.append_assoc] at more
  | membersEnd => exact done rfl

/-! ## Readers of the symbols -/

def Value.expr? : Value E → Option E
  | .expr e => some e
  | _ => none

def Value.path? : Value E → Option AstPath
  | .path p => some p
  | _ => none

def Value.list? : Value E → Option (List E)
  | .list es => some es
  | _ => none

/-- A task as a reader of what it builds. -/
def Task.reader {α : Type} (A : Actions E) (task : Task E) (pick : Value E → Option α) :
    Reader Terminal α :=
  fun s => (task.run A (8 * s.length + task.rank + 1) s).bind fun read => (pick read.1).map (·, read.2)

theorem Task.reader_eq_some {α : Type} {A : Actions E} {task : Task E} {pick : Value E → Option α}
    {s r : List Terminal} {a : α} :
    task.reader A pick s = some (a, r) ↔ ∃ v, Reads A task s v r ∧ pick v = some a := by
  rw [reader, Option.bind_eq_some_iff]
  constructor
  · rintro ⟨⟨v, s'⟩, taken, same⟩
    obtain ⟨b, picked, same⟩ := Option.map_eq_some_iff.mp same
    cases same
    exact ⟨v, reads_of_run taken, picked⟩
  · rintro ⟨v, read, picked⟩
    exact ⟨(v, r), read.run _ (Nat.lt_succ_self _), Option.map_eq_some_iff.mpr ⟨a, picked, rfl⟩⟩

def readExpression (A : Actions E) : Reader Terminal E := Task.expression.reader A Value.expr?

def readPath (A : Actions E) : Reader Terminal AstPath := Task.path.reader A Value.path?

def readArguments (A : Actions E) : Reader Terminal (List E) := Task.list.reader A Value.list?

def readSuffix (A : Actions E) (p : AstPath) : Reader Terminal E :=
  (Task.suffix p).reader A Value.expr?

variable {A : Actions E} {n : Nat}

theorem exact_expression :
    Exact n (readExpression A) (fun ts e => Derives A .expression ts (.expr e)) (Clear isOperator) where
  sound taken := by
    obtain ⟨v, read, picked⟩ := Task.reader_eq_some.mp taken
    obtain ⟨ts, rfl, derived⟩ := read.derives
    cases v <;> cases picked
    exact ⟨ts, rfl, derived⟩
  complete derived _ ends := Task.reader_eq_some.mpr ⟨_, derived.readAs _ ends, rfl⟩

end

end Dragon
