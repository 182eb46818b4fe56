import Mathlib.Algebra.Order.Ring.Int
import Dragon.Lexer.Rules

/-! Texts written from tokens.

A spelling ends at the space or the newline after it, whatever the rules are
that could go on: apart from the rules for one character, none that starts like
a spelling has a separator in its words.
-/

set_option autoImplicit false

namespace Dragon

open Lexical Pattern Scanner

/-- The characters that are tokens of the grammar. -/
def singles : List Char :=
  ['(', ')', '[', ']', ',', '.', ':', ';', '=', '<', '>', '+', '-', '*', '/', '^', '@']

inductive Spelling : List Char → Terminal → Prop where
  | literal {w : List Char} {t : Terminal} (entry : (w, t) ∈ literals) : Spelling w t
  | name {w : List Char} (shape : w ∈ identifier.language)
      (other : w ∉ literals.map Prod.fst) : Spelling w (.ID (String.ofList w))
  | numeral {w : List Char} (shape : w ∈ number.language) : Spelling w (.NUM (String.ofList w))
  | char {c : Char} (used : c ∈ singles) : Spelling [c] (.char c)

def Separator (c : Char) : Prop := c = ' ' ∨ c = '\n'

/-- Spellings with one separator between each two. -/
inductive Rendering : List Char → List Terminal → Prop where
  | nil : Rendering [] []
  | one {w : List Char} {t : Terminal} (spelled : Spelling w t) : Rendering w [t]
  | cons {w s : List Char} {c : Char} {t t' : Terminal} {ts : List Terminal}
      (spelled : Spelling w t) (separator : Separator c) (rest : Rendering s (t' :: ts)) :
      Rendering (w ++ c :: s) (t :: t' :: ts)

/-! ## Spellings and separators -/

theorem tokenPatterns_separated : ∀ p ∈ tokenPatterns, p.1.single = true ∨
    (p.1.mentions ' ' = false ∧ p.1.mentions '\n' = false) := by
  decide +kernel

theorem length_of_separator {c : Char} {w : List Char} (separator : Separator c)
    (matched : Matched tokenRules w) (member : c ∈ w) : w.length = 1 := by
  obtain ⟨p, here, inside⟩ := exists_pattern_of_matched matched
  rcases tokenPatterns_separated p here with single | ⟨space, newline⟩
  · exact length_of_single single inside
  · have mentioned := mentions_of_mem inside member
    rcases separator with rfl | rfl
    · rw [space] at mentioned
      cases mentioned
    · rw [newline] at mentioned
      cases mentioned

theorem opener_of_matched {c : Char} {w : List Char} (matched : Matched commentRules (c :: w)) :
    c = '{' ∨ (c = '(' ∧ w.head? = some '*') ∨ (c = '/' ∧ w.head? = some '/') := by
  rcases matched_commentRules.mp matched with braces | stars | line
  · obtain ⟨m, same⟩ := commentOfBraces_iff.mp braces
    exact .inl (List.cons.inj same).1
  · obtain ⟨m, -, same⟩ := commentOfStars_iff.mp stars
    obtain ⟨rfl, rfl⟩ := List.cons.inj same
    exact .inr (.inl ⟨rfl, rfl⟩)
  · obtain ⟨m, -, same⟩ := commentOfLine_iff.mp line
    obtain ⟨rfl, rfl⟩ := List.cons.inj same
    exact .inr (.inr ⟨rfl, rfl⟩)

theorem not_matched_separator {c : Char} {w : List Char} (separator : Separator c) :
    ¬ Matched commentRules (c :: w) := by
  intro matched
  have opens := opener_of_matched matched
  rcases separator with rfl | rfl <;> simp at opens

-- A spelling starts with no separator and no brace, and it has one character when a comment can
-- start with it.
theorem Spelling.first {w : List Char} {t : Terminal} (spelled : Spelling w t) :
    ∃ c u, w = c :: u ∧ ¬ Separator c ∧ c ≠ '{' ∧ (c = '(' ∨ c = '/' → u = []) := by
  have apart : ∀ c ∈ [' ', '\n', '{', '(', '/'],
      identifier.starts c = false ∧ number.starts c = false :=
    List.all_iff_forall_prop.mp (by decide)
  -- what cannot start with one of these characters
  have begins {p : Pattern Char} (inside : w ∈ p.language) (some_ : p.nullable = false)
      (other : ∀ c ∈ [' ', '\n', '{', '(', '/'], p.starts c = false) :
      ∃ c u, w = c :: u ∧ ¬ Separator c ∧ c ≠ '{' ∧ (c = '(' ∨ c = '/' → u = []) := by
    cases w with
    | nil =>
      rw [(nullable_iff p).mpr inside] at some_
      cases some_
    | cons c u =>
      have started := starts_of_mem inside
      have elsewhere : c ∉ [' ', '\n', '{', '(', '/'] := by
        intro member
        rw [other c member] at started
        cases started
      simp only [List.mem_cons, List.not_mem_nil, or_false, not_or] at elsewhere
      refine ⟨c, u, rfl, ?_, elsewhere.2.2.1, ?_⟩
      · exact fun separator => separator.elim elsewhere.1 elsewhere.2.1
      · exact fun opens => absurd opens (not_or.mpr elsewhere.2.2.2)
  cases spelled with
  | literal entry =>
    have every : ∀ l ∈ literals, (word l.1).nullable = false ∧
        ∀ c ∈ [' ', '\n', '{', '(', '/'], (word l.1).starts c = false := by
      simp only [List.forall_mem_cons, List.not_mem_nil, false_imp_iff, implies_true, and_true]
      exact List.all_iff_forall_prop.mp (by decide +kernel)
    obtain ⟨some_, other⟩ := every _ entry
    exact begins (mem_word.mpr rfl) some_ other
  | name shape =>
    exact begins shape (by decide) fun c member => (apart c member).1
  | numeral shape =>
    exact begins shape (by decide) fun c member => (apart c member).2
  | char used =>
    have every : ∀ c ∈ singles, c ≠ ' ' ∧ c ≠ '\n' ∧ c ≠ '{' :=
      List.all_iff_forall_prop.mp (by decide)
    obtain ⟨space, newline, brace⟩ := every _ used
    exact ⟨_, [], rfl, not_or.mpr ⟨space, newline⟩, brace, fun _ => rfl⟩

theorem Spelling.not_comment {w v s : List Char} {t : Terminal} (spelled : Spelling w t)
    (before : v <+: w ++ s) (ends : s = [] ∨ ∃ c s', s = c :: s' ∧ Separator c) :
    ¬ Matched commentRules v := by
  intro matched
  obtain ⟨c, u, rfl, -, brace, short⟩ := spelled.first
  cases v with
  | nil => rcases matched_commentRules.mp matched with empty | empty | empty <;> cases empty
  | cons d v =>
    rw [List.cons_append, List.cons_prefix_cons] at before
    obtain ⟨rfl, within⟩ := before
    have second {e : Char} (opens : d = '(' ∨ d = '/') (next : v.head? = some e) :
        Separator e := by
      obtain ⟨v', rfl⟩ := List.head?_eq_some_iff.mp next
      rw [short opens, List.nil_append] at within
      rcases ends with rfl | ⟨c, s', rfl, separator⟩
      · cases List.prefix_nil.mp within
      · rw [(List.cons_prefix_cons.mp within).1]
        exact separator
    rcases opener_of_matched matched with rfl | ⟨opens, next⟩ | ⟨opens, next⟩
    · exact brace rfl
    · rcases second (.inl opens) next with wrong | wrong <;> cases wrong
    · rcases second (.inr opens) next with wrong | wrong <;> cases wrong

/-! ## The rule for a spelling -/

theorem ruleFor_of_other {w : List Char} (comment : ¬ Matched commentRules w)
    (space : whitespace.accepts w = false) (other : w ∉ literals.map Prod.fst) :
    ruleFor lexerRules w = ruleFor
      [⟨identifier.accepts, fun yytext => some (.ID (String.ofList yytext))⟩,
        ⟨number.accepts, fun yytext => some (.NUM (String.ofList yytext))⟩,
        ⟨dot.accepts, fun yytext => yytext.head?.map .char⟩] w := by
  have none_ : (literals.map fun l => (⟨(word l.1).accepts, fun _ => some l.2⟩ : LexerRule)).find?
      (·.accepts w) = Option.none := by
    apply List.find?_eq_none.mpr
    intro r member accepted
    obtain ⟨l, entry, rfl⟩ := List.mem_map.mp member
    rw [mem_word.mp (accepts_iff.mp accepted)] at other
    exact other (List.mem_map_of_mem entry)
  rw [ruleFor_token comment]
  simp only [ruleFor, tokenRules, tokenPatterns, List.map_append, List.map_map, List.map_cons,
    List.map_nil, List.find?_append, List.find?_cons, space, List.find?_nil, Option.none_or]
  exact (congrArg (Option.or · _) none_).trans (Option.none_or ..)

theorem isDigit_of_number {c : Char} {u : List Char} (shape : c :: u ∈ number.language) :
    c.isDigit = true := by
  have started := starts_of_mem shape
  simpa [number, digits, many, starts, nullable] using started

theorem not_identifier_of_number {w : List Char} (shape : w ∈ number.language) :
    identifier.accepts w = false := by
  rw [Bool.eq_false_iff]
  intro accepted
  cases w with
  | nil => cases accepted
  | cons c u =>
    have digit := isDigit_of_number shape
    have letter := starts_of_mem (accepts_iff.mp accepted)
    simp only [identifier, starts, nullable, Bool.false_and, Bool.or_false, Bool.or_eq_true,
      beq_iff_eq] at letter
    rcases letter with letter | rfl
    · -- the digits come before the letters
      have high := of_decide_eq_true (Bool.and_eq_true_iff.mp digit).2
      rcases Bool.or_eq_true_iff.mp letter with upper | lower
      · have low := @of_decide_eq_true (_ ∧ _) _ upper
        exact absurd (UInt32.le_trans low.1 high) (by decide)
      · have low := of_decide_eq_true (Bool.and_eq_true_iff.mp lower).1
        exact absurd (UInt32.le_trans low high) (by decide)
    · cases digit

theorem not_whitespace {p : Pattern Char} {w : List Char} (inside : w ∈ p.language)
    (apart : ∀ c ∈ [' ', '\t', '\n'], p.starts c = false) : whitespace.accepts w = false := by
  rw [Bool.eq_false_iff]
  intro accepted
  obtain ⟨c, space, rfl⟩ := accepts_iff.mp accepted
  have started := starts_of_mem inside
  simp only [Bool.or_eq_true, beq_iff_eq] at space
  rw [apart c (by rcases space with (rfl | rfl) | rfl <;> decide)] at started
  cases started

theorem Spelling.ruleFor {w : List Char} {t : Terminal} (spelled : Spelling w t) :
    ∃ r, ruleFor lexerRules w = some r ∧ r.action w = some t := by
  have comment : ¬ Matched commentRules w := by
    apply spelled.not_comment (s := [])
    · rw [List.append_nil]
    · exact .inl rfl
  cases spelled with
  | literal entry =>
    have every : ∀ l ∈ literals, (Lexical.ruleFor lexerRules l.1).map (·.action l.1) =
        some (some l.2) := by decide +kernel
    exact Option.map_eq_some_iff.mp (every _ entry)
  | name shape other =>
    have space := not_whitespace shape (List.all_iff_forall_prop.mp (by decide))
    rw [ruleFor_of_other comment space other]
    exact ⟨_, List.find?_cons_of_pos (accepts_iff.mpr shape), rfl⟩
  | numeral shape =>
    have space := not_whitespace shape (List.all_iff_forall_prop.mp (by decide))
    have other : w ∉ literals.map Prod.fst := by
      intro entry
      have every : ∀ u ∈ literals.map Prod.fst, number.accepts u = false := by decide +kernel
      have apart := every _ entry
      rw [accepts_iff.mpr shape] at apart
      cases apart
    rw [ruleFor_of_other comment space other]
    refine ⟨⟨number.accepts, fun yytext => some (.NUM (String.ofList yytext))⟩, ?_, rfl⟩
    rw [Lexical.ruleFor, List.find?_cons_of_neg]
    · exact List.find?_cons_of_pos (accepts_iff.mpr shape)
    · simp only [not_identifier_of_number shape, Bool.false_eq_true, not_false_eq_true]
  | char used =>
    have every : ∀ c ∈ singles, (Lexical.ruleFor lexerRules [c]).map (·.action [c]) =
        some (some (.char c)) := List.all_iff_forall_prop.mp (by decide +kernel)
    exact Option.map_eq_some_iff.mp (every _ used)

/-! ## What the scanner cuts off -/

theorem next_of_spelling {w s : List Char} {t : Terminal} (spelled : Spelling w t)
    (ends : s = [] ∨ ∃ c s', s = c :: s' ∧ Separator c) :
    drglScanner.next (w ++ s) = some ⟨w, some t⟩ := by
  obtain ⟨r, found, action⟩ := spelled.ruleFor
  refine next_ofRules.mpr ⟨⟨?_, List.prefix_append w s, matched_iff.mpr ⟨r, found⟩, ?_⟩,
    r, found, action.symm⟩
  · obtain ⟨c, u, rfl, -⟩ := spelled.first
    exact List.cons_ne_nil c u
  · intro v before matched
    by_contra longer
    have longer := Nat.lt_of_not_le longer
    have token : Matched tokenRules v :=
      (matched_lexerRules.mp matched).resolve_left (spelled.not_comment before ends)
    -- what goes on after the spelling has the separator in it
    rcases ends with rfl | ⟨c, s', rfl, separator⟩
    · rw [List.append_nil] at before
      exact absurd before.length_le (Nat.not_le_of_lt longer)
    · have whole : w ++ [c] <+: v := by
        apply List.prefix_of_prefix_length_le _ before
        · simpa [Nat.succ_le_iff] using longer
        · rw [List.prefix_append_right_inj, List.cons_prefix_cons]
          exact ⟨rfl, List.nil_prefix⟩
      have member : c ∈ v := whole.subset (by simp)
      have one := length_of_separator separator token member
      obtain ⟨d, u, rfl, -⟩ := spelled.first
      rw [one, List.length_cons] at longer
      omega

theorem next_separator {c : Char} {s : List Char} (separator : Separator c) :
    drglScanner.next (c :: s) = some ⟨[c], Option.none⟩ := by
  have rule : ∃ r, ruleFor lexerRules [c] = some r ∧ r.action [c] = Option.none := by
    rcases separator with rfl | rfl
    · exact Option.map_eq_some_iff.mp (by decide +kernel)
    · exact Option.map_eq_some_iff.mp (by decide +kernel)
  obtain ⟨r, found, action⟩ := rule
  refine next_ofRules.mpr ⟨⟨List.cons_ne_nil c [], ⟨s, rfl⟩, matched_iff.mpr ⟨r, found⟩, ?_⟩,
    r, found, action.symm⟩
  intro v before matched
  cases v with
  | nil => exact Nat.zero_le 1
  | cons d v =>
    obtain ⟨rfl, -⟩ := List.cons_prefix_cons.mp before
    have token := (matched_lexerRules.mp matched).resolve_left (not_matched_separator separator)
    exact Nat.le_of_eq (length_of_separator separator token List.mem_cons_self)

theorem scan_spelling {w s : List Char} {t : Terminal} (spelled : Spelling w t)
    (ends : s = [] ∨ ∃ c s', s = c :: s' ∧ Separator c) :
    drglLex (w ++ s) = t :: drglLex s := by
  rw [drglLex, tokens, scan_of_next (next_of_spelling spelled ends), List.drop_left]
  rfl

theorem scan_separator {c : Char} {s : List Char} (separator : Separator c) :
    drglLex (c :: s) = drglLex s := by
  rw [drglLex, tokens, scan_of_next (next_separator separator)]
  rfl

/-- The lexer returns the tokens that a text has been written from, and at the end of the text
nothing is left. -/
theorem drglLex_rendering {s : List Char} {ts : List Terminal} (written : Rendering s ts) :
    drglLex s = ts ∧ textOf (drglScanner.scan s) = s := by
  refine ⟨?_, textOf_scan total_drglScanner⟩
  induction written with
  | nil => rfl
  | one spelled =>
    have last := scan_spelling spelled (.inl rfl)
    rw [List.append_nil] at last
    exact last
  | cons spelled separator rest ih =>
    rw [scan_spelling spelled (.inr ⟨_, _, rfl, separator⟩), scan_separator separator, ih]

-- A keyword before a name that it starts, a number before two dots.
theorem ending_rendering : drglLex "end ending\n1.5e3 .. (".toList =
      [.END, .ID "ending", .NUM "1.5e3", .DOTDOT, .char '('] ∧
    textOf (drglScanner.scan "end ending\n1.5e3 .. (".toList) = "end ending\n1.5e3 .. (".toList := by
  apply drglLex_rendering
  apply Rendering.cons (w := "end".toList) (c := ' ') (.literal (by decide)) (.inl rfl)
  apply Rendering.cons (w := "ending".toList) (c := '\n') (.name (accepts_iff.mp (by decide))
    (by decide +kernel)) (.inr rfl)
  apply Rendering.cons (w := "1.5e3".toList) (c := ' ') (.numeral (accepts_iff.mp (by decide)))
    (.inl rfl)
  apply Rendering.cons (w := "..".toList) (c := ' ') (.literal (by decide)) (.inl rfl)
  exact .one (.char (by decide))

end Dragon
