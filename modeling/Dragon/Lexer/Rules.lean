import Mathlib.Algebra.Order.Ring.Int
import Mathlib.Data.Bool.AllAny
import Dragon.Ast
import Dragon.Library.Pattern
import Dragon.Library.Scanner

/-! The rules of lexer.l.

flex takes the longest match of all rules and the earliest rule of those that
match it. The locations are left out, and characters are not cut to seven bits.
-/

set_option autoImplicit false

namespace Dragon

open Lexical Pattern

/-- What drgl_lex returns: a member of yytokentype, with the spelling of an ID and a NUM, or a
character. -/
inductive Terminal where
  | AND | ARRAY | TBEGIN | BOOLEAN | CHAR | DIV | DO | ELSE | END | FOR | FUNCTION | IF | INTEGER
  | MOD | NOT | OF | OR | PROCEDURE | PROGRAM | REAL | RECORD | STRING | THEN | TO | TYPE | VAR
  | WHILE
  | ASSIGNOP | NEQ | LE | GE | DOTDOT
  | ID (name : Name)
  | NUM (name : Name)
  | char (c : Char)
  deriving DecidableEq, Repr

abbrev LexerRule := Rule Char Terminal

def dot : Pattern Char := set (· != '\n')

def commentOfBraces : Pattern Char :=
  seq (word ['{']) (seq (star (alt dot (word ['\n']))) (word ['}']))

def commentOfStars : Pattern Char :=
  seq (word ['(', '*']) (seq (star (alt (set (· != '*')) (word ['\n']))) (word ['*', ')']))

def commentOfLine : Pattern Char := seq (word ['/', '/']) (star dot)

def skip (p : Pattern Char) : LexerRule := ⟨p.accepts, fun _ => Option.none⟩

def commentRules : List LexerRule := [skip commentOfBraces, skip commentOfStars, skip commentOfLine]

def whitespace : Pattern Char := set fun c => c == ' ' || c == '\t' || c == '\n'

def identifier : Pattern Char :=
  seq (set fun c => c.isAlpha || c == '_') (star (set fun c => c.isAlpha || c.isDigit || c == '_'))

def digits : Pattern Char := many (set Char.isDigit)

def number : Pattern Char :=
  seq digits (seq (opt (seq (word ['.']) digits))
    (opt (seq (set fun c => c == 'e' || c == 'E')
      (seq (opt (alt (word ['+']) (word ['-']))) digits))))

/-- The words with a token of their own, in the order of the rules. -/
def literals : List (List Char × Terminal) :=
  [("and".toList, .AND), ("array".toList, .ARRAY), ("begin".toList, .TBEGIN),
    ("boolean".toList, .BOOLEAN), ("char".toList, .CHAR), ("div".toList, .DIV), ("do".toList, .DO),
    ("else".toList, .ELSE), ("end".toList, .END), ("for".toList, .FOR),
    ("function".toList, .FUNCTION), ("if".toList, .IF), ("integer".toList, .INTEGER),
    ("mod".toList, .MOD), ("not".toList, .NOT), ("of".toList, .OF), ("or".toList, .OR),
    ("procedure".toList, .PROCEDURE), ("program".toList, .PROGRAM), ("real".toList, .REAL),
    ("record".toList, .RECORD), ("string".toList, .STRING), ("then".toList, .THEN),
    ("to".toList, .TO), ("type".toList, .TYPE), ("var".toList, .VAR), ("while".toList, .WHILE),
    (":=".toList, .ASSIGNOP), ("<>".toList, .NEQ), ("<=".toList, .LE), (">=".toList, .GE),
    ("..".toList, .DOTDOT)]

def tokenPatterns : List (Pattern Char × (List Char → Option Terminal)) :=
  [(whitespace, fun _ => Option.none)] ++
    literals.map (fun l => (word l.1, fun _ => some l.2)) ++
    [(identifier, fun yytext => some (.ID (String.ofList yytext))),
      (number, fun yytext => some (.NUM (String.ofList yytext))),
      (dot, fun yytext => yytext.head?.map .char)]

def tokenRules : List LexerRule := tokenPatterns.map fun p => ⟨p.1.accepts, p.2⟩

def lexerRules : List LexerRule := commentRules ++ tokenRules

def drglScanner : Scanner Char Terminal := .ofRules lexerRules

/-- The tokens of a text. -/
def drglLex (text : List Char) : List Terminal := drglScanner.tokens text

def nul : Char := Char.ofNat 0

/-- The tokens before the first 0, where yyparse and the loops of compile_input stop. -/
def tokensToEnd (text : List Char) : List Terminal :=
  (drglLex text).takeWhile (decide <| · ≠ .char nul)

/-! ## What the rules match -/

theorem commentOfBraces_iff {w : List Char} :
    commentOfBraces.accepts w = true ↔ ∃ m, w = '{' :: (m ++ ['}']) := by
  simp only [accepts_iff, commentOfBraces, mem_seq, mem_word]
  constructor
  · rintro ⟨_, rfl, _, ⟨m, -, _, rfl, rfl⟩, rfl⟩
    exact ⟨m, rfl⟩
  · rintro ⟨m, rfl⟩
    refine ⟨['{'], rfl, m ++ ['}'], ⟨m, ?_, ['}'], rfl, rfl⟩, rfl⟩
    apply mem_star_of_each
    intro c _
    by_cases newline : c = '\n'
    · exact .inr (mem_word.mpr (congrArg (fun d => [d]) newline))
    · exact .inl ⟨c, bne_iff_ne.mpr newline, rfl⟩

theorem commentOfStars_iff {w : List Char} :
    commentOfStars.accepts w = true ↔ ∃ m, '*' ∉ m ∧ w = '(' :: '*' :: (m ++ ['*', ')']) := by
  simp only [accepts_iff, commentOfStars, mem_seq, mem_word]
  constructor
  · rintro ⟨_, rfl, _, ⟨m, inside, _, rfl, rfl⟩, rfl⟩
    refine ⟨m, ?_, rfl⟩
    intro member
    have mentioned := mentions_of_mem inside member
    exact absurd mentioned (by decide)
  · rintro ⟨m, plain, rfl⟩
    refine ⟨['(', '*'], rfl, m ++ ['*', ')'], ⟨m, ?_, ['*', ')'], rfl, rfl⟩, rfl⟩
    apply mem_star_of_each
    intro c member
    refine .inl ⟨c, bne_iff_ne.mpr ?_, rfl⟩
    rintro rfl
    exact plain member

theorem commentOfLine_iff {w : List Char} :
    commentOfLine.accepts w = true ↔ ∃ m, '\n' ∉ m ∧ w = '/' :: '/' :: m := by
  simp only [accepts_iff, commentOfLine, mem_seq, mem_word, dot, mem_star_set]
  constructor
  · rintro ⟨_, rfl, m, line, rfl⟩
    exact ⟨m, fun member => absurd rfl (bne_iff_ne.mp (line '\n' member)), rfl⟩
  · rintro ⟨m, line, rfl⟩
    refine ⟨['/', '/'], rfl, m, ?_, rfl⟩
    intro c member
    apply bne_iff_ne.mpr
    rintro rfl
    exact line member

-- A rule for tokens matches a single character, or it matches neither a space nor what a comment
-- starts with.
theorem tokenPatterns_apart : ∀ p ∈ tokenPatterns, p.1.single = true ∨
    (p.1.mentions ' ' = false ∧ ∀ c ∈ ['{', '(', '/'], p.1.starts c = false) := by
  simp only [List.forall_mem_cons, List.not_mem_nil, false_imp_iff, implies_true, and_true]
  exact List.all_iff_forall_prop.mp (by decide +kernel)

theorem exists_pattern_of_matched {w : List Char} (matched : Matched tokenRules w) :
    ∃ p ∈ tokenPatterns, w ∈ p.1.language := by
  obtain ⟨r, member, accepted⟩ := matched
  obtain ⟨p, here, rfl⟩ := List.mem_map.mp member
  exact ⟨p, here, accepts_iff.mp accepted⟩

theorem length_of_starts {c : Char} {w : List Char} (opens : c ∈ ['{', '(', '/'])
    (matched : Matched tokenRules (c :: w)) : w = [] := by
  obtain ⟨p, here, inside⟩ := exists_pattern_of_matched matched
  rcases tokenPatterns_apart p here with single | ⟨-, starts⟩
  · exact List.length_eq_zero_iff.mp (Nat.succ.inj (length_of_single single inside))
  · have started := starts_of_mem inside
    rw [starts c opens] at started
    cases started

theorem length_of_space {w : List Char} (matched : Matched tokenRules w) (space : ' ' ∈ w) :
    w.length = 1 := by
  obtain ⟨p, here, inside⟩ := exists_pattern_of_matched matched
  rcases tokenPatterns_apart p here with single | ⟨mentions, -⟩
  · exact length_of_single single inside
  · have mentioned := mentions_of_mem inside space
    rw [mentions] at mentioned
    cases mentioned

theorem matched_one (c : Char) : Matched tokenRules [c] := by
  by_cases newline : c = '\n'
  · refine ⟨⟨whitespace.accepts, fun _ => Option.none⟩, List.mem_cons_self, ?_⟩
    rw [newline]
    decide
  · refine ⟨⟨dot.accepts, fun yytext => yytext.head?.map .char⟩, ?_, ?_⟩
    · exact List.mem_map.mpr ⟨(dot, _), List.mem_append_right _ (.tail _ (.tail _ (.head _))), rfl⟩
    · exact accepts_iff.mpr ⟨c, bne_iff_ne.mpr newline, rfl⟩

theorem matched_lexerRules {w : List Char} : Matched lexerRules w ↔
    Matched commentRules w ∨ Matched tokenRules w := by
  simp only [Matched, lexerRules, List.mem_append, or_and_right, exists_or]

theorem matched_commentRules {w : List Char} : Matched commentRules w ↔
    commentOfBraces.accepts w = true ∨ commentOfStars.accepts w = true ∨
      commentOfLine.accepts w = true := by
  simp [Matched, commentRules, skip]

theorem total_drglScanner : drglScanner.Total := by
  apply Scanner.total_ofRules
  intro c
  exact matched_lexerRules.mpr (.inr (matched_one c))

theorem ruleFor_comment {w : List Char} (matched : Matched commentRules w) :
    ∃ r, ruleFor lexerRules w = some r ∧ r.action w = Option.none := by
  obtain ⟨r, found⟩ := matched_iff.mp matched
  refine ⟨r, ?_, ?_⟩
  · rw [ruleFor] at found ⊢
    rw [lexerRules, List.find?_append, found]
    rfl
  · have member := List.mem_of_find?_eq_some found
    simp only [commentRules, List.mem_cons, List.not_mem_nil, or_false] at member
    rcases member with rfl | rfl | rfl <;> rfl

theorem ruleFor_token {w : List Char} (other : ¬ Matched commentRules w) :
    ruleFor lexerRules w = ruleFor tokenRules w := by
  have nothing : commentRules.find? (·.accepts w) = Option.none := by
    apply List.find?_eq_none.mpr
    exact fun r member accepted => other ⟨r, member, accepted⟩
  rw [ruleFor, lexerRules, List.find?_append, nothing]
  rfl

end Dragon
