import Dragon.Library.Layout
import Dragon.Parser.Text

/-! The dump of the tokens.

print_token has a line for most tokens. It complains of the others on stderr, so
what the dump tells is the tokens without them.
-/

set_option autoImplicit false

namespace Dragon

open PrintedText Lexical Pattern

def puts (s : String) : List Char := s.toList ++ ['\n']

/-- The line of a token, without its newline. -/
def tokenLine : Terminal → Option (List Char)
  | .char '\x00' => some "EOF".toList
  | .DIV => some "DIV".toList
  | .BOOLEAN => some "BOOLEAN".toList
  | .STRING => some "STRING".toList
  | .CHAR => some "CHAR".toList
  | .FOR => some "FOR".toList
  | .TO => some "TO".toList
  | .MOD => some "MOD".toList
  | .AND => some "AND".toList
  | .OR => some "OR".toList
  | .NOT => some "NOT".toList
  | .FUNCTION => some "FUNCTION".toList
  | .PROCEDURE => some "PROCEDURE".toList
  | .TBEGIN => some "TBEGIN".toList
  | .END => some "END".toList
  | .INTEGER => some "INTEGER".toList
  | .REAL => some "REAL".toList
  | .ARRAY => some "ARRAY".toList
  | .OF => some "OF".toList
  | .PROGRAM => some "PROGRAM".toList
  | .char '=' => some "EQ".toList
  | .NEQ => some "NEQ".toList
  | .char '<' => some "LT".toList
  | .LE => some "LE".toList
  | .char '>' => some "GT".toList
  | .GE => some "GE".toList
  | .char '+' => some "PLUS".toList
  | .char '-' => some "MINUS".toList
  | .char '*' => some "STAR".toList
  | .char '/' => some "SLASH".toList
  | .char '(' => some "LPAREN".toList
  | .char ')' => some "RPAREN".toList
  | .char '[' => some "LBRACKET".toList
  | .char ']' => some "RBRACKET".toList
  | .char ',' => some "COMMA".toList
  | .char '.' => some "DOT".toList
  | .DOTDOT => some "DOTDOT".toList
  | .ASSIGNOP => some "ASSIGNOP".toList
  | .char ':' => some "COLON".toList
  | .char ';' => some "SEMI".toList
  | .ID name => some ("ID(".toList ++ (name.toList ++ [')']))
  | .NUM name => some ("NUM(".toList ++ (name.toList ++ [')']))
  | .DO => some "DO".toList
  | .ELSE => some "ELSE".toList
  | .IF => some "IF".toList
  | .THEN => some "THEN".toList
  | .VAR => some "VAR".toList
  | .WHILE => some "WHILE".toList
  | .char '@' => some "AT".toList
  | .char '^' => some "CARET".toList
  | _ => none

def printToken (t : Terminal) : List Char := ((tokenLine t).map (· ++ ['\n'])).getD []

/-- What compile_input writes with DUMP_TOKENS. The last token is 0. -/
def dumpTokens (source : List Char) : List Char :=
  (tokensToEnd source).flatMap printToken ++
    (printToken (.char nul) ++ puts "-- done dumping tokens --")

/-- The tokens with a line of their own. -/
def shownTokens (source : List Char) : List Terminal :=
  (tokensToEnd source).filter fun t => (tokenLine t).isSome

example : dumpTokens "type x".toList = dumpTokens "x".toList := by decide +kernel

example : dumpTokens ['x', nul, 'y'] = dumpTokens ['x'] := by decide +kernel

/-! ## Lines of tokens -/

/-- The tokens that have a line and no spelling of their own. -/
def fixedTokens : List Terminal :=
  [.DIV, .BOOLEAN, .STRING, .CHAR, .FOR, .TO, .MOD, .AND, .OR, .NOT, .FUNCTION, .PROCEDURE, .TBEGIN,
    .END, .INTEGER, .REAL, .ARRAY, .OF, .PROGRAM, .NEQ, .LE, .GE, .DOTDOT, .ASSIGNOP, .DO, .ELSE, .IF,
    .THEN, .VAR, .WHILE, .char nul] ++ "=<>+-*/()[],.:;@^".toList.map .char

theorem tokenLine_cases {t : Terminal} {w : List Char} (line : tokenLine t = some w) :
    t ∈ fixedTokens ∨ (∃ n, t = .ID n) ∨ ∃ n, t = .NUM n := by
  unfold tokenLine at line
  split at line <;> first
    | exact .inr (.inl ⟨_, rfl⟩)
    | exact .inr (.inr ⟨_, rfl⟩)
    | (cases line; done)
    | exact .inl (by decide)

theorem tokenLine_fixed {t : Terminal} {w : List Char} (fixed : t ∈ fixedTokens)
    (line : tokenLine t = some w) :
    '(' ∉ w ∧ '\n' ∉ w ∧ (t ≠ .char nul → w ≠ "EOF".toList) := by
  -- no line but those of names and numbers has a parenthesis, and none but that of 0 is EOF
  have every : ∀ t ∈ fixedTokens, ∀ w ∈ tokenLine t,
      '(' ∉ w ∧ '\n' ∉ w ∧ (t ≠ .char nul → w ≠ "EOF".toList) := by
    decide +kernel
  exact every t fixed w line

theorem tokenLine_unique {t t' : Terminal} {w : List Char} (line : tokenLine t = some w)
    (line' : tokenLine t' = some w) : t = t' := by
  have among : ∀ t ∈ fixedTokens, ∀ t' ∈ fixedTokens, tokenLine t = tokenLine t' → t = t' := by
    decide +kernel
  have name : ∀ n : Name, '(' ∈ "ID(".toList ++ (n.toList ++ [')']) := fun n => by simp
  have number : ∀ n : Name, '(' ∈ "NUM(".toList ++ (n.toList ++ [')']) := fun n => by simp
  rcases tokenLine_cases line with fixed | ⟨n, rfl⟩ | ⟨n, rfl⟩
  · have apart := (tokenLine_fixed fixed line).1
    rcases tokenLine_cases line' with fixed' | ⟨m, rfl⟩ | ⟨m, rfl⟩
    · exact among t fixed t' fixed' (line.trans line'.symm)
    · cases line'
      exact absurd (name m) apart
    · cases line'
      exact absurd (number m) apart
  · cases line
    rcases tokenLine_cases line' with fixed' | ⟨m, rfl⟩ | ⟨m, rfl⟩
    · exact absurd (name n) (tokenLine_fixed fixed' line').1
    · have same := List.append_cancel_left (Option.some.inj line')
      rw [String.toList_injective (List.append_cancel_right same)]
    · cases line'
  · cases line
    rcases tokenLine_cases line' with fixed' | ⟨m, rfl⟩ | ⟨m, rfl⟩
    · exact absurd (number n) (tokenLine_fixed fixed' line').1
    · cases line'
    · have same := List.append_cancel_left (Option.some.inj line')
      rw [String.toList_injective (List.append_cancel_right same)]

theorem spelled_mentions {t : Terminal} {n : Name} (spelled : t.spelled = true)
    (named : t = .ID n ∨ t = .NUM n) : ∀ c ∈ n.toList, c ≠ '\n' ∧ c ≠ '`' := by
  have within : ∀ {p : Pattern Char}, p.accepts n.toList = true → p.mentions '\n' = false →
      p.mentions '`' = false → ∀ c ∈ n.toList, c ≠ '\n' ∧ c ≠ '`' := by
    intro p accepted noNewline noQuote c member
    have mentioned := mentions_of_mem (accepts_iff.mp accepted) member
    constructor
    · rintro rfl
      rw [noNewline] at mentioned
      cases mentioned
    · rintro rfl
      rw [noQuote] at mentioned
      cases mentioned
  rcases named with rfl | rfl
  · simp only [Terminal.spelled, Bool.and_eq_true] at spelled
    exact within spelled.1 (by decide +kernel) (by decide +kernel)
  · exact within spelled (by decide +kernel) (by decide +kernel)

theorem tokenLine_newline {t : Terminal} {w : List Char} (spelled : t.spelled = true)
    (line : tokenLine t = some w) : '\n' ∉ w ∧ (t ≠ .char nul → w ≠ "EOF".toList) := by
  rcases tokenLine_cases line with fixed | ⟨n, rfl⟩ | ⟨n, rfl⟩
  · exact (tokenLine_fixed fixed line).2
  · have plain : '\n' ∉ n.toList := fun member =>
      (spelled_mentions spelled (.inl rfl) _ member).1 rfl
    cases line
    constructor
    · simpa using plain
    · intro _ same
      cases same
  · have plain : '\n' ∉ n.toList := fun member =>
      (spelled_mentions spelled (.inr rfl) _ member).1 rfl
    cases line
    constructor
    · simpa using plain
    · intro _ same
      cases same

/-! ## The dump -/

theorem flatMap_printToken (ts : List Terminal) :
    ts.flatMap printToken = (ts.filterMap tokenLine).flatMap (· ++ ['\n']) := by
  induction ts with
  | nil => rfl
  | cons t ts ih =>
    rw [List.flatMap_cons, ih, printToken]
    cases line : tokenLine t with
    | none => rw [List.filterMap_cons_none line, Option.map_none, Option.getD_none, List.nil_append]
    | some w => rw [List.filterMap_cons_some line, Option.map_some, Option.getD_some,
        List.flatMap_cons]

theorem lines_unique {last : List Char} {ls ls' : List (List Char)} {r r' : List Char}
    (short : ∀ l ∈ ls, '\n' ∉ l ∧ l ≠ last) (short' : ∀ l ∈ ls', '\n' ∉ l ∧ l ≠ last)
    (end_ : '\n' ∉ last)
    (same : ls.flatMap (· ++ ['\n']) ++ (last ++ '\n' :: r) =
      ls'.flatMap (· ++ ['\n']) ++ (last ++ '\n' :: r')) : ls = ls' := by
  have word : ∀ {l : List Char}, '\n' ∉ l → l.all (· != '\n') = true := by
    intro l none_
    rw [List.all_eq_true]
    exact fun c member => bne_iff_ne.mpr fun newline => none_ (newline ▸ member)
  induction ls generalizing ls' with
  | nil =>
    cases ls' with
    | nil => rfl
    | cons l' ls' =>
      simp only [List.flatMap_nil, List.nil_append, List.flatMap_cons, List.append_assoc,
        List.singleton_append] at same
      have first := short' l' List.mem_cons_self
      obtain ⟨line, -, -⟩ := word_unique (word end_) (word first.1) rfl rfl same
      exact absurd line.symm first.2
  | cons l ls ih =>
    have first := short l List.mem_cons_self
    cases ls' with
    | nil =>
      simp only [List.flatMap_nil, List.nil_append, List.flatMap_cons, List.append_assoc,
        List.singleton_append] at same
      obtain ⟨line, -, -⟩ := word_unique (word first.1) (word end_) rfl rfl same
      exact absurd line first.2
    | cons l' ls' =>
      simp only [List.flatMap_cons, List.append_assoc, List.singleton_append] at same
      have first' := short' l' List.mem_cons_self
      obtain ⟨line, -, rest⟩ := word_unique (word first.1) (word first'.1) rfl rfl same
      have others := ih (fun k member => short k (List.mem_cons_of_mem l member))
        (fun k member => short' k (List.mem_cons_of_mem l' member)) rest
      rw [line, others]

theorem filter_eq_of_filterMap {α β : Type} {f : α → Option β}
    (unique : ∀ {a a' b}, f a = some b → f a' = some b → a = a') {l l' : List α}
    (same : l.filterMap f = l'.filterMap f) :
    l.filter (fun a => (f a).isSome) = l'.filter fun a => (f a).isSome := by
  induction l generalizing l' with
  | nil =>
    have none_ := List.filterMap_eq_nil_iff.mp same.symm
    rw [List.filter_nil, eq_comm, List.filter_eq_nil_iff]
    intro a member
    rw [none_ a member]
    exact Bool.false_ne_true
  | cons a l ih =>
    cases here : f a with
    | none =>
      rw [List.filterMap_cons_none here] at same
      rw [List.filter_cons_of_neg (by simp [here])]
      exact ih same
    | some b =>
      rw [List.filterMap_cons_some here, eq_comm, List.filterMap_eq_cons_iff] at same
      obtain ⟨before, a', after, rfl, none_, here', rest⟩ := same
      obtain rfl := unique here here'
      have nothing : before.filter (fun a => (f a).isSome) = [] := by
        rw [List.filter_eq_nil_iff]
        intro c member
        rw [none_ c member]
        exact Bool.false_ne_true
      rw [List.filter_cons_of_pos (by simp [here]), List.filter_append, nothing, List.nil_append,
        List.filter_cons_of_pos (by simp [here]), ih rest.symm]

theorem dumpTokens_eq (s : List Char) :
    dumpTokens s = ((tokensToEnd s).filterMap tokenLine).flatMap (· ++ ['\n']) ++
      ("EOF".toList ++ '\n' :: puts "-- done dumping tokens --") := by
  have end_ : printToken (.char nul) = "EOF".toList ++ ['\n'] := rfl
  rw [dumpTokens, flatMap_printToken, end_, List.append_assoc, List.singleton_append]

/-- The dumps of two sources are the same just when they have the same tokens before the end, but for
those that print_token does not know. -/
theorem dumpTokens_eq_iff (s s' : List Char) :
    dumpTokens s = dumpTokens s' ↔ shownTokens s = shownTokens s' := by
  have lines : ∀ s, ∀ l ∈ (tokensToEnd s).filterMap tokenLine, '\n' ∉ l ∧ l ≠ "EOF".toList := by
    intro s l member
    obtain ⟨t, token, line⟩ := List.mem_filterMap.mp member
    unfold tokensToEnd at token
    have lexed := (List.takeWhile_sublist _).subset token
    have going := List.mem_takeWhile_imp token
    obtain ⟨flat, other⟩ := tokenLine_newline (List.all_eq_true.mp (spelled_drglLex s) t lexed) line
    exact ⟨flat, other (of_decide_eq_true going)⟩
  constructor
  · intro same
    -- no line of a token is that of the end, so the dumps end at the same line
    rw [dumpTokens_eq, dumpTokens_eq] at same
    have shown := lines_unique (lines s) (lines s') (by decide) same
    exact filter_eq_of_filterMap tokenLine_unique shown
  · intro same
    have shown : ∀ s, (tokensToEnd s).filterMap tokenLine = (shownTokens s).filterMap tokenLine := by
      intro s
      rw [shownTokens, List.filterMap_filter]
      congr 1
      funext t
      cases tokenLine t <;> rfl
    rw [dumpTokens_eq, dumpTokens_eq, shown s, shown s', same]

end Dragon
