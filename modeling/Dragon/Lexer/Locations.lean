import Dragon.Lexer.Rules
import Dragon.Library.Positions
import Mathlib.Data.List.Induction
import Mathlib.Data.List.TakeWhile

/-! The locations of tokens, over the passes of compile_input.

update_loc moves a position on over all that is matched, comments and blanks
included. The position is static: it is not set back when the text is lexed a
second time. The loop of update_loc stops at a NUL, and a comment may go on
behind one.
-/

set_option autoImplicit false

namespace Dragon

open Lexical Scanner TextPosition Position

structure YYLTYPE where
  firstLine : Nat
  firstColumn : Nat
  lastLine : Nat
  lastColumn : Nat
  deriving DecidableEq, Repr

def countLoc (curr : Position) : List Char → Position
  | [] => curr
  | c :: s => if c = nul then curr else countLoc (curr.advance c) s

def updateLoc (curr : Position) (yytext : List Char) : Position × YYLTYPE :=
  let next := countLoc curr yytext
  (next, ⟨curr.line, curr.column, next.line, next.column - 1⟩)

/-- A token drgl_lex returned: where it starts in the text, its characters, and its location. -/
structure LocatedToken where
  start : Nat
  text : List Char
  loc : YYLTYPE
  deriving DecidableEq, Repr

/-- The next n calls of drgl_lex, from a position and a place in the text. A NUL is returned as 0,
which is the end of the input. -/
def lexPass : Nat → Position → Nat → List (Lexeme Char Terminal) → List LocatedToken × Position
  | 0, curr, _, _ => ([], curr)
  | _ + 1, curr, _, [] => ([], curr)
  | n + 1, curr, start, l :: ls =>
    let (next, loc) := updateLoc curr l.text
    match l.token with
    | none => lexPass (n + 1) next (start + l.text.length) ls
    | some t =>
      if t = .char nul then ([⟨start, l.text, loc⟩], next)
      else
        let (tokens, last) := lexPass n next (start + l.text.length) ls
        (⟨start, l.text, loc⟩ :: tokens, last)

def DUMP_TOKENS : Nat := 1 <<< 0

def NO_PARSE : Nat := 1 <<< 2

/-- The tokens of each pass over a text. Dumping goes on to the end of the input; `asked` is the
number of tokens yyparse asks for. -/
def compileInput (options asked : Nat) (text : List Char) : List (List LocatedToken) :=
  let lexemes := drglScanner.scan text
  let (dumped, curr) :=
    if options &&& DUMP_TOKENS ≠ 0 then
      let (tokens, curr) := lexPass (lexemes.length + 1) origin 0 lexemes
      ([tokens], curr)
    else ([], origin)
  if options &&& NO_PARSE ≠ 0 then dumped
  else dumped ++ [(lexPass asked curr 0 lexemes).1]

def yyerrorLine (loc : YYLTYPE) : Nat := loc.firstLine

def positionAt (text : List Char) (k : Nat) : Position := origin.through (text.take k)

/-- The location of a token is where its characters are. -/
structure TruePosition (text : List Char) (t : LocatedToken) : Prop where
  here : t.text <+: text.drop t.start
  first : ⟨t.loc.firstLine, t.loc.firstColumn⟩ = positionAt text t.start
  last : ⟨t.loc.lastLine, t.loc.lastColumn⟩ = positionAt text (t.start + t.text.length - 1)
  reported : yyerrorLine t.loc = (positionAt text t.start).line

def TruePositions (options asked : Nat) (text : List Char) : Prop :=
  ∀ tokens ∈ compileInput options asked text, ∀ t ∈ tokens, TruePosition text t

/-! ## The tokens a pass reaches -/

/-- A token among the first n of the lexemes, with no NUL returned before it. -/
structure TokenReached (n : Nat) (ls before : List (Lexeme Char Terminal)) (l : Lexeme Char Terminal) :
    Prop where
  split : ∃ after, ls = before ++ l :: after
  token : l.token.isSome
  asked : (before.filterMap Lexeme.token).length < n
  going : .char nul ∉ before.filterMap Lexeme.token

/-- What is behind a NUL in a lexeme, the NUL included. -/
def uncounted (l : Lexeme Char Terminal) : List Char := l.text.dropWhile (· ≠ nul)

/-- No NUL is on the line that ends a list of lexemes, given from the last one on. -/
def ClearLine : List (Lexeme Char Terminal) → Prop
  | [] => True
  | l :: older => uncounted l = [] ∧ ('\n' ∈ l.text ∨ ClearLine older)

/-- No lexeme has a newline behind a NUL, and no NUL is on the last line. -/
structure Counted (before : List (Lexeme Char Terminal)) : Prop where
  newlines : ∀ l ∈ before, '\n' ∉ uncounted l
  line : ClearLine before.reverse

/-- The tokens a pass reaches are behind text that is counted, and none is a NUL. -/
def PassCounted (n : Nat) (ls : List (Lexeme Char Terminal)) : Prop :=
  ∀ before l, TokenReached n ls before l → Counted before ∧ l.token ≠ some (.char nul)

/-- The passes are over text that is counted, and a second pass does not come to a token. -/
structure Undisturbed (options asked : Nat) (ls : List (Lexeme Char Terminal)) : Prop where
  dump : options &&& DUMP_TOKENS ≠ 0 → PassCounted (ls.length + 1) ls
  parse : options &&& NO_PARSE = 0 → PassCounted asked ls
  again : options &&& DUMP_TOKENS ≠ 0 → options &&& NO_PARSE = 0 → ∀ before l, ¬ TokenReached asked ls before l

section Passes

variable {n start : Nat} {curr : Position} {ls before : List (Lexeme Char Terminal)}
  {k l : Lexeme Char Terminal}

theorem TokenReached.nil (n : Nat) : ¬ TokenReached n [] before l := by
  rintro ⟨⟨after, split⟩, -, -, -⟩
  cases before <;> cases split

def countAll (curr : Position) (before : List (Lexeme Char Terminal)) : Position :=
  before.foldl (fun curr l => countLoc curr l.text) curr

def located (curr : Position) (start : Nat) (before : List (Lexeme Char Terminal))
    (l : Lexeme Char Terminal) : LocatedToken :=
  ⟨start + (textOf before).length, l.text, (updateLoc (countAll curr before) l.text).2⟩

theorem located_cons : located curr start (k :: before) l =
    located (countLoc curr k.text) (start + k.text.length) before l := by
  simp only [located, textOf, List.flatMap_cons, List.length_append, Nat.add_assoc]
  rfl

theorem reached_blank (blank : k.token = none) : TokenReached n (k :: ls) before l ↔
    ∃ rest, before = k :: rest ∧ TokenReached n ls rest l := by
  constructor
  · rintro ⟨⟨after, split⟩, token, asked, going⟩
    cases before with
    | nil =>
      obtain ⟨rfl, -⟩ := List.cons.inj split
      rw [blank] at token
      cases token
    | cons k' rest =>
      obtain ⟨rfl, later⟩ := List.cons.inj split
      rw [List.filterMap_cons_none blank] at asked going
      exact ⟨rest, rfl, ⟨after, later⟩, token, asked, going⟩
  · rintro ⟨rest, rfl, ⟨after, rfl⟩, token, asked, going⟩
    refine ⟨⟨after, rfl⟩, token, ?_, ?_⟩
    · rwa [List.filterMap_cons_none blank]
    · rwa [List.filterMap_cons_none blank]

theorem reached_token {t : Terminal} (returned : k.token = some t) :
    TokenReached (n + 1) (k :: ls) before l ↔ (before = [] ∧ l = k) ∨
      ∃ rest, before = k :: rest ∧ t ≠ .char nul ∧ TokenReached n ls rest l := by
  constructor
  · rintro ⟨⟨after, split⟩, token, asked, going⟩
    cases before with
    | nil => exact .inl ⟨rfl, (List.cons.inj split).1.symm⟩
    | cons k' rest =>
      obtain ⟨rfl, later⟩ := List.cons.inj split
      rw [List.filterMap_cons_some returned, List.length_cons] at asked
      rw [List.filterMap_cons_some returned, List.mem_cons, not_or] at going
      exact .inr ⟨rest, rfl, Ne.symm going.1, ⟨after, later⟩, token, by omega, going.2⟩
  · rintro (⟨rfl, rfl⟩ | ⟨rest, rfl, other, ⟨after, rfl⟩, token, asked, going⟩)
    · exact ⟨⟨ls, rfl⟩, returned ▸ rfl, Nat.succ_pos n, by simp⟩
    · refine ⟨⟨after, rfl⟩, token, ?_, ?_⟩
      · rw [List.filterMap_cons_some returned, List.length_cons]
        omega
      · rw [List.filterMap_cons_some returned, List.mem_cons, not_or]
        exact ⟨Ne.symm other, going⟩

theorem mem_lexPass {t : LocatedToken} : t ∈ (lexPass n curr start ls).1 ↔
    ∃ before l, TokenReached n ls before l ∧ t = located curr start before l := by
  induction ls generalizing n curr start with
  | nil =>
    have nothing : (lexPass n curr start []).1 = [] := by cases n <;> rfl
    rw [nothing]
    simp [TokenReached.nil]
  | cons k ls ih =>
    cases n with
    | zero =>
      simp only [lexPass, List.not_mem_nil, false_iff]
      rintro ⟨before, l, reached, -⟩
      exact absurd reached.asked (Nat.not_lt_zero _)
    | succ n =>
      cases returned : k.token with
      | none =>
        simp only [lexPass, returned, ih, reached_blank returned]
        constructor
        · rintro ⟨rest, l, reached, rfl⟩
          exact ⟨k :: rest, l, ⟨rest, rfl, reached⟩, located_cons.symm⟩
        · rintro ⟨-, l, ⟨rest, rfl, reached⟩, rfl⟩
          exact ⟨rest, l, reached, located_cons⟩
      | some tok =>
        by_cases ending : tok = .char nul
        -- the token 0: the pass is over, and nothing behind it is reached
        · simp only [lexPass, returned, if_pos ending, List.mem_singleton, reached_token returned]
          constructor
          · rintro rfl
            exact ⟨[], k, .inl ⟨rfl, rfl⟩, rfl⟩
          · rintro ⟨-, -, ⟨rfl, rfl⟩ | ⟨rest, -, other, -⟩, rfl⟩
            · rfl
            · exact absurd ending other
        · simp only [lexPass, returned, if_neg ending, List.mem_cons, ih, reached_token returned]
          constructor
          · rintro (rfl | ⟨rest, l, reached, rfl⟩)
            · exact ⟨[], k, .inl ⟨rfl, rfl⟩, rfl⟩
            · exact ⟨k :: rest, l, .inr ⟨rest, rfl, ending, reached⟩, located_cons.symm⟩
          · rintro ⟨-, l, ⟨rfl, rfl⟩ | ⟨rest, rfl, -, reached⟩, rfl⟩
            · exact .inl rfl
            · exact .inr ⟨rest, l, reached, located_cons⟩

theorem lexPass_last : ∃ consumed, consumed <+: ls ∧
    (lexPass n curr start ls).2 = countAll curr consumed ∧
      ∀ before l, TokenReached n ls before l → before ++ [l] <+: consumed := by
  induction ls generalizing n curr start with
  | nil =>
    refine ⟨[], List.prefix_refl [], ?_, fun _ _ reached => absurd reached (TokenReached.nil n)⟩
    cases n <;> rfl
  | cons k ls ih =>
    cases n with
    | zero =>
      refine ⟨[], List.nil_prefix, rfl, ?_⟩
      intro before l reached
      exact absurd reached.asked (Nat.not_lt_zero _)
    | succ n =>
      have more : ∀ {rest consumed : List (Lexeme Char Terminal)} {l : Lexeme Char Terminal},
          rest ++ [l] <+: consumed → (k :: rest) ++ [l] <+: k :: consumed := fun shorter =>
        (List.prefix_cons_inj k).mpr shorter
      cases returned : k.token with
      | none =>
        obtain ⟨consumed, within, last, reach⟩ :=
          @ih (n + 1) (start + k.text.length) (countLoc curr k.text)
        refine ⟨k :: consumed, (List.prefix_cons_inj k).mpr within, ?_, ?_⟩
        · simp only [lexPass, returned]
          exact last
        · intro before l reached
          obtain ⟨rest, rfl, reached'⟩ := (reached_blank returned).mp reached
          exact more (reach rest l reached')
      | some tok =>
        obtain ⟨consumed, within, last, reach⟩ :=
          @ih n (start + k.text.length) (countLoc curr k.text)
        by_cases ending : tok = .char nul
        · refine ⟨[k], (List.prefix_cons_inj k).mpr List.nil_prefix, ?_, ?_⟩
          · simp only [lexPass, returned, if_pos ending]
            rfl
          · intro before l reached
            rcases (reached_token returned).mp reached with ⟨rfl, rfl⟩ | ⟨rest, -, other, -⟩
            · exact List.prefix_refl _
            · exact absurd ending other
        · refine ⟨k :: consumed, (List.prefix_cons_inj k).mpr within, ?_, ?_⟩
          · simp only [lexPass, returned, if_neg ending]
            exact last
          · intro before l reached
            rcases (reached_token returned).mp reached with ⟨rfl, rfl⟩ | ⟨rest, rfl, -, reached'⟩
            · exact (List.prefix_cons_inj _).mpr List.nil_prefix
            · exact more (reach rest l reached')

end Passes

/-! ## What is counted -/

def counted (l : Lexeme Char Terminal) : List Char := l.text.takeWhile (· ≠ nul)

theorem counted_append (l : Lexeme Char Terminal) : counted l ++ uncounted l = l.text :=
  List.takeWhile_append_dropWhile

theorem countLoc_eq (curr : Position) (s : List Char) :
    countLoc curr s = curr.through (s.takeWhile (· ≠ nul)) := by
  induction s generalizing curr with
  | nil => rfl
  | cons c s ih =>
    rw [countLoc]
    split
    next ends => simp [ends]
    next other => rw [List.takeWhile_cons_of_pos (by simpa using other), through_cons, ih]

theorem countAll_eq (curr : Position) (before : List (Lexeme Char Terminal)) :
    countAll curr before = curr.through (before.flatMap counted) := by
  induction before generalizing curr with
  | nil => rfl
  | cons l before ih =>
    have later : countAll curr (l :: before) = countAll (countLoc curr l.text) before := rfl
    rw [later, ih, countLoc_eq, List.flatMap_cons, through_append]
    rfl

theorem count_textOf (c : Char) (before : List (Lexeme Char Terminal)) :
    (textOf before).count c = (before.flatMap counted).count c + (before.flatMap uncounted).count c := by
  induction before with
  | nil => rfl
  | cons l before ih =>
    have here : l.text.count c = (counted l).count c + (uncounted l).count c := by
      rw [← List.count_append, counted_append]
    simp only [textOf, List.flatMap_cons, List.count_append] at ih ⊢
    omega

theorem line_iff (before : List (Lexeme Char Terminal)) :
    (origin.through (before.flatMap counted)).line = (origin.through (textOf before)).line ↔
      ∀ l ∈ before, '\n' ∉ uncounted l := by
  have none_ : (before.flatMap uncounted).count '\n' = 0 ↔ ∀ l ∈ before, '\n' ∉ uncounted l := by
    rw [List.count_eq_zero, List.mem_flatMap]
    simp only [not_exists, not_and]
  rw [← none_, line_through, line_through, count_textOf]
  omega

-- Where no newline is left out, the columns agree when nothing is left out since the last one.
theorem column_iff {before : List (Lexeme Char Terminal)} (newlines : ∀ l ∈ before, '\n' ∉ uncounted l) :
    (origin.through (before.flatMap counted)).column ≤ (origin.through (textOf before)).column ∧
      ((origin.through (before.flatMap counted)).column = (origin.through (textOf before)).column ↔
        ClearLine before.reverse) := by
  induction before using List.reverseRecOn with
  | nil => exact ⟨Nat.le_refl _, by simp [textOf, ClearLine]⟩
  | append_singleton before l ih =>
    obtain ⟨le, iff⟩ := ih fun l' member => newlines l' (List.mem_append_left _ member)
    have flat : '\n' ∉ uncounted l := newlines l (by simp)
    have text : textOf (before ++ [l]) = textOf before ++ counted l ++ uncounted l := by
      rw [textOf, List.flatMap_append, List.flatMap_singleton, List.append_assoc, counted_append]
      rfl
    have mention : '\n' ∈ l.text ↔ '\n' ∈ counted l := by
      rw [← counted_append l, List.mem_append]
      exact or_iff_left flat
    rw [text, List.flatMap_append, List.flatMap_singleton, List.reverse_append, List.reverse_singleton,
      List.singleton_append, ClearLine, mention, through_append, through_append, through_append,
      through_of_flat _ flat]
    generalize origin.through (before.flatMap counted) = p at *
    generalize origin.through (textOf before) = q at *
    rw [← List.length_eq_zero_iff]
    dsimp only
    by_cases newline : '\n' ∈ counted l
    · -- what came before is forgotten
      have same := column_through p q newline
      simp only [newline, true_or, and_true]
      omega
    · rw [through_of_flat p newline, through_of_flat q newline]
      dsimp only
      simp only [newline, false_or, ← iff]
      omega

theorem counted_iff (before : List (Lexeme Char Terminal)) :
    origin.through (before.flatMap counted) = origin.through (textOf before) ↔ Counted before := by
  rw [Position.ext_iff, line_iff]
  constructor
  · rintro ⟨newlines, column⟩
    exact ⟨newlines, (column_iff newlines).2.mp column⟩
  · rintro ⟨newlines, line⟩
    exact ⟨newlines, (column_iff newlines).2.mpr line⟩

/-! ## The characters of a token -/

theorem token_text {r : LexerRule} {w : List Char} {t : Terminal} (rule : ruleFor lexerRules w = some r)
    (returns : r.action w = some t) :
    '\n' ∉ w ∧ (nul ∈ w → t = .char nul) ∧ (t = .char nul → w = [nul]) := by
  have token : ¬ Matched commentRules w := by
    intro comment
    obtain ⟨r', found, nothing⟩ := ruleFor_comment comment
    rw [rule] at found
    cases found
    rw [returns] at nothing
    cases nothing
  rw [ruleFor_token token] at rule
  obtain ⟨p, member, rfl⟩ := List.mem_map.mp (List.mem_of_find?_eq_some rule)
  have inside : w ∈ p.1.language := by
    have accepted := List.find?_some rule
    exact Pattern.accepts_iff.mp accepted
  have plain : ∀ c, p.1.mentions c = false → c ∉ w := by
    intro c absent member
    rw [Pattern.mentions_of_mem inside member] at absent
    cases absent
  simp only [tokenPatterns, List.mem_append, List.mem_map, List.mem_cons, List.not_mem_nil, or_false]
    at member
  rcases member with (rfl | ⟨entry, listed, rfl⟩) | rfl | rfl | rfl
  -- blanks, words with a token of their own, names, numbers, single characters
  · cases returns
  · have each : ∀ e ∈ literals, '\n' ∉ e.1 ∧ nul ∉ e.1 ∧ e.2 ≠ .char nul := by decide +kernel
    obtain ⟨newline, nul_, other⟩ := each entry listed
    rw [Pattern.mem_word.mp inside]
    cases returns
    exact ⟨newline, fun member => absurd member nul_, fun same => absurd same other⟩
  · cases returns
    exact ⟨plain _ (by decide), fun member => absurd member (plain _ (by decide)), fun same => by cases same⟩
  · cases returns
    exact ⟨plain _ (by decide), fun member => absurd member (plain _ (by decide)), fun same => by cases same⟩
  · obtain ⟨c, other, rfl⟩ := inside
    cases returns
    refine ⟨?_, ?_, ?_⟩
    · rw [List.mem_singleton]
      rintro rfl
      cases other
    · intro member
      rw [List.mem_singleton.mp member]
    · intro same
      rw [Terminal.char.inj same]

structure TokenAt (text : List Char) (before : List (Lexeme Char Terminal))
    (l : Lexeme Char Terminal) : Prop where
  split : ∃ after, text = textOf before ++ l.text ++ after
  ne_nil : l.text ≠ []
  flat : '\n' ∉ l.text
  counted : l.token ≠ some (.char nul) → nul ∉ l.text
  ends : l.token = some (.char nul) → l.text = [nul]

theorem TokenReached.tokenAt {n : Nat} {text : List Char} {before : List (Lexeme Char Terminal)}
    {l : Lexeme Char Terminal} (reached : TokenReached n (drglScanner.scan text) before l) :
    TokenAt text before l := by
  obtain ⟨⟨after, split⟩, token, -, -⟩ := reached
  obtain ⟨t, returns⟩ := Option.isSome_iff_exists.mp token
  have member : l ∈ drglScanner.scan text := by simp [split]
  obtain ⟨s, next⟩ := next_of_mem_scan total_drglScanner member
  obtain ⟨-, r, rule, action⟩ := next_ofRules.mp next
  obtain ⟨flat, nul_, ends⟩ := token_text rule (action.symm.trans returns)
  refine ⟨⟨textOf after, ?_⟩, drglScanner.next_ne_nil s l next, flat, ?_, ?_⟩
  · have whole := textOf_scan (s := text) total_drglScanner
    rw [split] at whole
    rw [← whole]
    simp [textOf]
  · intro other member
    exact other (returns.trans (congrArg some (nul_ member)))
  · intro same
    exact ends (Option.some.inj (returns.symm.trans same))

section Tokens

variable {text : List Char} {before : List (Lexeme Char Terminal)} {l : Lexeme Char Terminal}

theorem TokenAt.counted_eq (at_ : TokenAt text before l) (other : l.token ≠ some (.char nul)) :
    l.text.takeWhile (· ≠ nul) = l.text := by
  rw [List.takeWhile_eq_self_iff]
  intro c member
  have differs : c ≠ nul := fun same => at_.counted other (same ▸ member)
  simpa using differs

theorem TokenAt.position (at_ : TokenAt text before l) :
    positionAt text (textOf before).length = origin.through (textOf before) := by
  obtain ⟨after, rfl⟩ := at_.split
  rw [positionAt, List.append_assoc, List.take_left]

theorem TokenAt.position_last (at_ : TokenAt text before l) :
    positionAt text ((textOf before).length + l.text.length - 1) =
      ⟨(origin.through (textOf before)).line,
        (origin.through (textOf before)).column + (l.text.length - 1)⟩ := by
  have some_ := List.length_pos_iff.mpr at_.ne_nil
  have flat : '\n' ∉ l.text.take (l.text.length - 1) := fun member =>
    at_.flat (List.mem_of_mem_take member)
  obtain ⟨after, rfl⟩ := at_.split
  have cut : (textOf before ++ l.text ++ after).take ((textOf before).length + l.text.length - 1) =
      textOf before ++ l.text.take (l.text.length - 1) := by
    rw [List.append_assoc, Nat.add_sub_assoc some_, List.take_length_add_append,
      List.take_append_of_le_length (Nat.sub_le ..)]
  rw [positionAt, cut, through_append, through_of_flat _ flat, List.length_take]
  congr 2
  omega

-- In a pass from the beginning a location is true when what is before it is counted, and the
-- token is no NUL.
theorem TokenAt.true_iff (at_ : TokenAt text before l) :
    TruePosition text (located origin 0 before l) ↔
      Counted before ∧ l.token ≠ some (.char nul) := by
  have some_ := List.length_pos_iff.mpr at_.ne_nil
  have start : (located origin 0 before l).start = (textOf before).length := Nat.zero_add _
  have first : (⟨(located origin 0 before l).loc.firstLine, (located origin 0 before l).loc.firstColumn⟩ :
      Position) = origin.through (before.flatMap Dragon.counted) := countAll_eq origin before
  constructor
  · intro true_
    have same : origin.through (before.flatMap Dragon.counted) = origin.through (textOf before) := by
      rw [← first, true_.first, start, at_.position]
    refine ⟨(counted_iff before).mp same, ?_⟩
    intro ends
    -- nothing is counted for a NUL, so its last column is the one before it
    have text_ := at_.ends ends
    have last := true_.last
    rw [start] at last
    have columns := congrArg column (last.trans at_.position_last)
    have nothing : ∀ p, countLoc p [nul] = p := fun _ => if_pos rfl
    simp only [located, updateLoc, text_, nothing, countAll_eq, same, List.length_singleton] at columns
    have positive := column_pos (p := origin) (by decide) (textOf before)
    omega
  · rintro ⟨right, other⟩
    have same := (counted_iff before).mpr right
    have all : countLoc (countAll origin before) l.text =
        ⟨(origin.through (textOf before)).line,
          (origin.through (textOf before)).column + l.text.length⟩ := by
      rw [countLoc_eq, at_.counted_eq other, through_of_flat _ at_.flat, countAll_eq, same]
    refine ⟨?_, ?_, ?_, ?_⟩
    · rw [start]
      obtain ⟨after, rfl⟩ := at_.split
      rw [List.append_assoc, List.drop_left]
      exact List.prefix_append ..
    · rw [first, start, at_.position, same]
    · rw [start]
      refine Eq.trans ?_ at_.position_last.symm
      simp only [located, updateLoc, all]
      congr 1
      omega
    · have line := congrArg line (first.trans same)
      rw [start, at_.position]
      exact line

-- In a pass that goes on from the end of another one no location is true.
theorem TokenAt.again_false (at_ : TokenAt text before l) (right : Counted before)
    {u : List Char} (some_ : u ≠ []) (within : before.flatMap Dragon.counted <+: u) :
    ¬ TruePosition text (located (origin.through u) 0 before l) := by
  intro true_
  have start : (located (origin.through u) 0 before l).start = (textOf before).length := Nat.zero_add _
  have first : (origin.through u).through (before.flatMap Dragon.counted) =
      positionAt text (textOf before).length := by
    rw [← countAll_eq, ← start]
    exact true_.first
  rw [at_.position, ← (counted_iff before).mpr right] at first
  exact again_ne some_ (fun flat member => flat (within.subset member)) first

end Tokens

/-! ## The passes of compile_input -/

section

variable {text : List Char} {options asked n : Nat}

theorem passCounted_iff : PassCounted n (drglScanner.scan text) ↔
    ∀ t ∈ (lexPass n origin 0 (drglScanner.scan text)).1, TruePosition text t := by
  constructor
  · intro counted t member
    obtain ⟨before, l, reached, rfl⟩ := mem_lexPass.mp member
    exact reached.tokenAt.true_iff.mpr (counted before l reached)
  · intro right before l reached
    exact reached.tokenAt.true_iff.mp (right _ (mem_lexPass.mpr ⟨before, l, reached, rfl⟩))

theorem TokenReached.all {ls before : List (Lexeme Char Terminal)} {l : Lexeme Char Terminal}
    (reached : TokenReached n ls before l) : TokenReached (ls.length + 1) ls before l := by
  refine ⟨reached.split, reached.token, ?_, reached.going⟩
  obtain ⟨after, rfl⟩ := reached.split
  have short := List.length_filterMap_le Lexeme.token before
  rw [List.length_append]
  omega

theorem second_iff (dumped : PassCounted ((drglScanner.scan text).length + 1) (drglScanner.scan text)) :
    (∀ t ∈ (lexPass n (lexPass ((drglScanner.scan text).length + 1) origin 0
      (drglScanner.scan text)).2 0 (drglScanner.scan text)).1, TruePosition text t) ↔
        ∀ before l, ¬ TokenReached n (drglScanner.scan text) before l := by
  constructor
  · intro right before l reached
    -- the first pass has counted all that is before the token, and the token
    obtain ⟨consumed, -, last, reach⟩ :=
      @lexPass_last ((drglScanner.scan text).length + 1) 0 origin (drglScanner.scan text)
    have true_ := right _ (mem_lexPass.mpr ⟨before, l, reached, rfl⟩)
    obtain ⟨counted_, other⟩ := dumped before l reached.all
    obtain ⟨more, split⟩ := reach before l reached.all
    rw [last, countAll_eq] at true_
    have whole : consumed.flatMap counted = before.flatMap counted ++ l.text ++ more.flatMap counted := by
      have all : l.text.takeWhile (· ≠ nul) = l.text := reached.tokenAt.counted_eq other
      rw [← split, List.flatMap_append, List.flatMap_append, List.flatMap_singleton]
      exact congrArg (_ ++ · ++ _) all
    refine reached.tokenAt.again_false counted_ ?_ ?_ true_
    · rw [whole]
      simp [reached.tokenAt.ne_nil]
    · rw [whole, List.append_assoc]
      exact List.prefix_append ..
  · intro none_ t member
    obtain ⟨before, l, reached, -⟩ := mem_lexPass.mp member
    exact absurd reached (none_ before l)

end

/-- The locations of every pass are true just when the passes are over text that is counted, and the
text is not lexed a second time up to a token. -/
theorem truePositions_iff (options asked : Nat) (text : List Char) :
    TruePositions options asked text ↔ Undisturbed options asked (drglScanner.scan text) := by
  have dumps := @passCounted_iff text ((drglScanner.scan text).length + 1)
  have parses := @passCounted_iff text asked
  by_cases dump : options &&& DUMP_TOKENS ≠ 0
  · by_cases parse : options &&& NO_PARSE = 0
    · -- what the second pass comes to, the first one has come to
      have both : TruePositions options asked text ↔
          (∀ t ∈ (lexPass ((drglScanner.scan text).length + 1) origin 0 (drglScanner.scan text)).1,
            TruePosition text t) ∧
          ∀ t ∈ (lexPass asked (lexPass ((drglScanner.scan text).length + 1) origin 0
            (drglScanner.scan text)).2 0 (drglScanner.scan text)).1, TruePosition text t := by
        simp [TruePositions, compileInput, dump, parse]
      rw [both, ← dumps]
      constructor
      · rintro ⟨dumped, second⟩
        refine ⟨fun _ => dumped, fun _ => ?_, fun _ _ => (second_iff dumped).mp second⟩
        exact fun before l reached => dumped before l reached.all
      · intro right
        exact ⟨right.dump dump, (second_iff (right.dump dump)).mpr (right.again dump parse)⟩
    · have one : TruePositions options asked text ↔
          ∀ t ∈ (lexPass ((drglScanner.scan text).length + 1) origin 0 (drglScanner.scan text)).1,
            TruePosition text t := by
        simp [TruePositions, compileInput, dump, parse]
      rw [one, ← dumps]
      constructor
      · intro dumped
        exact ⟨fun _ => dumped, fun parsed => absurd parsed parse, fun _ parsed => absurd parsed parse⟩
      · exact fun right => right.dump dump
  · by_cases parse : options &&& NO_PARSE = 0
    · have one : TruePositions options asked text ↔
          ∀ t ∈ (lexPass asked origin 0 (drglScanner.scan text)).1, TruePosition text t := by
        simp [TruePositions, compileInput, dump, parse]
      rw [one, ← parses]
      constructor
      · intro parsed
        exact ⟨fun dumped => absurd dumped dump, fun _ => parsed, fun dumped => absurd dumped dump⟩
      · exact fun right => right.parse parse
    · have none_ : TruePositions options asked text := by
        simp [TruePositions, compileInput, dump, parse]
      refine iff_of_true none_ ?_
      exact ⟨fun dumped => absurd dumped dump, fun parsed => absurd parsed parse,
        fun dumped => absurd dumped dump⟩

-- Dumped and then parsed, the only token is said to be behind itself.
theorem not_forall_truePositions : ¬ ∀ (options asked : Nat) (text : List Char),
    TruePositions options asked text := by
  intro every
  have passes : compileInput DUMP_TOKENS 1 ['a'] =
      [[⟨0, ['a'], ⟨1, 1, 1, 1⟩⟩], [⟨0, ['a'], ⟨1, 2, 1, 2⟩⟩]] := by decide +kernel
  have second := every DUMP_TOKENS 1 ['a'] [⟨0, ['a'], ⟨1, 2, 1, 2⟩⟩] (by simp [passes])
    ⟨0, ['a'], ⟨1, 2, 1, 2⟩⟩ (by simp)
  exact absurd (congrArg column second.first) (by decide)

end Dragon
