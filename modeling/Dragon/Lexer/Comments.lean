import Mathlib.Data.List.TakeWhile
import Dragon.Lexer.Rules

/-! Comments between tokens.

The documents delimit a comment by the first closer that follows. The braces
rule takes the last closing brace of the file instead, and the stars rule allows
no star inside.
-/

set_option autoImplicit false

namespace Dragon

open Lexical Scanner

/-- Up to the first occurrence of the closer, with it. -/
def through (closer : List Char) : List Char → Option (List Char)
  | [] => none
  | c :: s => if closer.isPrefixOf (c :: s) then some closer else (through closer s).map (c :: ·)

def commentAt : List Char → Option (List Char)
  | '{' :: s => (through ['}'] s).map fun m => '{' :: m
  | '(' :: '*' :: s => (through ['*', ')'] s).map fun m => '(' :: '*' :: m
  | '/' :: '/' :: s => some ('/' :: '/' :: s.takeWhile (· != '\n'))
  | _ => none

theorem through_spec {closer s w : List Char} (found : through closer s = some w) :
    w <+: s ∧ closer <:+ w := by
  induction s generalizing w with
  | nil => cases found
  | cons c s ih =>
    rw [through] at found
    split at found
    next here =>
      cases found
      exact ⟨List.isPrefixOf_iff_prefix.mp here, List.suffix_refl _⟩
    next =>
      obtain ⟨v, later, rfl⟩ := Option.map_eq_some_iff.mp found
      obtain ⟨before, after⟩ := ih later
      exact ⟨List.cons_prefix_cons.mpr ⟨rfl, before⟩, after.trans (List.suffix_cons c v)⟩

theorem exists_through {closer s : List Char} (some_ : closer ≠ []) (occurs : closer <:+: s) :
    ∃ w, through closer s = some w := by
  induction s with
  | nil => exact absurd (List.infix_nil.mp occurs) some_
  | cons c s ih =>
    rw [through]
    split
    next => exact ⟨closer, rfl⟩
    next elsewhere =>
      rcases List.infix_cons_iff.mp occurs with here | later
      · exact absurd (List.isPrefixOf_iff_prefix.mpr here) elsewhere
      · obtain ⟨w, found⟩ := ih later
        exact ⟨c :: w, by rw [found]; rfl⟩

theorem through_of_starts {closer s t w : List Char} (some_ : closer ≠ [])
    (found : through closer s = some w) (before : w <+: t) : through closer t = some w := by
  induction s generalizing t w with
  | nil => cases found
  | cons c s ih =>
    rw [through] at found
    split at found
    next here =>
      cases found
      cases t with
      | nil => exact absurd (List.prefix_nil.mp before) some_
      | cons d t => rw [through, if_pos (List.isPrefixOf_iff_prefix.mpr before)]
    next elsewhere =>
      obtain ⟨v, later, rfl⟩ := Option.map_eq_some_iff.mp found
      obtain ⟨inside, ends⟩ := through_spec later
      cases t with
      | nil => cases List.prefix_nil.mp before
      | cons d t =>
        obtain ⟨rfl, before'⟩ := List.cons_prefix_cons.mp before
        have whole : c :: v <+: c :: s := List.cons_prefix_cons.mpr ⟨rfl, inside⟩
        have apart : ¬ closer.isPrefixOf (c :: t) = true := by
          intro here
          apply elsewhere
          apply List.isPrefixOf_iff_prefix.mpr
          -- the closer is shorter than what has been found
          have short : closer.length ≤ (c :: v).length := Nat.le_succ_of_le ends.length_le
          have opener := List.isPrefixOf_iff_prefix.mp here
          exact (List.prefix_of_prefix_length_le opener before short).trans whole
        rw [through, if_neg apart, ih later before']
        rfl

inductive StartsComment : List Char → List Char → Prop where
  | braces {s m : List Char} (found : through ['}'] s = some m) : StartsComment ('{' :: s) ('{' :: m)
  | stars {s m : List Char} (found : through ['*', ')'] s = some m) :
      StartsComment ('(' :: '*' :: s) ('(' :: '*' :: m)
  | line (s : List Char) :
      StartsComment ('/' :: '/' :: s) ('/' :: '/' :: s.takeWhile (· != '\n'))

theorem commentAt_iff {s c : List Char} : commentAt s = some c ↔ StartsComment s c := by
  constructor
  · intro found
    unfold commentAt at found
    split at found
    next =>
      obtain ⟨m, closed, rfl⟩ := Option.map_eq_some_iff.mp found
      exact .braces closed
    next =>
      obtain ⟨m, closed, rfl⟩ := Option.map_eq_some_iff.mp found
      exact .stars closed
    next =>
      cases found
      exact .line _
    next => cases found
  · intro starts
    cases starts with
    | braces found => rw [commentAt, found]; rfl
    | stars found => rw [commentAt, found]; rfl
    | line => rfl

namespace StartsComment

variable {s c : List Char}

theorem initial (starts : StartsComment s c) : c <+: s := by
  cases starts with
  | braces found => simpa only [List.cons_prefix_cons, true_and] using (through_spec found).1
  | stars found => simpa only [List.cons_prefix_cons, true_and] using (through_spec found).1
  | line s => simpa only [List.cons_prefix_cons, true_and] using List.takeWhile_prefix _

theorem ne_nil (starts : StartsComment s c) : c ≠ [] := by
  cases starts <;> exact List.cons_ne_nil _ _

end StartsComment

/-! ## The documented scanner -/

/-- Comments as the documents delimit them, and between them the tokens of the lexer. -/
def documentedScanner : Scanner Char Terminal where
  next s :=
    match commentAt s with
    | some c => some ⟨c, none⟩
    | none => (Scanner.ofRules tokenRules).next s
  next_ne_nil := by
    intro s l next
    split at next
    next found =>
      cases next
      exact (commentAt_iff.mp found).ne_nil
    next => exact (Scanner.ofRules tokenRules).next_ne_nil s l next
  next_starts := by
    intro s l next
    split at next
    next found =>
      cases next
      exact (commentAt_iff.mp found).initial
    next => exact (Scanner.ofRules tokenRules).next_starts s l next

theorem documented_next {s : List Char} {l : Lexeme Char Terminal} :
    documentedScanner.next s = some l ↔ (∃ c, StartsComment s c ∧ l = ⟨c, none⟩) ∨
      ((∀ c, ¬ StartsComment s c) ∧ (Scanner.ofRules tokenRules).next s = some l) := by
  simp only [documentedScanner, ← commentAt_iff]
  cases found : commentAt s with
  | none => simp
  | some c => simp [eq_comm]

theorem total_documentedScanner : documentedScanner.Total := by
  intro s some_
  simp only [documentedScanner]
  cases commentAt s with
  | some c => exact ⟨_, rfl⟩
  | none => exact Scanner.total_ofRules matched_one s some_

theorem startsComment_of_matched {s v : List Char} (before : v <+: s)
    (matched : Matched commentRules v) : ∃ c, StartsComment s c := by
  obtain ⟨t, rfl⟩ := before
  rcases matched_commentRules.mp matched with braces | stars | line
  · obtain ⟨m, rfl⟩ := commentOfBraces_iff.mp braces
    obtain ⟨w, found⟩ := @exists_through ['}'] (m ++ ['}'] ++ t) (by simp) (List.infix_append _ _ _)
    exact ⟨_, .braces found⟩
  · obtain ⟨m, -, rfl⟩ := commentOfStars_iff.mp stars
    obtain ⟨w, found⟩ := @exists_through ['*', ')'] (m ++ ['*', ')'] ++ t) (by simp)
      (List.infix_append _ _ _)
    exact ⟨_, .stars found⟩
  · obtain ⟨m, -, rfl⟩ := commentOfLine_iff.mp line
    exact ⟨_, .line (m ++ t)⟩

/-! ## What the lexer makes of a comment -/

def BracesComment (c : List Char) : Prop := commentAt c = some c ∧ c.head? = some '{'

def StarsComment (c : List Char) : Prop := commentAt c = some c ∧ c.head? = some '('

/-- What stands between the two delimiters of a stars comment. -/
def interior (c : List Char) : List Char := (c.drop 2).take (c.length - 4)

/-- No closing brace follows a braces comment, and no star is inside a stars comment. -/
structure Delimited (c rest : List Char) : Prop where
  braces : BracesComment c → '}' ∉ rest
  stars : StarsComment c → '*' ∉ interior c

theorem StartsComment.self {s c : List Char} (starts : StartsComment s c) : commentAt c = some c := by
  cases starts with
  | braces found =>
    exact commentAt_iff.mpr (.braces (through_of_starts (by simp) found (List.prefix_refl _)))
  | stars found =>
    exact commentAt_iff.mpr (.stars (through_of_starts (by simp) found (List.prefix_refl _)))
  | line s =>
    have again := StartsComment.line (s.takeWhile (· != '\n'))
    rw [List.takeWhile_idem] at again
    exact commentAt_iff.mpr again

theorem interior_eq (m : List Char) : interior ('(' :: '*' :: (m ++ ['*', ')'])) = m := by
  simp [interior]

theorem mem_of_longer_prefix {m rest k : List Char} {a : Char} (before : k ++ [a] <+: m ++ rest)
    (longer : m.length < k.length + 1) : a ∈ rest := by
  have within : m <+: k ++ [a] := by
    apply List.prefix_of_prefix_length_le (List.prefix_append m rest) before
    rw [List.length_append, List.length_singleton]
    omega
  obtain ⟨x, ends⟩ := within
  have some_ : x ≠ [] := by
    rintro rfl
    have lengths := congrArg List.length ends
    simp only [List.append_nil, List.length_append, List.length_singleton] at lengths
    omega
  have last : x.getLast? = some a := by
    have whole := congrArg List.getLast? ends
    rw [List.getLast?_append_of_ne_nil m some_, List.getLast?_concat] at whole
    exact whole
  rw [← ends, List.prefix_append_right_inj] at before
  exact before.subset (List.mem_of_getLast? last)

theorem longest_comment {c rest : List Char} {o : Char} (opens : o ∈ ['{', '(', '/'])
    (matched : Matched commentRules (o :: c))
    (longest : ∀ v, v <+: o :: (c ++ rest) → Matched commentRules v → v.length ≤ (o :: c).length) :
    Longest lexerRules (o :: (c ++ rest)) (o :: c) := by
  refine ⟨List.cons_ne_nil o c, ?_, matched_lexerRules.mpr (.inl matched), ?_⟩
  · exact List.prefix_append (o :: c) rest
  · intro v before either
    rcases matched_lexerRules.mp either with comment | token
    · exact longest v before comment
    · cases v with
      | nil => exact Nat.zero_le _
      | cons d v =>
        obtain ⟨rfl, -⟩ := List.cons_prefix_cons.mp before
        rw [length_of_starts opens token]
        exact Nat.succ_le_succ (Nat.zero_le _)

theorem drgl_next_comment {c rest : List Char} (starts : StartsComment (c ++ rest) c)
    (apart : Delimited c rest) : drglScanner.next (c ++ rest) = some ⟨c, none⟩ := by
  have self := starts.self
  apply Scanner.next_ofRules.mpr
  suffices long : Longest lexerRules (c ++ rest) c ∧ Matched commentRules c by
    obtain ⟨r, found, nothing⟩ := ruleFor_comment long.2
    exact ⟨long.1, r, found, nothing.symm⟩
  cases c with
  | nil => exact absurd rfl starts.ne_nil
  | cons o c =>
  have opens : o ∈ ['{', '(', '/'] := by
    generalize o :: c ++ rest = s at starts
    cases starts <;> simp
  suffices both : Matched commentRules (o :: c) ∧ ∀ v, v <+: o :: (c ++ rest) →
      Matched commentRules v → v.length ≤ (o :: c).length from
    ⟨longest_comment opens both.1 both.2, both.1⟩
  generalize text : o :: c ++ rest = s at starts
  cases starts with
  | @braces s m found =>
    obtain ⟨k, rfl⟩ := (through_spec found).2
    refine ⟨matched_commentRules.mpr (.inl (commentOfBraces_iff.mpr ⟨k, rfl⟩)), ?_⟩
    intro v before matched
    rcases matched_commentRules.mp matched with braces | stars | line
    · obtain ⟨n, rfl⟩ := commentOfBraces_iff.mp braces
      by_contra longer
      apply apart.braces ⟨self, rfl⟩
      apply mem_of_longer_prefix (List.cons_prefix_cons.mp before).2
      simp only [List.length_cons, List.length_append, List.length_nil] at longer ⊢
      omega
    · obtain ⟨n, -, rfl⟩ := commentOfStars_iff.mp stars
      cases (List.cons_prefix_cons.mp before).1
    · obtain ⟨n, -, rfl⟩ := commentOfLine_iff.mp line
      cases (List.cons_prefix_cons.mp before).1
  | @stars s m found =>
    obtain ⟨k, rfl⟩ := (through_spec found).2
    have plain := apart.stars ⟨self, rfl⟩
    rw [interior_eq] at plain
    refine ⟨matched_commentRules.mpr (.inr (.inl (commentOfStars_iff.mpr ⟨k, plain, rfl⟩))), ?_⟩
    intro v before matched
    rcases matched_commentRules.mp matched with braces | stars | line
    · obtain ⟨n, rfl⟩ := commentOfBraces_iff.mp braces
      cases (List.cons_prefix_cons.mp before).1
    · obtain ⟨n, plain', rfl⟩ := commentOfStars_iff.mp stars
      by_contra longer
      apply plain'
      simp only [List.cons_append, List.append_assoc, List.cons_prefix_cons, true_and] at before
      have star : k ++ ['*'] <+: n := by
        have here : n <+: k ++ ('*' :: ')' :: ([] ++ rest)) := (List.prefix_append n _).trans before
        have there : k ++ ['*'] <+: k ++ ('*' :: ')' :: ([] ++ rest)) := by simp
        apply List.prefix_of_prefix_length_le there here
        simp only [List.length_cons, List.length_append, List.length_nil] at longer ⊢
        omega
      exact star.subset (List.mem_append_right k (List.mem_singleton_self _))
    · obtain ⟨n, -, rfl⟩ := commentOfLine_iff.mp line
      cases (List.cons_prefix_cons.mp before).1
  | line s =>
    refine ⟨matched_commentRules.mpr (.inr (.inr (commentOfLine_iff.mpr ⟨_, ?_, rfl⟩))), ?_⟩
    · intro member
      have holds := List.mem_takeWhile_imp member
      exact absurd holds (by decide)
    intro v before matched
    rcases matched_commentRules.mp matched with braces | stars | line
    · obtain ⟨n, rfl⟩ := commentOfBraces_iff.mp braces
      cases (List.cons_prefix_cons.mp before).1
    · obtain ⟨n, -, rfl⟩ := commentOfStars_iff.mp stars
      cases (List.cons_prefix_cons.mp before).1
    · obtain ⟨n, plain, rfl⟩ := commentOfLine_iff.mp line
      simp only [List.cons_append, List.cons.injEq, true_and] at text
      simp only [List.cons_append, List.cons_prefix_cons, true_and, text] at before
      obtain ⟨t, rfl⟩ := before
      have inside : ∀ c ∈ n, (c != '\n') = true := by
        intro c member
        apply bne_iff_ne.mpr
        rintro rfl
        exact plain member
      rw [List.takeWhile_append_of_pos inside]
      simp

theorem drgl_next_token {s : List Char} {l : Lexeme Char Terminal}
    (plain : ∀ c, ¬ StartsComment s c) (next : (Scanner.ofRules tokenRules).next s = some l) :
    drglScanner.next s = some l := by
  obtain ⟨long, r, found, token⟩ := Scanner.next_ofRules.mp next
  have other : ∀ v, v <+: s → ¬ Matched commentRules v := by
    intro v before matched
    obtain ⟨c, starts⟩ := startsComment_of_matched before matched
    exact plain c starts
  apply Scanner.next_ofRules.mpr
  refine ⟨⟨long.ne_nil, long.initial, matched_lexerRules.mpr (.inr long.matched), ?_⟩, r, ?_, token⟩
  · intro v before matched
    rcases matched_lexerRules.mp matched with comment | plain
    · exact absurd comment (other v before)
    · exact long.longest v before plain
  · rw [ruleFor_token (other l.text long.initial)]
    exact found

theorem StartsComment.append {s c : List Char} (starts : StartsComment s c) (t : List Char) :
    ∃ c', StartsComment (s ++ t) c' := by
  cases starts with
  | @braces s m found =>
    have before : m <+: s ++ t := (through_spec found).1.trans (List.prefix_append s t)
    exact ⟨_, .braces (through_of_starts (List.cons_ne_nil _ _) found before)⟩
  | @stars s m found =>
    have before : m <+: s ++ t := (through_spec found).1.trans (List.prefix_append s t)
    exact ⟨_, .stars (through_of_starts (List.cons_ne_nil _ _) found before)⟩
  | line s => exact ⟨_, .line (s ++ t)⟩

theorem no_comment_of_token {l : Lexeme Char Terminal} {t : List Char}
    (plain : ∀ c, ¬ StartsComment (l.text ++ t) c) : commentAt l.text ≠ some l.text := by
  intro comment
  obtain ⟨c, starts⟩ := (commentAt_iff.mp comment).append t
  exact plain c starts

theorem StartsComment.shape {s c : List Char} (starts : StartsComment s c) :
    (∃ k, c = '{' :: (k ++ ['}'])) ∨ (∃ k, c = '(' :: '*' :: (k ++ ['*', ')'])) ∨
      ∃ k, c = '/' :: '/' :: k := by
  cases starts with
  | braces found =>
    obtain ⟨k, rfl⟩ := (through_spec found).2
    exact .inl ⟨k, rfl⟩
  | stars found =>
    obtain ⟨k, rfl⟩ := (through_spec found).2
    exact .inr (.inl ⟨k, rfl⟩)
  | line s => exact .inr (.inr ⟨_, rfl⟩)

theorem BracesComment.shape {c : List Char} (braces : BracesComment c) :
    ∃ k, c = '{' :: (k ++ ['}']) := by
  obtain ⟨comment, head⟩ := braces
  rcases (commentAt_iff.mp comment).shape with shape | ⟨k, rfl⟩ | ⟨k, rfl⟩
  · exact shape
  · cases head
  · cases head

theorem StarsComment.shape {c : List Char} (stars : StarsComment c) :
    ∃ k, c = '(' :: '*' :: (k ++ ['*', ')']) := by
  obtain ⟨comment, head⟩ := stars
  rcases (commentAt_iff.mp comment).shape with ⟨k, rfl⟩ | shape | ⟨k, rfl⟩
  · cases head
  · exact shape
  · cases head

theorem apart_of_longest {c t : List Char} (long : Longest lexerRules (c ++ t) c) : Delimited c t := by
  constructor
  · intro braces member
    obtain ⟨k, rfl⟩ := braces.shape
    obtain ⟨a, b, rfl⟩ := List.append_of_mem member
    -- the braces rule goes on to this brace
    have matched : commentOfBraces.accepts ('{' :: ((k ++ ['}'] ++ a) ++ ['}'])) = true :=
      commentOfBraces_iff.mpr ⟨_, rfl⟩
    have bound := long.longest ('{' :: ((k ++ ['}'] ++ a) ++ ['}'])) ⟨b, by simp⟩
      (matched_lexerRules.mpr (.inl (matched_commentRules.mpr (.inl matched))))
    simp only [List.length_cons, List.length_append, List.length_nil] at bound
    omega
  · intro stars
    obtain ⟨k, rfl⟩ := stars.shape
    rw [interior_eq]
    rcases matched_lexerRules.mp long.matched with comment | token
    · rcases matched_commentRules.mp comment with braces | stars | line
      · obtain ⟨n, same⟩ := commentOfBraces_iff.mp braces
        cases same
      · obtain ⟨n, plain, same⟩ := commentOfStars_iff.mp stars
        simp only [List.cons.injEq, true_and, List.append_left_inj] at same
        exact same ▸ plain
      · obtain ⟨n, -, same⟩ := commentOfLine_iff.mp line
        cases same
    · cases length_of_starts (by simp) token

theorem drgl_next_of_apart {l : Lexeme Char Terminal} {t : List Char}
    (next : documentedScanner.next (l.text ++ t) = some l) (apart : Delimited l.text t) :
    drglScanner.next (l.text ++ t) = some l := by
  rcases documented_next.mp next with ⟨c, starts, same⟩ | ⟨plain, token⟩
  · have text : l.text = c := congrArg Lexeme.text same
    rw [← text] at starts same
    rw [drgl_next_comment starts apart, ← same]
  · exact drgl_next_token plain token

theorem delimited_iff {l : Lexeme Char Terminal} {t : List Char}
    (next : documentedScanner.next (l.text ++ t) = some l) :
    Delimited l.text t ↔ ∃ l', drglScanner.next (l.text ++ t) = some l' ∧ l'.text = l.text := by
  constructor
  · exact fun apart => ⟨l, drgl_next_of_apart next apart, rfl⟩
  · rintro ⟨l', read, same⟩
    have long := (Scanner.next_ofRules.mp read).1
    rw [same] at long
    exact apart_of_longest long

/-! ## A space in place of a comment -/

theorem infix_of_infix_insert {closer u v : List Char} {c : Char} (other : c ∉ closer)
    (occurs : closer <:+: u ++ c :: v) : closer <:+: u ∨ closer <:+: v := by
  obtain ⟨a, b, same⟩ := occurs
  rw [List.append_assoc] at same
  rcases List.append_eq_append_iff.mp same with ⟨x, rfl, rest⟩ | ⟨x, rfl, rest⟩
  · rcases List.append_eq_append_iff.mp rest with ⟨y, rfl, -⟩ | ⟨y, rfl, tail⟩
    · exact .inl (List.infix_append' a closer y)
    · cases y with
      | nil =>
        rw [List.append_nil]
        exact .inl (List.suffix_append a x).isInfix
      | cons d y =>
        cases tail
        exact absurd (List.mem_append_right x List.mem_cons_self) other
  · cases x with
    | nil =>
      cases closer with
      | nil => exact .inl (List.nil_infix)
      | cons d closer =>
        cases rest
        exact absurd List.mem_cons_self other
    | cons d x =>
      cases rest
      exact .inr (List.infix_append' x closer b)

theorem infix_insert {closer u v : List Char} (c : List Char)
    (occurs : closer <:+: u ∨ closer <:+: v) : closer <:+: u ++ (c ++ v) := by
  rcases occurs with left | right
  · exact List.infix_append_of_infix_left left
  · exact List.infix_append_of_infix_right (List.infix_append_of_infix_right right)

theorem startsComment_of_replaced {w c t d : List Char} (some_ : w ≠ [])
    (starts : StartsComment (w ++ ' ' :: t) d) : ∃ d', StartsComment (w ++ (c ++ t)) d' := by
  obtain ⟨o, w, rfl⟩ := List.exists_cons_of_ne_nil some_
  generalize text : o :: w ++ ' ' :: t = s at starts
  cases starts with
  | braces found =>
    cases text
    have occurs := (through_spec found).2.isInfix.trans (through_spec found).1.isInfix
    obtain ⟨m, found'⟩ := exists_through (by simp)
      (infix_insert c (infix_of_infix_insert (by decide) occurs))
    exact ⟨_, .braces found'⟩
  | stars found =>
    cases w with
    | nil => cases text
    | cons p w =>
      cases text
      have occurs := (through_spec found).2.isInfix.trans (through_spec found).1.isInfix
      obtain ⟨m, found'⟩ := exists_through (by simp)
        (infix_insert c (infix_of_infix_insert (by decide) occurs))
      exact ⟨_, .stars found'⟩
  | line s =>
    cases w with
    | nil => cases text
    | cons p w =>
      cases text
      exact ⟨_, .line _⟩

theorem StartsComment.replaced {w c t d : List Char} (starts : StartsComment (c ++ t) c)
    (first : StartsComment (w ++ (c ++ t)) d) (within : d <+: w) :
    StartsComment (w ++ ' ' :: t) d := by
  obtain ⟨x, rfl⟩ := within
  generalize text : d ++ x ++ (c ++ t) = s at first
  cases first with
  | @braces s m found =>
    exact .braces (through_of_starts (by simp) found ⟨x ++ ' ' :: t, by simp⟩)
  | @stars s m found =>
    exact .stars (through_of_starts (by simp) found ⟨x ++ ' ' :: t, by simp⟩)
  | line s =>
    simp only [List.cons_append, List.cons.injEq, true_and, List.append_assoc] at text
    have inside : ∀ e ∈ s.takeWhile (· != '\n'), (e != '\n') = true := fun e =>
      List.mem_takeWhile_imp
    -- the line has ended before the replaced comment
    have ends : (x ++ (c ++ t)).takeWhile (· != '\n') = [] := by
      have whole := congrArg (List.takeWhile (· != '\n')) text
      rw [List.takeWhile_append_of_pos inside] at whole
      exact List.append_right_eq_self.mp whole
    have ends' : (x ++ ' ' :: t).takeWhile (· != '\n') = [] := by
      cases x with
      | nil =>
        rcases starts.shape with ⟨k, rfl⟩ | ⟨k, rfl⟩ | ⟨k, rfl⟩ <;> simp at ends
      | cons e x =>
        by_cases newline : e = '\n'
        · simp [newline]
        · simp [newline] at ends
    have again := StartsComment.line (s.takeWhile (· != '\n') ++ (x ++ ' ' :: t))
    rw [List.takeWhile_append_of_pos inside, ends', List.append_nil] at again
    simpa using again

theorem documented_next_replaced {w c t : List Char} {l : Lexeme Char Terminal}
    (starts : StartsComment (c ++ t) c) (within : l.text <+: w)
    (next : documentedScanner.next (w ++ (c ++ t)) = some l) :
    documentedScanner.next (w ++ ' ' :: t) = some l := by
  rcases documented_next.mp next with ⟨d, first, rfl⟩ | ⟨plain, token⟩
  · exact documented_next.mpr (.inl ⟨d, starts.replaced first within, rfl⟩)
  · obtain ⟨long, r, found, token⟩ := Scanner.next_ofRules.mp token
    have some_ : w ≠ [] := by
      rintro rfl
      exact long.ne_nil (List.prefix_nil.mp within)
    apply documented_next.mpr
    refine .inr ⟨?_, Scanner.next_ofRules.mpr ⟨⟨long.ne_nil, ?_, long.matched, ?_⟩, r, found, token⟩⟩
    · intro d starts
      obtain ⟨d', starts⟩ := @startsComment_of_replaced w c t d some_ starts
      exact plain d' starts
    · exact within.trans (List.prefix_append w _)
    · intro v before matched
      rcases Nat.lt_or_ge w.length v.length with across | inside
      · -- a token across the space would be one character
        have space : w ++ [' '] <+: v := by
          apply List.prefix_of_prefix_length_le (List.prefix_append_right_inj w |>.mpr _) before
          · rw [List.length_append]
            exact across
          · exact ⟨t, rfl⟩
        have one := length_of_space matched (space.subset (List.mem_append_right w (by simp)))
        have low := List.length_pos_iff.mpr some_
        omega
      · have inside' := List.prefix_of_prefix_length_le before (List.prefix_append w _) inside
        exact long.longest v (inside'.trans (List.prefix_append w _)) matched

/-! ## Whole texts -/

/-- The comments among the lexemes read stand apart from what follows them. -/
def CommentsApart (read unread : List (Lexeme Char Terminal)) : Prop :=
  ∀ xs b ys, read = xs ++ b :: ys → Delimited b.text (textOf (ys ++ unread))

theorem commentsApart_cons {b : Lexeme Char Terminal} {read unread : List (Lexeme Char Terminal)} :
    CommentsApart (b :: read) unread ↔
      Delimited b.text (textOf (read ++ unread)) ∧ CommentsApart read unread := by
  constructor
  · intro apart
    exact ⟨apart [] b read rfl, fun xs c ys cut => apart (b :: xs) c ys (congrArg (b :: ·) cut)⟩
  · rintro ⟨first, rest⟩ xs c ys cut
    cases xs with
    | nil =>
      obtain ⟨rfl, rfl⟩ := List.cons.inj cut
      exact first
    | cons x xs =>
      obtain ⟨-, cut⟩ := List.cons.inj cut
      exact rest xs c ys cut

variable {s : List Char} {read before after : List (Lexeme Char Terminal)}
  {comment : Lexeme Char Terminal}

theorem textOf_of_scan {unread : List (Lexeme Char Terminal)} (cut : documentedScanner.scan s = unread) :
    textOf unread = s := by
  rw [← cut]
  exact textOf_scan total_documentedScanner

theorem commentsApart_iff (cut : documentedScanner.scan s = read ++ after) :
    CommentsApart read after ↔
      read.map Lexeme.text <+: (drglScanner.scan s).map Lexeme.text := by
  induction read generalizing s with
  | nil =>
    constructor
    · exact fun _ => List.nil_prefix
    · intro _ xs b ys cut
      cases xs <;> cases cut
  | cons b read ih =>
    obtain ⟨next, t, rfl, rest⟩ := scan_eq_cons total_documentedScanner cut
    have rest : documentedScanner.scan t = read ++ after := rest
    have some_ : b.text ++ t ≠ [] := by
      have nonempty := documentedScanner.next_ne_nil _ b next
      simp [nonempty]
    obtain ⟨l, read'⟩ := total_drglScanner (b.text ++ t) some_
    rw [commentsApart_cons, textOf_of_scan rest, delimited_iff next, ih rest, scan_of_next read']
    simp only [read', Option.some.injEq, List.map_cons, List.cons_prefix_cons]
    constructor
    · rintro ⟨⟨l', rfl, same⟩, further⟩
      rw [same, List.drop_left]
      exact ⟨rfl, further⟩
    · rintro ⟨same, further⟩
      rw [← same, List.drop_left] at further
      exact ⟨⟨l, rfl, same.symm⟩, further⟩

theorem starts_of_scan (cut : documentedScanner.scan s = before ++ comment :: after)
    (isComment : commentAt comment.text = some comment.text) :
    StartsComment (comment.text ++ textOf after) comment.text ∧ comment.token = none := by
  induction before generalizing s with
  | nil =>
    obtain ⟨next, t, rfl, rest⟩ := scan_eq_cons total_documentedScanner cut
    rw [textOf_of_scan rest]
    rcases documented_next.mp next with ⟨c, starts, rfl⟩ | ⟨plain, -⟩
    · exact ⟨starts, rfl⟩
    · exact absurd isComment (no_comment_of_token plain)
  | cons b before ih =>
    obtain ⟨-, t, rfl, rest⟩ := scan_eq_cons total_documentedScanner cut
    exact ih rest

theorem drgl_next_space (t : List Char) : drglScanner.next (' ' :: t) = some ⟨[' '], none⟩ := by
  apply Scanner.next_ofRules.mpr
  refine ⟨⟨List.cons_ne_nil _ _, ⟨t, rfl⟩, matched_lexerRules.mpr (.inr (matched_one ' ')), ?_⟩, ?_⟩
  · intro v initial matched
    cases v with
    | nil => exact Nat.zero_le _
    | cons c v =>
      obtain ⟨rfl, -⟩ := List.cons_prefix_cons.mp initial
      rcases matched_lexerRules.mp matched with comment | token
      · obtain ⟨d, starts⟩ := startsComment_of_matched initial comment
        cases starts
      · exact (length_of_space token List.mem_cons_self).le
  · exact ⟨⟨whitespace.accepts, fun _ => none⟩, rfl, rfl⟩

theorem scan_replaced (cut : documentedScanner.scan s = before ++ comment :: after)
    (starts : StartsComment (comment.text ++ textOf after) comment.text)
    (apart : CommentsApart (before ++ [comment]) after) :
    drglScanner.scan (textOf before ++ ' ' :: textOf after) =
      before ++ ⟨[' '], none⟩ :: drglScanner.scan (textOf after) := by
  induction before generalizing s with
  | nil => exact scan_of_next (drgl_next_space (textOf after))
  | cons b before ih =>
    obtain ⟨next, t, rfl, rest⟩ := scan_eq_cons total_documentedScanner cut
    obtain ⟨first, others⟩ := commentsApart_cons.mp apart
    have text : t = textOf before ++ (comment.text ++ textOf after) := by
      rw [← textOf_of_scan rest]
      exact List.flatMap_append
    rw [text, ← List.append_assoc] at next
    have next' := documented_next_replaced starts (List.prefix_append _ _) next
    rw [List.append_assoc] at next'
    have apart' : Delimited b.text (textOf before ++ ' ' :: textOf after) := by
      refine ⟨fun braces member => first.braces braces ?_, first.stars⟩
      have same : textOf (before.append [comment] ++ after) =
          textOf before ++ (comment.text ++ textOf after) := by
        simp [textOf]
      rw [same]
      simp only [List.mem_append, List.mem_cons] at member ⊢
      rcases member with left | space | right
      · exact .inl left
      · cases space
      · exact .inr (.inr right)
    have read := scan_of_next (drgl_next_of_apart next' apart')
    rw [List.drop_left, ih rest others] at read
    have whole : textOf (b :: before) = b.text ++ textOf before := List.flatMap_cons
    rw [whole, List.append_assoc]
    exact read

-- In the text the lexer reads up to the comment as documented, and the rest on its own.
theorem scan_apart (cut : documentedScanner.scan s = read ++ after)
    (apart : CommentsApart read after) :
    drglScanner.scan s = read ++ drglScanner.scan (textOf after) := by
  induction read generalizing s with
  | nil =>
    have cut : documentedScanner.scan s = after := cut
    rw [textOf_of_scan cut]
    rfl
  | cons b read ih =>
    obtain ⟨next, t, rfl, rest⟩ := scan_eq_cons total_documentedScanner cut
    obtain ⟨first, others⟩ := commentsApart_cons.mp apart
    have rest : documentedScanner.scan t = read ++ after := rest
    rw [textOf_of_scan rest] at first
    rw [scan_of_next (drgl_next_of_apart next first), List.drop_left, ih rest others]
    rfl

/-- The comment is transparent: it and what comes before it are read as documented, and a space in
its place leaves the tokens as they are. -/
structure Transparent (s : List Char) (before : List (Lexeme Char Terminal))
    (comment : Lexeme Char Terminal) (after : List (Lexeme Char Terminal)) : Prop where
  read : (before ++ [comment]).map Lexeme.text <+: (drglScanner.scan s).map Lexeme.text
  unchanged : drglLex (textOf before ++ ' ' :: textOf after) = drglLex s

theorem transparent_of_apart (cut : documentedScanner.scan s = before ++ comment :: after)
    (isComment : commentAt comment.text = some comment.text)
    (apart : CommentsApart (before ++ [comment]) after) : Transparent s before comment after := by
  have cut' : documentedScanner.scan s = (before ++ [comment]) ++ after := by
    rw [cut, List.append_assoc]
    rfl
  obtain ⟨starts, nothing⟩ := starts_of_scan cut isComment
  refine ⟨(commentsApart_iff cut').mp apart, ?_⟩
  -- neither the space nor the comment is a token
  rw [drglLex, drglLex, tokens, tokens, scan_replaced cut starts apart, scan_apart cut' apart]
  simp [nothing]

/-- A comment is transparent exactly when it and those before it stand apart: no star is inside one
in stars, and no closing brace follows one in braces. -/
theorem transparent_iff (s : List Char) (before : List (Lexeme Char Terminal))
    (comment : Lexeme Char Terminal) (after : List (Lexeme Char Terminal))
    (cut : documentedScanner.scan s = before ++ comment :: after)
    (isComment : commentAt comment.text = some comment.text) :
    Transparent s before comment after ↔ CommentsApart (before ++ [comment]) after := by
  constructor
  · intro transparent
    apply (commentsApart_iff _).mpr transparent.read
    rw [cut, List.append_assoc]
    rfl
  · exact transparent_of_apart cut isComment

theorem comment_transparent : Transparent "x{a}y".toList [⟨['x'], some (.ID "x")⟩]
    ⟨"{a}".toList, none⟩ [⟨['y'], some (.ID "y")⟩] := by
  apply (transparent_iff _ _ _ _ (by decide +kernel) (by decide)).mpr
  apply commentsApart_cons.mpr
  refine ⟨⟨fun braces => ?_, fun stars => ?_⟩, ?_⟩
  · cases braces.2
  · cases stars.2
  apply commentsApart_cons.mpr
  refine ⟨⟨fun _ => by decide, fun stars => ?_⟩, ?_⟩
  · cases stars.2
  · intro xs b ys cut
    cases xs <;> cases cut

-- In {a} x {b} the name between the comments is dropped.
theorem not_forall_comment_unchanged : ¬ ∀ (s : List Char) (before : List (Lexeme Char Terminal))
    (comment : Lexeme Char Terminal) (after : List (Lexeme Char Terminal)),
    documentedScanner.scan s = before ++ comment :: after →
      commentAt comment.text = some comment.text →
        drglLex (textOf before ++ ' ' :: textOf after) = drglLex s := by
  intro all
  have dropped := all "{a} x {b}".toList
    [⟨"{a}".toList, none⟩, ⟨[' '], none⟩, ⟨['x'], some (.ID "x")⟩, ⟨[' '], none⟩]
    ⟨"{b}".toList, none⟩ [] (by decide +kernel) (by decide)
  have read : drglLex "{a} x {b}".toList = [] := by
    decide +kernel
  rw [read] at dropped
  revert dropped
  decide +kernel

end Dragon
