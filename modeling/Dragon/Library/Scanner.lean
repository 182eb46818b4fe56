import Mathlib.Data.List.Infix

/-! Scanners that cut a text into lexemes.

A scanner says what the next lexeme of a text is, a prefix that is not empty.
Scanning repeats this on what is left; a character with no lexeme is passed
over. The scanner of a list of rules takes the longest prefix that some rule
matches, and of the rules that match it the earliest.
-/

set_option autoImplicit false

namespace Lexical

variable {α τ : Type}

/-- What has been matched, and the token its action returns, if any. -/
@[ext] structure Lexeme (α τ : Type) where
  text : List α
  token : Option τ
  deriving DecidableEq, Repr

structure Scanner (α τ : Type) where
  next : List α → Option (Lexeme α τ)
  next_ne_nil : ∀ s l, next s = some l → l.text ≠ []
  next_starts : ∀ s l, next s = some l → l.text <+: s

namespace Scanner

variable (m : Scanner α τ)

def scanFor : Nat → List α → List (Lexeme α τ)
  | 0, _ => []
  | _ + 1, [] => []
  | n + 1, c :: s =>
    match m.next (c :: s) with
    | some l => l :: scanFor n ((c :: s).drop l.text.length)
    | none => scanFor n s

/-- Every lexeme takes a character, so the length of the text is enough. -/
def scan (s : List α) : List (Lexeme α τ) := m.scanFor s.length s

def tokens (s : List α) : List τ := (m.scan s).filterMap Lexeme.token

def Total : Prop := ∀ s, s ≠ [] → ∃ l, m.next s = some l

def textOf (ls : List (Lexeme α τ)) : List α := ls.flatMap Lexeme.text

variable {m}

theorem length_drop_lt {s : List α} {l : Lexeme α τ} (next : m.next s = some l) :
    (s.drop l.text.length).length < s.length := by
  have some_ := List.length_pos_iff.mpr (m.next_ne_nil s l next)
  have short := (m.next_starts s l next).length_le
  rw [List.length_drop]
  omega

theorem scanFor_enough {n n' : Nat} {s : List α} (enough : s.length ≤ n) (enough' : s.length ≤ n') :
    m.scanFor n s = m.scanFor n' s := by
  induction n generalizing n' s with
  | zero =>
    rw [List.length_eq_zero_iff.mp (Nat.le_zero.mp enough)]
    cases n' <;> rfl
  | succ n ih =>
    cases s with
    | nil => cases n' <;> rfl
    | cons c s =>
      cases n' with
      | zero => cases enough'
      | succ n' =>
        rw [List.length_cons] at enough enough'
        rw [scanFor, scanFor]
        cases next : m.next (c :: s) with
        | none => exact ih (by omega) (by omega)
        | some l =>
          have shorter := length_drop_lt next
          rw [List.length_cons] at shorter
          exact congrArg (l :: ·) (ih (by omega) (by omega))

@[simp] theorem scan_nil : m.scan [] = [] := rfl

theorem scan_of_next {s : List α} {l : Lexeme α τ} (next : m.next s = some l) :
    m.scan s = l :: m.scan (s.drop l.text.length) := by
  have shorter := length_drop_lt next
  cases s with
  | nil => cases shorter
  | cons c s =>
    have step : m.scan (c :: s) = l :: m.scanFor s.length ((c :: s).drop l.text.length) := by
      simp only [scan, List.length_cons, scanFor, next]
    rw [step]
    exact congrArg (l :: ·) (scanFor_enough (Nat.le_of_lt_succ shorter) (Nat.le_refl _))

theorem scan_eq_cons {s : List α} {l : Lexeme α τ} {ls : List (Lexeme α τ)} (total : m.Total)
    (cut : m.scan s = l :: ls) :
    m.next s = some l ∧ ∃ t, s = l.text ++ t ∧ m.scan t = ls := by
  cases s with
  | nil => cases cut
  | cons c s =>
    obtain ⟨l', next⟩ := total (c :: s) (List.cons_ne_nil c s)
    rw [scan_of_next next] at cut
    obtain ⟨rfl, rest⟩ := List.cons.inj cut
    obtain ⟨t, whole⟩ := m.next_starts _ _ next
    refine ⟨next, t, whole.symm, ?_⟩
    rw [← whole, List.drop_left] at rest
    exact rest

theorem next_of_mem_scan {s : List α} {l : Lexeme α τ} (total : m.Total) (member : l ∈ m.scan s) :
    ∃ t, m.next t = some l := by
  induction cut : m.scan s generalizing s with
  | nil =>
    rw [cut] at member
    cases member
  | cons l' ls ih =>
    obtain ⟨next, t, -, rest⟩ := scan_eq_cons total cut
    rw [cut] at member
    rcases List.mem_cons.mp member with rfl | later
    · exact ⟨s, next⟩
    · exact ih (rest ▸ later) rest

theorem textOf_scan {s : List α} (total : m.Total) : textOf (m.scan s) = s := by
  induction cut : m.scan s generalizing s with
  | nil =>
    cases s with
    | nil => rfl
    | cons c s =>
      obtain ⟨l, next⟩ := total (c :: s) (List.cons_ne_nil c s)
      rw [scan_of_next next] at cut
      cases cut
  | cons l ls ih =>
    obtain ⟨-, t, rfl, rest⟩ := scan_eq_cons total cut
    rw [textOf, List.flatMap_cons]
    exact congrArg (l.text ++ ·) (ih rest)

end Scanner

/-! ## Rules -/

structure Rule (α τ : Type) where
  accepts : List α → Bool
  /-- What the action returns; none when the scanner goes on. -/
  action : List α → Option τ

section

variable (rules : List (Rule α τ))

def ruleFor (w : List α) : Option (Rule α τ) := rules.find? (·.accepts w)

/-- The longest prefix of length n or less that is matched. -/
def munch (s : List α) : Nat → Option (Lexeme α τ)
  | 0 => none
  | n + 1 =>
    match ruleFor rules (s.take (n + 1)) with
    | some r => some ⟨s.take (n + 1), r.action (s.take (n + 1))⟩
    | none => munch s n

def Matched (w : List α) : Prop := ∃ r ∈ rules, r.accepts w = true

structure Longest (s w : List α) : Prop where
  ne_nil : w ≠ []
  initial : w <+: s
  matched : Matched rules w
  longest : ∀ v, v <+: s → Matched rules v → v.length ≤ w.length

variable {rules}

theorem matched_iff {w : List α} : Matched rules w ↔ ∃ r, ruleFor rules w = some r := by
  rw [← Option.isSome_iff_exists, ruleFor, List.find?_isSome]
  rfl

theorem Longest.unique {s v w : List α} (first : Longest rules s v) (second : Longest rules s w) :
    v = w := by
  have short := second.longest v first.initial first.matched
  have long := first.longest w second.initial second.matched
  have within := List.prefix_of_prefix_length_le first.initial second.initial short
  exact within.eq_of_length (Nat.le_antisymm short long)

theorem munch_eq_some {s : List α} {n : Nat} {l : Lexeme α τ} (bound : n ≤ s.length)
    (munched : munch rules s n = some l) :
    l.text ≠ [] ∧ l.text <+: s ∧ (∃ r, ruleFor rules l.text = some r ∧ l.token = r.action l.text) ∧
      ∀ v, v <+: s → v.length ≤ n → Matched rules v → v.length ≤ l.text.length := by
  induction n with
  | zero => cases munched
  | succ n ih =>
    rw [munch] at munched
    split at munched
    next r found =>
      cases munched
      have length : (s.take (n + 1)).length = n + 1 := List.length_take_of_le bound
      refine ⟨?_, List.take_prefix _ s, ⟨r, found, rfl⟩, ?_⟩
      · exact List.ne_nil_of_length_eq_add_one length
      · intro v _ short _
        rw [length]
        exact short
    next nothing =>
      obtain ⟨some_, initial, rule, longest⟩ := ih (Nat.le_of_succ_le bound) munched
      refine ⟨some_, initial, rule, ?_⟩
      intro v before short matched
      rcases Nat.lt_or_eq_of_le short with less | full
      · exact longest v before (Nat.le_of_lt_succ less) matched
      · -- of length n + 1 there is one prefix, and no rule is for it
        have same : v = s.take (n + 1) := by rw [← full, List.prefix_iff_eq_take.mp before]; simp
        obtain ⟨r, found⟩ := matched_iff.mp matched
        rw [same, nothing] at found
        cases found

theorem munch_of_matched {s v : List α} {n : Nat} (before : v <+: s) (some_ : v ≠ [])
    (short : v.length ≤ n) (matched : Matched rules v) : ∃ l, munch rules s n = some l := by
  induction n with
  | zero => exact absurd (List.length_eq_zero_iff.mp (Nat.le_zero.mp short)) some_
  | succ n ih =>
    rw [munch]
    split
    next r found => exact ⟨_, rfl⟩
    next nothing =>
      rcases Nat.lt_or_eq_of_le short with less | full
      · exact ih (Nat.le_of_lt_succ less)
      · have same : v = s.take (n + 1) := by rw [← full, List.prefix_iff_eq_take.mp before]; simp
        obtain ⟨r, found⟩ := matched_iff.mp matched
        rw [same, nothing] at found
        cases found

end

/-- The scanner that flex makes of a list of rules. -/
def Scanner.ofRules (rules : List (Rule α τ)) : Scanner α τ where
  next s := munch rules s s.length
  next_ne_nil _ _ munched := (munch_eq_some (Nat.le_refl _) munched).1
  next_starts _ _ munched := (munch_eq_some (Nat.le_refl _) munched).2.1

namespace Scanner

variable {rules : List (Rule α τ)}

theorem next_ofRules {s : List α} {l : Lexeme α τ} :
    (ofRules rules).next s = some l ↔
      Longest rules s l.text ∧ ∃ r, ruleFor rules l.text = some r ∧ l.token = r.action l.text := by
  constructor
  · intro munched
    obtain ⟨some_, initial, rule, longest⟩ := munch_eq_some (Nat.le_refl _) munched
    have rule' := rule
    obtain ⟨r, found, -⟩ := rule'
    refine ⟨⟨some_, initial, matched_iff.mpr ⟨r, found⟩, ?_⟩, rule⟩
    exact fun v before => longest v before before.length_le
  · rintro ⟨long, r, found, token⟩
    obtain ⟨l', munched⟩ := munch_of_matched long.initial long.ne_nil long.initial.length_le long.matched
    obtain ⟨some_, initial, ⟨r', found', token'⟩, longest⟩ := munch_eq_some (Nat.le_refl _) munched
    have other : Longest rules s l'.text :=
      ⟨some_, initial, matched_iff.mpr ⟨r', found'⟩, fun v before => longest v before before.length_le⟩
    have text : l'.text = l.text := other.unique long
    rw [text, found] at found'
    cases found'
    have same : l' = l := Lexeme.ext text (by rw [token', text, token])
    rw [← same]
    exact munched

theorem total_ofRules (each : ∀ c, Matched rules [c]) : (ofRules rules).Total := by
  intro s some_
  obtain ⟨c, rest, rfl⟩ := List.exists_cons_of_ne_nil some_
  apply munch_of_matched (v := [c])
  · exact ⟨rest, rfl⟩
  · exact List.cons_ne_nil c []
  · simp
  · exact each c

end Scanner

end Lexical
