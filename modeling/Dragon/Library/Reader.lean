import Mathlib.Data.List.Basic

/-! Readers that go by the next token.

A reader takes a value from the front of some tokens. It is exact for a language
when it takes the texts of the language and no others, as long as what comes
after them may. The lists of a left-recursive production are read by a loop.
-/

set_option autoImplicit false

namespace Readers

variable {τ α β : Type}

/-- A value and the tokens after it, if the tokens start with one. -/
abbrev Reader (τ : Type) := StateT (List τ) Option

/-- The texts of a symbol, each with its value. -/
abbrev Language (τ α : Type) := List τ → α → Prop

/-- The next token, if the function has a value for it. -/
def one (f : τ → Option α) : Reader τ α
  | [] => none
  | t :: s => (f t).map (·, s)

def token [DecidableEq τ] (t : τ) : Reader τ Unit := one fun u => if u = t then some () else none

/-- The next token, if there is one, is of no such kind. -/
def clear (kind : τ → Bool) (s : List τ) : Bool := s.head?.all (!kind ·)

/-- As long as the next token is of a kind. The number bounds the turns of the loop. -/
def many (starts : τ → Bool) (item : Reader τ α) : Nat → Reader τ (List α)
  | 0, _ => none
  | n + 1, s =>
    if clear starts s then some ([], s)
    else (do let x ← item; let xs ← many starts item n; return x :: xs : Reader τ (List α)) s

/-- At least one, with a token between each two. -/
def separated [DecidableEq τ] (sep : τ) (item : Reader τ α) (n : Nat) : Reader τ (List α) := do
  let x ← item
  let xs ← many (decide <| · = sep) (do token sep; item) n
  return x :: xs

/-! ## Steps of a reader -/

theorem bind_eq_some {x : Reader τ α} {f : α → Reader τ β} {s r : List τ} {b : β} :
    (x >>= f) s = some (b, r) ↔ ∃ a s', x s = some (a, s') ∧ f a s' = some (b, r) := by
  constructor
  · intro whole
    obtain ⟨⟨a, s'⟩, first, second⟩ := Option.bind_eq_some_iff.mp whole
    exact ⟨a, s', first, second⟩
  · rintro ⟨a, s', first, second⟩
    exact Option.bind_eq_some_iff.mpr ⟨(a, s'), first, second⟩

theorem bind_of_some {x : Reader τ α} {f : α → Reader τ β} {s s' : List τ} {a : α}
    (first : x s = some (a, s')) : (x >>= f) s = f a s' := by
  change (x s).bind (fun p => f p.1 p.2) = f a s'
  rw [first, Option.bind_some]

theorem pure_eq_some {s r : List τ} {a b : α} :
    (pure a : Reader τ α) s = some (b, r) ↔ a = b ∧ s = r := by
  change some (a, s) = some (b, r) ↔ _
  simp only [Option.some.injEq, Prod.mk.injEq]

theorem one_eq_some {f : τ → Option α} {s r : List τ} {a : α} :
    one f s = some (a, r) ↔ ∃ t, s = t :: r ∧ f t = some a := by
  cases s with
  | nil => simp [one]
  | cons t s =>
    simp only [one, Option.map_eq_some_iff, Prod.mk.injEq, List.cons.injEq]
    constructor
    · rintro ⟨b, value, rfl, rfl⟩
      exact ⟨t, ⟨rfl, rfl⟩, value⟩
    · rintro ⟨u, ⟨rfl, rfl⟩, value⟩
      exact ⟨a, value, rfl, rfl⟩

theorem token_eq_some [DecidableEq τ] {t : τ} {s r : List τ} {u : Unit} :
    token t s = some (u, r) ↔ s = t :: r := by
  rw [token, one_eq_some]
  constructor
  · rintro ⟨v, rfl, same⟩
    split at same
    · next here => rw [here]
    · cases same
  · intro here
    exact ⟨t, here, if_pos rfl⟩

@[simp] theorem token_cons [DecidableEq τ] (t : τ) (s : List τ) : token t (t :: s) = some ((), s) :=
  token_eq_some.mpr rfl

theorem clear_cons {kind : τ → Bool} {t : τ} {s : List τ} : clear kind (t :: s) = !kind t := rfl

/-! ## Exact readers -/

/-- The reader takes the texts of a language, up to a length, before the rests that may follow
them, and it takes nothing else. -/
structure Exact (n : Nat) (read : Reader τ α) (L : Language τ α) (follow : List τ → Prop) :
    Prop where
  sound : ∀ {s r : List τ} {v : α}, read s = some (v, r) → ∃ ts, s = ts ++ r ∧ L ts v
  complete : ∀ {ts r : List τ} {v : α}, L ts v → ts.length < n → follow r → read (ts ++ r) = some (v, r)

def Anything (_ : List τ) : Prop := True

section

variable {n : Nat} {read : Reader τ α} {L : Language τ α} {follow follow' : List τ → Prop}

theorem Exact.mono (exact : Exact n read L follow) (weaker : ∀ r, follow' r → follow r) :
    Exact n read L follow' :=
  ⟨exact.sound, fun inside short may => exact.complete inside short (weaker _ may)⟩

theorem Exact.congr {L' : Language τ α} (exact : Exact n read L follow)
    (same : ∀ ts v, L ts v ↔ L' ts v) : Exact n read L' follow where
  sound taken := by
    obtain ⟨ts, rfl, inside⟩ := exact.sound taken
    exact ⟨ts, rfl, (same ts _).mp inside⟩
  complete inside short may := exact.complete ((same _ _).mpr inside) short may

theorem exact_one {f : τ → Option α} :
    Exact n (one f) (fun ts v => ∃ t, ts = [t] ∧ f t = some v) Anything where
  sound taken := by
    obtain ⟨t, rfl, value⟩ := one_eq_some.mp taken
    exact ⟨[t], rfl, t, rfl, value⟩
  complete := by
    rintro ts r v ⟨t, rfl, value⟩ - -
    exact one_eq_some.mpr ⟨t, rfl, value⟩

/-! ## Lists -/

/-- The texts of a left-recursive list that may be empty. -/
inductive Many (L : Language τ α) : Language τ (List α)
  | none : Many L [] []
  | more {ts us : List τ} {xs : List α} {x : α} (others : Many L ts xs) (last : L us x) :
      Many L (ts ++ us) (xs ++ [x])

/-- The texts of a left-recursive list with a token between each two. -/
inductive SeparatedBy (sep : τ) (L : Language τ α) : Language τ (List α)
  | one {ts : List τ} {x : α} (only : L ts x) : SeparatedBy sep L ts [x]
  | more {ts us : List τ} {xs : List α} {x : α} (others : SeparatedBy sep L ts xs) (last : L us x) :
      SeparatedBy sep L (ts ++ sep :: us) (xs ++ [x])

theorem Many.cons {ts us : List τ} {xs : List α} {x : α} (first : L ts x) (others : Many L us xs) :
    Many L (ts ++ us) (x :: xs) := by
  induction others with
  | none =>
    have single := Many.more .none first
    rw [List.nil_append] at single
    rwa [List.append_nil]
  | more _ last ih =>
    rw [← List.append_assoc]
    exact .more ih last

theorem Many.uncons {ts : List τ} {xs : List α} (list : Many L ts xs) : (ts = [] ∧ xs = []) ∨
    ∃ us vs x ys, ts = us ++ vs ∧ xs = x :: ys ∧ L us x ∧ Many L vs ys := by
  induction list with
  | none => exact .inl ⟨rfl, rfl⟩
  | @more ts us xs x others last ih =>
    right
    rcases ih with ⟨rfl, rfl⟩ | ⟨us', vs, y, ys, rfl, rfl, first, rest⟩
    · exact ⟨us, [], x, [], by simp, rfl, last, .none⟩
    · exact ⟨us', vs ++ us, y, ys ++ [x], List.append_assoc .., rfl, first, .more rest last⟩

theorem Many.frontInduction {motive : (ts : List τ) → (xs : List α) → Many L ts xs → Prop}
    (none : motive [] [] .none)
    (cons : ∀ ts us x xs (first : L ts x) (others : Many L us xs), motive us xs others →
      motive (ts ++ us) (x :: xs) (.cons first others))
    {ts : List τ} {xs : List α} (list : Many L ts xs) : motive ts xs list := by
  induction xs generalizing ts with
  | nil =>
    rcases list.uncons with ⟨rfl, -⟩ | ⟨_, _, _, _, -, same, -⟩
    · exact none
    · cases same
  | cons x xs ih =>
    rcases list.uncons with ⟨-, same⟩ | ⟨us, vs, y, ys, rfl, same, first, others⟩
    · cases same
    · cases same
      exact cons us vs x xs first others (ih others)

theorem Many.all {p : α → Bool} {ts : List τ} {xs : List α} (list : Many L ts xs)
    (each : ∀ us x, L us x → p x = true) : xs.all p = true := by
  induction list with
  | none => rfl
  | more _ last ih => simp [ih, each _ _ last]

theorem Many.all_tokens {p : τ → Bool} {ts : List τ} {xs : List α} (list : Many L ts xs)
    (each : ∀ us x, L us x → us.all p = true) : ts.all p = true := by
  induction list with
  | none => rfl
  | more _ last ih => simp [ih, each _ _ last]

theorem Many.clear {kind : τ → Bool} {ts r : List τ} {xs : List α} (list : Many L ts xs)
    (begins : ∀ us x, L us x → ∃ t vs, us = t :: vs ∧ kind t = false)
    (ends : Readers.clear kind r = true) : Readers.clear kind (ts ++ r) = true := by
  -- a list whose members start with other tokens leaves a rest clear
  rcases list.uncons with ⟨rfl, -⟩ | ⟨us, vs, x, ys, rfl, -, first, -⟩
  · exact ends
  · obtain ⟨t, us', rfl, other⟩ := begins us x first
    rw [List.cons_append, List.cons_append, clear_cons, other]
    rfl

theorem separated_iff {sep : τ} {ts : List τ} {xs : List α} : SeparatedBy sep L ts xs ↔
    ∃ us vs x ys, ts = us ++ vs ∧ xs = x :: ys ∧ L us x ∧
      Many (fun ts x => ∃ us, ts = sep :: us ∧ L us x) vs ys := by
  constructor
  · intro list
    induction list with
    | @one ts x only => exact ⟨ts, [], x, [], by simp, rfl, only, .none⟩
    | @more ts us xs x others last ih =>
      obtain ⟨us', vs, y, ys, rfl, rfl, first, rest⟩ := ih
      exact ⟨us', vs ++ sep :: us, y, ys ++ [x], List.append_assoc .., rfl, first,
        .more rest ⟨us, rfl, last⟩⟩
  · rintro ⟨us, vs, x, ys, rfl, rfl, first, rest⟩
    induction rest with
    | none =>
      rw [List.append_nil]
      exact .one first
    | more _ last ih =>
      obtain ⟨ws, rfl, inside⟩ := last
      rw [← List.append_assoc, ← List.cons_append]
      exact .more ih inside

theorem SeparatedBy.all_tokens {sep : τ} {p : τ → Bool} {ts : List τ} {xs : List α}
    (list : SeparatedBy sep L ts xs) (between : p sep = true)
    (each : ∀ us x, L us x → us.all p = true) : ts.all p = true := by
  induction list with
  | one only => exact each _ _ only
  | more _ last ih => simp [ih, between, each _ _ last]

-- The loop is exact when the next token tells whether another one comes.
theorem Exact.many (starts : τ → Bool) (exact : Exact n read L follow)
    (begins : ∀ ts x, L ts x → ∃ t us, ts = t :: us ∧ starts t = true)
    (next : ∀ r, (∃ t ∈ r.head?, starts t = true) → follow r) :
    Exact n (Readers.many starts read n) (Many L) fun r => clear starts r = true ∧ follow r where
  sound := by
    have every : ∀ k s xs r, Readers.many starts read k s = some (xs, r) →
        ∃ ts, s = ts ++ r ∧ Many L ts xs := by
      intro k
      induction k with
      | zero =>
        intro s xs r taken
        cases taken
      | succ k ih =>
        intro s xs r taken
        rw [Readers.many] at taken
        split at taken
        · cases taken
          exact ⟨[], rfl, .none⟩
        · obtain ⟨x, s', first, rest⟩ := bind_eq_some.mp taken
          obtain ⟨ys, s'', others, finish⟩ := bind_eq_some.mp rest
          obtain ⟨rfl, rfl⟩ := pure_eq_some.mp finish
          obtain ⟨ts, rfl, inside⟩ := exact.sound first
          obtain ⟨us, rfl, list⟩ := ih s' ys _ others
          exact ⟨ts ++ us, (List.append_assoc ..).symm, .cons inside list⟩
    intro s r v taken
    exact every n s v r taken
  complete := by
    have every : ∀ k ts xs r, Many L ts xs → ts.length < k → ts.length < n →
        clear starts r = true → follow r → Readers.many starts read k (ts ++ r) = some (xs, r) := by
      intro k
      induction k with
      | zero =>
        intro ts xs r _ short
        exact absurd short (Nat.not_lt_zero _)
      | succ k ih =>
        intro ts xs r list short bound ends may
        rcases list.uncons with ⟨rfl, rfl⟩ | ⟨us, vs, x, ys, rfl, rfl, first, others⟩
        · rw [List.nil_append, Readers.many, if_pos ends]
        · obtain ⟨t, us', rfl, start⟩ := begins us x first
          have goes : ¬ clear starts (t :: us' ++ vs ++ r) = true := by
            rw [List.cons_append, List.cons_append, clear_cons, start]
            decide
          simp only [List.length_append, List.length_cons] at short bound
          have after : follow (vs ++ r) := by
            rcases others.uncons with ⟨rfl, -⟩ | ⟨ws, zs, y, _, rfl, -, second, -⟩
            · exact may
            · obtain ⟨u, ws', rfl, start'⟩ := begins ws y second
              exact next _ ⟨u, rfl, start'⟩
          have head := exact.complete first (r := vs ++ r) (by rw [List.length_cons]; omega) after
          have tail := ih vs ys r others (by omega) (by omega) ends may
          rw [Readers.many, if_neg goes, List.append_assoc, bind_of_some head, bind_of_some tail]
          rfl
    intro ts r v list short ends
    exact every n ts v r list short short ends.1 ends.2

end

section

variable [DecidableEq τ] {n : Nat} {read : Reader τ α} {L : Language τ α}
  {follow : List τ → Prop}

theorem Exact.after (t : τ) (exact : Exact n read L follow) :
    Exact n (do token t; read) (fun ts x => ∃ us, ts = t :: us ∧ L us x) follow where
  sound taken := by
    obtain ⟨_, s', first, second⟩ := bind_eq_some.mp taken
    obtain ⟨us, rfl, inside⟩ := exact.sound second
    exact ⟨t :: us, token_eq_some.mp first, us, rfl, inside⟩
  complete := by
    rintro ts r v ⟨us, rfl, inside⟩ short may
    rw [List.cons_append, bind_of_some (token_cons t (us ++ r))]
    exact exact.complete inside (Nat.lt_of_succ_lt short) may

theorem Exact.separated (sep : τ) (exact : Exact n read L follow)
    (next : ∀ r, sep ∈ r.head? → follow r) :
    Exact n (Readers.separated sep read n) (SeparatedBy sep L)
      fun r => clear (decide <| · = sep) r = true ∧ follow r := by
  have loop := (exact.after sep).many (decide <| · = sep)
    (by rintro ts x ⟨us, rfl, -⟩; exact ⟨sep, us, rfl, decide_eq_true rfl⟩)
    (by
      rintro r ⟨t, here, same⟩
      obtain rfl := of_decide_eq_true same
      exact next r here)
  constructor
  · intro s r v taken
    obtain ⟨x, s', first, rest⟩ := bind_eq_some.mp taken
    obtain ⟨xs, s'', others, finish⟩ := bind_eq_some.mp rest
    obtain ⟨rfl, rfl⟩ := pure_eq_some.mp finish
    obtain ⟨us, rfl, inside⟩ := exact.sound first
    obtain ⟨vs, rfl, list⟩ := loop.sound others
    exact ⟨us ++ vs, (List.append_assoc ..).symm,
      separated_iff.mpr ⟨us, vs, x, xs, rfl, rfl, inside, list⟩⟩
  · intro ts r v list short ends
    obtain ⟨us, vs, x, xs, rfl, rfl, inside, others⟩ := separated_iff.mp list
    rw [List.length_append] at short
    have after : follow (vs ++ r) := by
      rcases others.uncons with ⟨rfl, -⟩ | ⟨ws, zs, y, _, rfl, -, ⟨ws', rfl, -⟩, -⟩
      · exact ends.2
      · exact next _ rfl
    rw [Readers.separated, List.append_assoc,
      bind_of_some (exact.complete inside (by omega) after),
      bind_of_some (loop.complete others (by omega) ends)]
    rfl

end

end Readers
