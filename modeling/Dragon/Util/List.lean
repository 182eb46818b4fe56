import Dragon.Library.LinkedList

/-! The list of util.c over whole runs of list_add and list_pop.

list_pop steps back to the node before the last one and clears its forward
pointer. The embedded node has none before it, so the pop that would empty a list
writes through a null pointer.
-/

set_option autoImplicit false

namespace Dragon

open EmbeddedList

/-- A call on what grows and shrinks at one end. -/
inductive EndCall (α : Type) where
  | add (item : α)
  | pop

def popsPresent {α : Type} : Nat → List (EndCall α) → Bool
  | _, [] => true
  | count, .add _ :: calls => popsPresent (count + 1) calls
  | count, .pop :: calls => count != 0 && popsPresent (count - 1) calls

abbrev ListCall (α : Type) := EndCall (Option α × Addr)

variable {α : Type}

def lforeach (l : ListMem α) : Option (List (Option α)) := forEach l.heap l.length (some l.inner)

def lforeachrev (l : ListMem α) : Option (List α) := forRevElts l.heap (l.length + 1) l.last

structure IsSequence (l : ListMem α) (elts : List (Option α)) : Prop where
  length : l.length = elts.length
  last : listLast l = some elts.head?.join
  forward : lforeach l = some elts.reverse
  backward : lforeachrev l = some (elts.filterMap id)
  inverse : ∀ a b, (∃ n, l.heap a = some n ∧ n.next = some b) ↔
    ∃ n, l.heap b = some n ∧ n.prev = some a

/-- Every addition to a list that is not empty finds an address that is not in use. -/
def allocated : ListMem α → List (ListCall α) → Bool
  | _, [] => true
  | l, .add (elt, new) :: calls =>
      (l.length == 0 || (l.heap new).isNone) && (listAddElt l new elt).all (allocated · calls)
  | l, .pop :: calls => (listPop l).all fun popped => allocated popped.2 calls

def neverEmptied : Nat → List (ListCall α) → Bool
  | _, [] => true
  | count, .add _ :: calls => neverEmptied (count + 1) calls
  | count, .pop :: calls => count != 1 && neverEmptied (count - 1) calls

/-- The list is these elements before and after every call, and a pop answers the newest of them. -/
def RunsAsSequence : ListMem α → List (Option α) → List (ListCall α) → Prop
  | l, elts, [] => IsSequence l elts
  | l, elts, .add (elt, new) :: calls => IsSequence l elts ∧
      ∃ l', listAddElt l new elt = some l' ∧ RunsAsSequence l' (elt :: elts) calls
  | l, elts, .pop :: calls => IsSequence l elts ∧
      ∃ elt rest l', elts = elt :: rest ∧ listPop l = some (elt, l') ∧ RunsAsSequence l' rest calls

structure Owned (l : ListMem α) (nodes : List (Addr × Option α)) : Prop extends Consists l nodes where
  only : ∀ x, l.heap x ≠ none → x = l.inner ∨ x ∈ nodes.map Prod.fst

theorem owned_listEmpty (inner : Addr) : Owned (listEmpty inner : ListMem α) [] := by
  refine ⟨consists_listEmpty inner, ?_⟩
  intro x alive
  by_cases here : x = inner
  · exact .inl here
  · simp [listEmpty, setNode_of_ne _ _ here] at alive

section Steps

variable {l : ListMem α} {nodes : List (Addr × Option α)} {a : Addr} {e : Option α}

theorem Owned.isSequence (owned : Owned l nodes) : IsSequence l (nodes.map Prod.snd) where
  length := by simpa using owned.length
  last := by
    rw [owned.listLast]
    cases nodes <;> rfl
  forward := owned.forEach
  backward := by
    rw [List.filterMap_map]
    exact owned.forRevElts
  inverse := owned.inverse owned.only

theorem Owned.listAdd (owned : Owned l nodes) (new : Addr) (elt : Option α)
    (unused : nodes ≠ [] → l.heap new = none) :
    ∃ l' a, listAddElt l new elt = some l' ∧ Owned l' ((a, elt) :: nodes) := by
  obtain ⟨l', a, added, is, inner, kept⟩ := owned.listAddElt new elt unused
  refine ⟨l', a, added, is, ?_⟩
  intro x alive
  rw [inner, List.map_cons, List.mem_cons]
  by_cases here : x = a
  · exact .inr (.inl here)
  · exact (owned.only x (kept x here alive)).imp_right .inr

theorem Owned.listPop {node : Addr × Option α} (owned : Owned l ((a, e) :: node :: nodes)) :
    ∃ l', listPop l = some (e, l') ∧ Owned l' (node :: nodes) := by
  obtain ⟨l', popped, is, inner, kept⟩ := owned.toConsists.listPop
  refine ⟨l', popped, is, ?_⟩
  intro x alive
  obtain ⟨apart, before⟩ := kept x alive
  rw [inner]
  refine (owned.only x before).imp_right fun member => ?_
  exact (List.mem_cons.mp member).resolve_left apart

-- A run goes wrong at the pop that would empty the list, and nowhere else.
theorem runsAsSequence_iff {calls : List (ListCall α)} (owned : Owned l nodes)
    (present : popsPresent nodes.length calls) (fresh : allocated l calls) :
    RunsAsSequence l (nodes.map Prod.snd) calls ↔ neverEmptied nodes.length calls := by
  induction calls generalizing l nodes with
  | nil => simpa [RunsAsSequence, neverEmptied] using owned.isSequence
  | cons call calls ih =>
    cases call with
    | add item =>
      obtain ⟨elt, new⟩ := item
      simp only [allocated, Bool.and_eq_true, Bool.or_eq_true, beq_iff_eq, Option.isNone_iff_eq_none]
        at fresh
      have unused : nodes ≠ [] → l.heap new = none := by
        intro nonempty
        refine fresh.1.resolve_left fun zero => nonempty ?_
        exact List.length_eq_zero_iff.mp (owned.length.symm.trans zero)
      obtain ⟨l', a, added, owned'⟩ := owned.listAdd new elt unused
      have later := ih owned' present (by simpa [added] using fresh.2)
      constructor
      · rintro ⟨-, l'', added', runs⟩
        obtain rfl : l' = l'' := Option.some.inj (added.symm.trans added')
        exact later.mp runs
      · intro kept
        exact ⟨owned.isSequence, l', added, later.mpr kept⟩
    | pop =>
      cases nodes with
      | nil => simp [popsPresent] at present
      | cons node nodes =>
        obtain ⟨a, e⟩ := node
        cases nodes with
        -- the node that is left is the embedded one, with none before it
        | nil =>
          constructor
          · rintro ⟨-, elt, rest, l', -, popped, -⟩
            rw [owned.listPop_single] at popped
            cases popped
          · intro kept
            simp [neverEmptied] at kept
        | cons node nodes =>
          obtain ⟨l', popped, owned'⟩ := owned.listPop
          have later := ih owned' (by simpa [popsPresent] using present)
            (by simpa [allocated, popped] using fresh)
          constructor
          · rintro ⟨-, elt, rest, l'', same, popped', runs⟩
            cases same
            obtain ⟨-, rfl⟩ := Prod.mk.inj (Option.some.inj (popped.symm.trans popped'))
            simpa [neverEmptied] using later.mp runs
          · intro kept
            exact ⟨owned.isSequence, e, _, l', rfl, popped,
              later.mpr (by simpa [neverEmptied] using kept)⟩

end Steps

/-- Over every run of additions and pops on a list from list_empty, the list is the sequence of the
elements present just when no pop finds exactly one of them. -/
theorem list_sequence_iff (inner : Addr) (calls : List (ListCall α)) (present : popsPresent 0 calls)
    (fresh : allocated (listEmpty inner) calls) :
    RunsAsSequence (listEmpty inner) [] calls ↔ neverEmptied 0 calls :=
  runsAsSequence_iff (owned_listEmpty inner) present fresh

theorem addTwicePopAdd_sequence : RunsAsSequence (listEmpty 0) []
    [.add (some 5, 1), .add (none, 2), .pop, .add (some 6, 2)] :=
  (list_sequence_iff 0 _ (by decide) (by decide)).mpr (by decide)

-- The only element is never given back.
theorem not_forall_list_sequence : ¬ ∀ (inner : Addr) (calls : List (ListCall Nat)),
    popsPresent 0 calls → allocated (listEmpty inner) calls →
      RunsAsSequence (listEmpty inner) [] calls := by
  intro every
  obtain ⟨-, l, added, -, elt, rest, l', -, popped, -⟩ :=
    every 0 [.add (some 5, 1), .pop] (by decide) (by decide)
  cases added
  cases popped

end Dragon
