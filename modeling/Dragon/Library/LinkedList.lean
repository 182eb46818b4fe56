import Mathlib.Data.List.Basic

/-! A doubly linked list whose first node is embedded in the list header.

Nodes live in a heap of addresses. An address the allocator returns is one that
is not in use, and may be one that was freed before. Operations are undefined
where they follow a null or dangling pointer. The representation predicate lists
the nodes from the last one back to the embedded one, the way pops and reverse
iteration meet them.
-/

set_option autoImplicit false

namespace EmbeddedList

abbrev Addr := Nat

structure Node (α : Type) where
  elt : Option α
  prev : Option Addr
  next : Option Addr

/-- The list header together with the heap its nodes are in. -/
structure ListMem (α : Type) where
  heap : Addr → Option (Node α)
  inner : Addr
  last : Option Addr
  length : Nat

variable {α β : Type}

def setNode (heap : Addr → Option (Node α)) (a : Addr) (n : Option (Node α)) :
    Addr → Option (Node α) := fun x => if x = a then n else heap x

@[simp] theorem setNode_self (heap : Addr → Option (Node α)) (a : Addr) (n : Option (Node α)) :
    setNode heap a n a = n := by simp [setNode]

theorem setNode_of_ne (heap : Addr → Option (Node α)) {a x : Addr} (n : Option (Node α))
    (ne : x ≠ a) : setNode heap a n x = heap x := by simp [setNode, ne]

/-- An empty list with its header at the given address. -/
def listEmpty (inner : Addr) : ListMem α :=
  ⟨setNode (fun _ => none) inner (some ⟨none, none, none⟩), inner, some inner, 0⟩

/-- Link two nodes, with the assertions that neither is linked on that side. -/
def listAppend (heap : Addr → Option (Node α)) (a b : Addr) : Option (Addr → Option (Node α)) := do
  let na ← heap a
  if na.next ≠ none then none
  else do
    let heap := setNode heap a (some { na with next := some b })
    let nb ← heap b
    if nb.prev ≠ none then none
    else some (setNode heap b (some { nb with prev := some a }))

/-- Add an element at the end; a new node is allocated at the given address unless the list is
empty. -/
def listAdd (l : ListMem α) (new : Addr) (elt : α) : Option (ListMem α) :=
  if l.length = 0 then do
    let n ← l.heap l.inner
    some { l with
      heap := setNode l.heap l.inner (some { n with elt := some elt })
      length := l.length + 1 }
  else if (l.heap new).isSome then none
  else do
    let last ← l.last
    let heap ← listAppend (setNode l.heap new (some ⟨some elt, none, none⟩)) last new
    some { l with heap := heap, last := some new, length := l.length + 1 }

def listAddElt (l : ListMem α) (new : Addr) (elt : Option α) : Option (ListMem α) :=
  if l.length = 0 then do
    let n ← l.heap l.inner
    some { l with
      heap := setNode l.heap l.inner (some { n with elt := elt })
      length := l.length + 1 }
  else if (l.heap new).isSome then none
  else do
    let last ← l.last
    let heap ← listAppend (setNode l.heap new (some ⟨elt, none, none⟩)) last new
    some { l with heap := heap, last := some new, length := l.length + 1 }

theorem listAdd_eq (l : ListMem α) (new : Addr) (elt : α) :
    listAdd l new elt = listAddElt l new (some elt) := rfl

/-- Remove the last node and free it. The node before it is written through, so the embedded
node cannot be removed. -/
def listPop (l : ListMem α) : Option (Option α × ListMem α) :=
  match l.last with
  | none => some (none, l)
  | some last => do
      let n ← l.heap last
      let prev ← n.prev
      let p ← l.heap prev
      let heap := setNode l.heap prev (some { p with next := none })
      some (n.elt, { l with heap := setNode heap last none, last := some prev, length := l.length - 1 })

def listLast (l : ListMem α) : Option (Option α) :=
  match l.last with
  | none => some none
  | some last => (l.heap last).map Node.elt

/-- The reverse loop with a body that may return early, from a node on; `fuel` bounds the nodes
visited. -/
def forRev (heap : Addr → Option (Node α)) (body : α → Option β) :
    Nat → Option Addr → Option (Option β)
  | _, none => some none
  | 0, some _ => none
  | fuel + 1, some a => do
      let n ← heap a
      match n.elt with
      | none => forRev heap body fuel n.prev
      | some e =>
          match body e with
          | some b => some (some b)
          | none => forRev heap body fuel n.prev

/-- The forward loop: as many nodes as the list is long, from a node on. -/
def forEach (heap : Addr → Option (Node α)) : Nat → Option Addr → Option (List (Option α))
  | 0, _ => some []
  | _ + 1, none => none
  | count + 1, some a => do
      let n ← heap a
      let rest ← forEach heap count n.next
      some (n.elt :: rest)

def forRevElts (heap : Addr → Option (Node α)) : Nat → Option Addr → Option (List α)
  | _, none => some []
  | 0, some _ => none
  | fuel + 1, some a => do
      let n ← heap a
      let rest ← forRevElts heap fuel n.prev
      some (n.elt.toList ++ rest)

/-- The nodes are linked, from the last one to the embedded one; `next` is the forward pointer of
the first node listed. -/
def Linked (heap : Addr → Option (Node α)) (inner : Addr) :
    Option Addr → List (Addr × α) → Prop
  | _, [] => False
  | next, [(a, e)] => a = inner ∧ heap a = some ⟨some e, none, next⟩
  | next, (a, e) :: (p, e') :: nodes =>
      heap a = some ⟨some e, some p, next⟩ ∧ Linked heap inner (some a) ((p, e') :: nodes)

structure Represents (l : ListMem α) (nodes : List (Addr × α)) : Prop where
  length : l.length = nodes.length
  nodup : (nodes.map Prod.fst).Nodup
  last : l.last = some (nodes.head?.elim l.inner Prod.fst)
  linked : if nodes = [] then l.heap l.inner = some ⟨none, none, none⟩
    else Linked l.heap l.inner none nodes

/-! ## Elements that may be null -/

/-- Nodes whose elements may be null, linked the same way. -/
def Chained (heap : Addr → Option (Node α)) (inner : Addr) :
    Option Addr → List (Addr × Option α) → Prop
  | _, [] => False
  | next, [(a, e)] => a = inner ∧ heap a = some ⟨e, none, next⟩
  | next, (a, e) :: (p, e') :: nodes =>
      heap a = some ⟨e, some p, next⟩ ∧ Chained heap inner (some a) ((p, e') :: nodes)

structure Consists (l : ListMem α) (nodes : List (Addr × Option α)) : Prop where
  length : l.length = nodes.length
  nodup : (nodes.map Prod.fst).Nodup
  last : l.last = some (nodes.head?.elim l.inner Prod.fst)
  chained : if nodes = [] then l.heap l.inner = some ⟨none, none, none⟩
    else Chained l.heap l.inner none nodes

section Chained

variable {heap heap' : Addr → Option (Node α)} {inner a : Addr} {e : Option α} {next : Option Addr}
  {nodes : List (Addr × Option α)}

theorem Chained.congr (chained : Chained heap inner next nodes)
    (same : ∀ node ∈ nodes, heap' node.1 = heap node.1) : Chained heap' inner next nodes := by
  induction nodes generalizing next with
  | nil => exact chained
  | cons node nodes ih =>
    obtain ⟨a, e⟩ := node
    cases nodes with
    | nil => exact ⟨chained.1, (same (a, e) (by simp)).trans chained.2⟩
    | cons node' nodes =>
      obtain ⟨p, e'⟩ := node'
      exact ⟨(same (a, e) (by simp)).trans chained.1,
        ih chained.2 fun node member => same node (List.mem_cons_of_mem _ member)⟩

theorem Chained.head (chained : Chained heap inner next ((a, e) :: nodes)) :
    ∃ prev, heap a = some ⟨e, prev, next⟩ := by
  cases nodes with
  | nil => exact ⟨none, chained.2⟩
  | cons node nodes => exact ⟨some node.1, chained.1⟩

theorem Chained.node (chained : Chained heap inner next nodes) {i : Nat}
    (listed : nodes[i]? = some (a, e)) :
    heap a = some ⟨e, nodes[i + 1]?.map Prod.fst,
      if i = 0 then next else nodes[i - 1]?.map Prod.fst⟩ := by
  induction nodes generalizing next i with
  | nil => simp at listed
  | cons node nodes ih =>
    cases i with
    | zero =>
      obtain rfl : node = (a, e) := by simpa using listed
      cases nodes with
      | nil => simpa using chained.2
      | cons node' nodes => simpa using chained.1
    | succ i =>
      cases nodes with
      | nil => simp at listed
      | cons node' nodes =>
        have inside := ih chained.2 (by simpa using listed)
        rw [inside]
        cases i with
        | zero => simp
        | succ i => simp

theorem Chained.inner_mem (chained : Chained heap inner next nodes) :
    inner ∈ nodes.map Prod.fst := by
  induction nodes generalizing next with
  | nil => exact chained.elim
  | cons node nodes ih =>
    cases nodes with
    | nil => exact List.mem_singleton.mpr chained.1.symm
    | cons node' nodes => exact List.mem_cons_of_mem _ (ih chained.2)

theorem Chained.alive (chained : Chained heap inner next nodes) :
    ∀ node ∈ nodes, heap node.1 ≠ none := by
  intro node member
  obtain ⟨i, listed⟩ := List.mem_iff_getElem?.mp member
  rw [chained.node listed]
  exact Option.some_ne_none _

theorem Chained.setNext (chained : Chained heap inner next ((a, e) :: nodes))
    (nodup : (((a, e) :: nodes).map Prod.fst).Nodup) {n : Node α} (here : heap a = some n)
    (next' : Option Addr) :
    Chained (setNode heap a (some { n with next := next' })) inner next' ((a, e) :: nodes) := by
  have apart : ∀ node ∈ nodes, node.1 ≠ a := by
    intro node member same
    exact (List.nodup_cons.mp nodup).1 (List.mem_map.mpr ⟨node, member, same⟩)
  cases nodes with
  | nil =>
    obtain ⟨isInner, node⟩ := chained
    rw [here] at node
    cases node
    exact ⟨isInner, setNode_self ..⟩
  | cons node nodes =>
    obtain ⟨node_, rest⟩ := chained
    rw [here] at node_
    cases node_
    exact ⟨setNode_self .., rest.congr fun node member => setNode_of_ne _ _ (apart node member)⟩

theorem Chained.forEach (chained : Chained heap inner next nodes) (count : Nat) :
    forEach heap (nodes.length + count) (some inner) =
      (EmbeddedList.forEach heap count next).map ((nodes.map Prod.snd).reverse ++ ·) := by
  induction nodes generalizing next count with
  | nil => exact chained.elim
  | cons node nodes ih =>
    obtain ⟨a, e⟩ := node
    cases nodes with
    | nil =>
      obtain ⟨rfl, node⟩ := chained
      rw [List.length_singleton, Nat.add_comm, EmbeddedList.forEach, node, Option.bind_eq_bind,
        Option.bind_some]
      cases EmbeddedList.forEach heap count next <;> rfl
    | cons node' nodes =>
      obtain ⟨node, chained⟩ := chained
      -- the nodes before come first, and the round that is left over visits this one
      have early := ih chained (count + 1)
      rw [EmbeddedList.forEach, node, Option.bind_eq_bind, Option.bind_some] at early
      rw [List.length_cons, Nat.add_assoc, Nat.add_comm 1, early]
      cases EmbeddedList.forEach heap count next with
      | none => rfl
      | some rest => simp

theorem Chained.forRevElts (chained : Chained heap inner next ((a, e) :: nodes)) {fuel : Nat}
    (enough : nodes.length < fuel) :
    forRevElts heap fuel (some a) = some (((a, e) :: nodes).filterMap Prod.snd) := by
  induction nodes generalizing a e next fuel with
  | nil =>
    obtain ⟨fuel, rfl⟩ : ∃ k, fuel = k + 1 := ⟨fuel - 1, by omega⟩
    simp only [EmbeddedList.forRevElts, chained.2, Option.bind_eq_bind, Option.bind_some]
    cases e <;> rfl
  | cons node nodes ih =>
    obtain ⟨p, e'⟩ := node
    obtain ⟨fuel, rfl⟩ : ∃ k, fuel = k + 1 := ⟨fuel - 1, by omega⟩
    have rest := ih chained.2 (show nodes.length < fuel by simpa using enough)
    simp only [EmbeddedList.forRevElts, chained.1, rest, Option.bind_eq_bind, Option.bind_some]
    cases e <;> rfl

theorem forRev_eq (body : α → Option β) (fuel : Nat) (temp : Option Addr) {elts : List α}
    (visited : EmbeddedList.forRevElts heap fuel temp = some elts) :
    forRev heap body fuel temp = some (elts.findSome? body) := by
  induction fuel generalizing temp elts with
  | zero =>
    cases temp with
    | none => cases visited; rfl
    | some a => cases visited
  | succ fuel ih =>
    cases temp with
    | none => cases visited; rfl
    | some a =>
      simp only [EmbeddedList.forRevElts, Option.bind_eq_bind, Option.bind_eq_some_iff] at visited
      obtain ⟨n, here, rest, later, same⟩ := visited
      cases same
      simp only [forRev, here, Option.bind_eq_bind, Option.bind_some]
      cases elt : n.elt with
      | none => exact ih n.prev later
      | some e =>
        simp only [Option.toList_some, List.singleton_append, List.findSome?_cons]
        cases body e with
        | some b => rfl
        | none => exact ih n.prev later

end Chained

section Consists

variable {l : ListMem α} {nodes : List (Addr × Option α)}

theorem consists_listEmpty (inner : Addr) : Consists (listEmpty inner : ListMem α) [] :=
  ⟨rfl, .nil, rfl, by simp [listEmpty]⟩

theorem Consists.listAddElt (is : Consists l nodes) (new : Addr) (elt : Option α)
    (unused : nodes ≠ [] → l.heap new = none) :
    ∃ l' a, listAddElt l new elt = some l' ∧ Consists l' ((a, elt) :: nodes) ∧
      l'.inner = l.inner ∧ ∀ x, x ≠ a → l'.heap x ≠ none → l.heap x ≠ none := by
  have count := is.length
  have last := is.last
  have chained := is.chained
  unfold EmbeddedList.listAddElt
  cases nodes with
  -- the first element goes into the embedded node
  | nil =>
    rw [if_pos rfl] at chained
    rw [if_pos (show l.length = 0 from count)]
    refine ⟨{ l with
      heap := setNode l.heap l.inner (some ⟨elt, none, none⟩)
      length := l.length + 1 }, l.inner, by rw [chained]; rfl, ⟨?_, by simp, last, ?_⟩, rfl, ?_⟩
    · simp [count]
    · exact ⟨rfl, setNode_self ..⟩
    · intro x differ alive
      exact setNode_of_ne l.heap _ differ ▸ alive
  | cons node nodes =>
    obtain ⟨a, e⟩ := node
    have unused : l.heap new = none := unused (by simp)
    -- a node of the list is alive, and so not at the new address
    rw [if_neg (by simp)] at chained
    obtain ⟨prev, here⟩ := chained.head
    have last : l.last = some a := last
    have apart : ∀ node ∈ (a, e) :: nodes, node.1 ≠ new := by
      intro node member same
      exact chained.alive node member (same ▸ unused)
    have differ : a ≠ new := apart (a, e) (by simp)
    have stillHere : setNode l.heap new (some ⟨elt, none, none⟩) a = some ⟨e, prev, none⟩ :=
      (setNode_of_ne _ _ differ).trans here
    have kept := chained.congr fun node member =>
      setNode_of_ne l.heap (some ⟨elt, none, none⟩) (apart node member)
    have chained' := kept.setNext is.nodup stillHere (some new)
    rw [if_neg (by rw [count]; simp), if_neg (by simp [unused])]
    refine ⟨_, new, by
      simp only [last, Option.bind_eq_bind, Option.bind_some, listAppend, stillHere]
      rw [if_neg (by simp), setNode_of_ne _ _ differ.symm, setNode_self, Option.bind_some,
        if_neg (by simp)]
      rfl, ⟨?_, ?_, rfl, ?_⟩, ?_, ?_⟩
    · simp [count]
    · rw [List.map_cons, List.nodup_cons]
      refine ⟨?_, is.nodup⟩
      intro member
      obtain ⟨node, inside, same⟩ := List.mem_map.mp member
      exact apart node inside same
    · rw [if_neg (by simp)]
      exact ⟨setNode_self .., chained'.congr fun node member => setNode_of_ne _ _ (apart node member)⟩
    · rfl
    · intro x other alive
      by_cases same : x = a
      · rw [same, here]
        exact Option.some_ne_none _
      · dsimp only at alive
        rwa [setNode_of_ne _ _ other, setNode_of_ne _ _ same, setNode_of_ne _ _ other] at alive

theorem Consists.listPop {a : Addr} {e : Option α} {node : Addr × Option α}
    (is : Consists l ((a, e) :: node :: nodes)) :
    ∃ l', listPop l = some (e, l') ∧ Consists l' (node :: nodes) ∧ l'.inner = l.inner ∧
      ∀ x, l'.heap x ≠ none → x ≠ a ∧ l.heap x ≠ none := by
  obtain ⟨p, e'⟩ := node
  have last : l.last = some a := is.last
  have chained := is.chained
  rw [if_neg (by simp)] at chained
  obtain ⟨here, chained⟩ := chained
  obtain ⟨prev, before⟩ := chained.head
  have nodup := is.nodup
  rw [List.map_cons, List.nodup_cons] at nodup
  refine ⟨_, by
    simp only [EmbeddedList.listPop, last, here, before, Option.bind_eq_bind, Option.bind_some]
    rfl, ⟨?_, nodup.2, rfl, ?_⟩, ?_, ?_⟩
  · simp [is.length]
  · rw [if_neg (by simp)]
    refine (chained.setNext nodup.2 before none).congr ?_
    intro node member
    refine setNode_of_ne _ _ fun same => nodup.1 ?_
    exact List.mem_map.mpr ⟨node, member, same⟩
  · rfl
  · intro x alive
    have apart : x ≠ a := by
      rintro rfl
      exact alive (setNode_self ..)
    refine ⟨apart, ?_⟩
    dsimp only at alive
    rw [setNode_of_ne _ _ apart] at alive
    by_cases same : x = p
    · rw [same, before]
      exact Option.some_ne_none _
    · rwa [setNode_of_ne _ _ same] at alive

theorem Consists.listPop_single {a : Addr} {e : Option α} (is : Consists l [(a, e)]) :
    EmbeddedList.listPop l = none := by
  -- the embedded node has none before it, and removing it writes through a null pointer
  have last : l.last = some a := is.last
  have chained := is.chained
  rw [if_neg (by simp)] at chained
  simp [EmbeddedList.listPop, last, chained.2]

theorem Consists.listLast (is : Consists l nodes) :
    listLast l = some (nodes.head?.bind Prod.snd) := by
  have last := is.last
  have chained := is.chained
  cases nodes with
  | nil =>
    rw [if_pos rfl] at chained
    simp only [EmbeddedList.listLast, last, List.head?_nil, Option.elim_none, chained]
    rfl
  | cons node nodes =>
    rw [if_neg (by simp)] at chained
    obtain ⟨prev, here⟩ := chained.head
    simp only [EmbeddedList.listLast, last, List.head?_cons, Option.elim_some, here]
    rfl

theorem Consists.forEach (is : Consists l nodes) :
    forEach l.heap l.length (some l.inner) = some (nodes.map Prod.snd).reverse := by
  have chained := is.chained
  cases nodes with
  | nil => rw [is.length]; rfl
  | cons node nodes =>
    rw [if_neg (by simp)] at chained
    have whole := chained.forEach 0
    rw [Nat.add_zero, EmbeddedList.forEach, Option.map_some, List.append_nil] at whole
    rw [is.length, whole]

theorem Consists.forRevElts (is : Consists l nodes) :
    forRevElts l.heap (l.length + 1) l.last = some (nodes.filterMap Prod.snd) := by
  have chained := is.chained
  rw [is.last]
  cases nodes with
  | nil =>
    rw [if_pos rfl] at chained
    simp [EmbeddedList.forRevElts, chained]
  | cons node nodes =>
    rw [if_neg (by simp)] at chained
    exact chained.forRevElts (by rw [is.length, List.length_cons]; omega)

theorem Consists.inverse (is : Consists l nodes)
    (only : ∀ x, l.heap x ≠ none → x = l.inner ∨ x ∈ nodes.map Prod.fst) (a b : Addr) :
    (∃ n, l.heap a = some n ∧ n.next = some b) ↔ ∃ n, l.heap b = some n ∧ n.prev = some a := by
  have chained := is.chained
  cases nodes with
  | nil =>
    rw [if_pos rfl] at chained
    have single : ∀ x n, l.heap x = some n → n = ⟨none, none, none⟩ := by
      intro x n here
      rcases only x (by simp [here]) with rfl | member
      · exact Option.some.inj (here.symm.trans chained)
      · simp at member
    constructor
    · rintro ⟨n, here, forward⟩
      simp [single a n here] at forward
    · rintro ⟨n, here, backward⟩
      simp [single b n here] at backward
  | cons first nodes =>
    rw [if_neg (by simp)] at chained
    have listed : ∀ x, l.heap x ≠ none → ∃ (i : Nat) (e : Option α),
        (first :: nodes)[i]? = some (x, e) := by
      intro x alive
      have member : x ∈ (first :: nodes).map Prod.fst := by
        rcases only x alive with rfl | member
        · exact chained.inner_mem
        · exact member
      obtain ⟨⟨_, e⟩, inside, rfl⟩ := List.mem_map.mp member
      obtain ⟨i, at_⟩ := List.mem_iff_getElem?.mp inside
      exact ⟨i, e, at_⟩
    constructor
    · rintro ⟨n, here, forward⟩
      obtain ⟨i, e, at_⟩ := listed a (by simp [here])
      have node := chained.node at_
      rw [here] at node
      cases node
      cases i with
      | zero => simp at forward
      | succ i =>
        simp only [Nat.add_one_ne_zero, if_false, Nat.add_sub_cancel, Option.map_eq_some_iff]
          at forward
        obtain ⟨⟨b', e'⟩, before, rfl⟩ := forward
        exact ⟨_, chained.node before, by simp [at_]⟩
    · rintro ⟨n, here, backward⟩
      obtain ⟨i, e, at_⟩ := listed b (by simp [here])
      have node := chained.node at_
      rw [here] at node
      cases node
      simp only [Option.map_eq_some_iff] at backward
      obtain ⟨⟨a', e'⟩, after, rfl⟩ := backward
      exact ⟨_, chained.node after, by simp [at_]⟩

end Consists

/-! ## Elements that are never null -/

theorem chained_map {heap : Addr → Option (Node α)} {inner : Addr} {next : Option Addr}
    {nodes : List (Addr × α)} : Chained heap inner next (nodes.map (Prod.map id some)) ↔
      Linked heap inner next nodes := by
  induction nodes generalizing next with
  | nil => exact Iff.rfl
  | cons node nodes ih =>
    cases nodes with
    | nil => exact Iff.rfl
    | cons node' nodes => exact and_congr Iff.rfl ih

theorem consists_map {l : ListMem α} {nodes : List (Addr × α)} :
    Consists l (nodes.map (Prod.map id some)) ↔ Represents l nodes := by
  have addresses : (nodes.map (Prod.map id some)).map Prod.fst = nodes.map Prod.fst := by
    rw [List.map_map]
    rfl
  have last : ((nodes.map (Prod.map id (some (α := α)))).head?.elim l.inner Prod.fst) =
      nodes.head?.elim l.inner Prod.fst := by
    cases nodes <;> rfl
  constructor
  · intro is
    refine ⟨by simpa using is.length, addresses ▸ is.nodup, last ▸ is.last, ?_⟩
    simpa only [List.map_eq_nil_iff, chained_map] using is.chained
  · intro rep
    refine ⟨by simpa using rep.length, addresses.symm ▸ rep.nodup, last.symm ▸ rep.last, ?_⟩
    simpa only [List.map_eq_nil_iff, chained_map] using rep.linked

section Represents

variable {l : ListMem α} {nodes : List (Addr × α)}

theorem Represents.listAdd (rep : Represents l nodes) (new : Addr) (elt : α)
    (unused : l.heap new = none) :
    ∃ l' a, listAdd l new elt = some l' ∧ Represents l' ((a, elt) :: nodes) := by
  obtain ⟨l', a, added, is, -, -⟩ :=
    (consists_map.mpr rep).listAddElt new (some elt) fun _ => unused
  exact ⟨l', a, (listAdd_eq ..).trans added, consists_map.mp is⟩

theorem Represents.listPop {a : Addr} {e : α} {node : Addr × α}
    (rep : Represents l ((a, e) :: node :: nodes)) :
    ∃ l', listPop l = some (some e, l') ∧ Represents l' (node :: nodes) := by
  obtain ⟨l', popped, is, -, -⟩ := (consists_map.mpr rep).listPop
  exact ⟨l', popped, consists_map.mp is⟩

theorem Represents.listLast {a : Addr} {e : α} (rep : Represents l ((a, e) :: nodes)) :
    listLast l = some (some e) :=
  (consists_map.mpr rep).listLast

theorem Represents.forRev (rep : Represents l nodes) (body : α → Option β) :
    forRev l.heap body (l.length + 1) l.last = some ((nodes.map Prod.snd).findSome? body) := by
  have elements : (nodes.map (Prod.map id some)).filterMap Prod.snd = nodes.map Prod.snd := by
    rw [List.filterMap_map, ← List.filterMap_eq_map]
    rfl
  rw [← elements]
  exact forRev_eq body _ _ (consists_map.mpr rep).forRevElts

end Represents

end EmbeddedList
