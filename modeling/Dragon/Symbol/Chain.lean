import Dragon.Library.LinkedList
import Dragon.Library.PtrVec
import Dragon.Symbol.Table
import Mathlib.Data.Finmap

/-! The symbol table as symbol.c lays it out, and the two levels above it.

At the bottom the chain is a linked list of scope pointers, the scopes and the
two arenas are growable vectors, and every operation may be undefined. A scope
pointer is the scope's place in st->scopes, which owns it. `Layout` ties
this layout to the table of lists the analyzer's model uses, and `Abstracts`
ties that table to a stack of finite maps.
-/

set_option autoImplicit false

namespace Dragon

open EmbeddedList GrowableVector

structure PtrStab where
  vars : PtrVec StabVar
  types : PtrVec StabType
  scopes : PtrVec StabScope
  chain : ListMem Nat

namespace PtrStab

def pushAll {α : Type} (vec : PtrVec α) : List α → Option (PtrVec α)
  | [] => some vec
  | x :: xs => do
      let (_, vec) ← ptrvecPush vec x
      pushAll vec xs

def stabNew (inner : Addr) : Option PtrStab := do
  let types ← pushAll (ptrvecWcap (1 <<< 8)) Dragon.stabNew.types
  some ⟨ptrvecWcap (1 <<< 8), types, ptrvecWcap (1 <<< 8), listEmpty inner⟩

/-- stab_enter; `node` is what malloc answers if list_add needs a node. -/
def stabEnter (st : PtrStab) (node : Addr) : Option PtrStab := do
  let sc := st.scopes.length
  let chain ← listAdd st.chain node sc
  let (_, scopes) ← ptrvecPush st.scopes stabScopeNew
  some { st with chain := chain, scopes := scopes }

def stabLeave (st : PtrStab) : Option PtrStab := do
  let (_, chain) ← listPop st.chain
  some { st with chain := chain }

/-- The body of the loop of stab_resolve_var: an answer, or none to continue. The answer is
undefined through a dangling scope pointer. -/
def resolveBody (st : PtrStab) (name : Name) (sc : Nat) : Option (Option Int) :=
  match st.scopes.read sc with
  | none => some none
  | some scope =>
      let id := scope.vars.lookup name
      if id = -1 then none else some (some id)

def stabResolveVar (st : PtrStab) (name : Name) : Option Int :=
  match forRev st.chain.heap (st.resolveBody name) (st.chain.length + 1) st.chain.last with
  | none => none
  | some none => some resolveFailure
  | some (some id) => id

def stabHasLocalVar (st : PtrStab) (name : Name) : Option Bool := do
  let sc ← (← listLast st.chain)
  let scope ← st.scopes.read sc
  some (decide (scope.vars.lookup name ≠ resolveFailure))

/-- The update of the frame offset in stab_add_var, which may be a null pointer. -/
def moveOffset (st : PtrStab) (type : Index) (addToLocals : Bool) :
    Option Int → Option (Option Int)
  | none => some none
  | some off => do
      let t ← if 0 ≤ type then st.types.read type.toNat else none
      some (some (off + (if addToLocals then 1 else -1) * t.size))

def stabAddVar (st : PtrStab) (name : Name) (type : Index) (currVarOffset : Option Int)
    (addToLocals : Bool) : Option (Nat × Option Int × PtrStab) := do
  let sc ← (← listLast st.chain)
  let off ← st.moveOffset type addToLocals currVarOffset
  let (id, vars) ← ptrvecPush st.vars ⟨type, name, -1, currVarOffset.getD (-1), false⟩
  let scope ← st.scopes.read sc
  let scopes ← st.scopes.write sc { scope with vars := scope.vars.insert name id }
  some (id, off, { st with vars := vars, scopes := scopes })

end PtrStab

/-! ## The layout represents a table -/

/-- The nodes of the chain from the innermost scope, each with its address and scope pointer. -/
structure Layout (s : PtrStab) (st : Stab) (nodes : List (Addr × Nat))
    (all : List StabScope) : Prop where
  vars : Holds s.vars st.vars
  types : Holds s.types st.types
  scopes : Holds s.scopes all
  chain : EmbeddedList.Represents s.chain nodes
  distinct : (nodes.map Prod.snd).Nodup
  targets : nodes.map (fun node => all[node.2]?) = st.chain.map some

namespace Layout

variable {s : PtrStab} {st : Stab} {nodes : List (Addr × Nat)} {all : List StabScope}

theorem target_lt (rep : Layout s st nodes all) {node : Addr × Nat} (member : node ∈ nodes) :
    node.2 < all.length := by
  have found : all[node.2]? ∈ st.chain.map some := by
    rw [← rep.targets]
    exact List.mem_map.mpr ⟨node, member, rfl⟩
  obtain ⟨sc, -, same⟩ := List.mem_map.mp found
  exact (List.getElem?_eq_some_iff.mp same.symm).1

theorem nodes_cons (rep : Layout s st nodes all) :
    ∃ a sc rest, nodes = (a, sc) :: rest ∧ all[sc]? = some st.innermost ∧
      rest.map (fun node => all[node.2]?) = st.enclosing.map some := by
  have targets := rep.targets
  cases nodes with
  | nil => simp [Stab.chain] at targets
  | cons node rest =>
    simp only [List.map_cons, Stab.chain, List.cons.injEq] at targets
    exact ⟨node.1, node.2, rest, rfl, targets.1, targets.2⟩

theorem read (rep : Layout s st nodes all) {sc : Nat} {scope : StabScope}
    (found : all[sc]? = some scope) : s.scopes.read sc = some scope := by
  obtain ⟨less, rfl⟩ := List.getElem?_eq_some_iff.mp found
  exact rep.scopes.read less

theorem enter (rep : Layout s st nodes all) (node : Addr) (unused : s.chain.heap node = none) :
    ∃ s' nodes' all', s.stabEnter node = some s' ∧
      Layout s' (Dragon.stabEnter st) nodes' all' := by
  obtain ⟨chain, a, added, chainRep⟩ := rep.chain.listAdd node s.scopes.length unused
  obtain ⟨vec, pushed, holds⟩ := rep.scopes.push stabScopeNew
  have fresh : s.scopes.length = all.length := rep.scopes.length
  refine ⟨{ s with chain := chain, scopes := vec }, (a, s.scopes.length) :: nodes,
    all ++ [stabScopeNew], ?_, rep.vars, rep.types, holds, chainRep, ?_, ?_⟩
  · simp only [PtrStab.stabEnter, added, pushed, Option.bind_eq_bind, Option.bind_some]
  · rw [List.map_cons, List.nodup_cons]
    refine ⟨?_, rep.distinct⟩
    intro member
    obtain ⟨node, inside, same⟩ := List.mem_map.mp member
    have := rep.target_lt inside
    omega
  · have old : nodes.map (fun node => (all ++ [stabScopeNew])[node.2]?) =
        nodes.map fun node => all[node.2]? := by
      apply List.map_congr_left
      intro node member
      exact List.getElem?_append_left (rep.target_lt member)
    simp only [List.map_cons, Dragon.stabEnter, Stab.chain, fresh, old, rep.targets]
    simp

theorem leave (rep : Layout s st nodes all) {st' : Stab} (left : stabLeave st = .ok st') :
    ∃ s' nodes', s.stabLeave = some s' ∧ Layout s' st' nodes' all := by
  obtain ⟨a, sc, rest, rfl, -, targets⟩ := rep.nodes_cons
  unfold Dragon.stabLeave at left
  cases enclosing : st.enclosing with
  | nil => simp [enclosing] at left
  | cons outer outers =>
    simp only [enclosing, Except.ok.injEq] at left
    subst left
    cases rest with
    | nil => simp [enclosing] at targets
    | cons node rest =>
      obtain ⟨chain, popped, chainRep⟩ := rep.chain.listPop
      refine ⟨{ s with chain := chain }, node :: rest, ?_, rep.vars, rep.types, rep.scopes, chainRep,
        (List.nodup_cons.mp rep.distinct).2, ?_⟩
      · simp only [PtrStab.stabLeave, popped, Option.bind_eq_bind, Option.bind_some]
      · rw [targets, enclosing]
        rfl

theorem resolveVar (rep : Layout s st nodes all) (name : Name) :
    s.stabResolveVar name = some (stabResolveVar st name) := by
  have scan : ∀ (nodes : List (Addr × Nat)) (chain : List StabScope),
      nodes.map (fun node => all[node.2]?) = chain.map some →
      (match some ((nodes.map Prod.snd).findSome? (s.resolveBody name)) with
        | none => none
        | some none => some resolveFailure
        | some (some id) => id) = some (resolveIn StabScope.vars name chain) := by
    intro nodes chain targets
    induction nodes generalizing chain with
    | nil =>
      cases chain with
      | nil => rfl
      | cons => simp at targets
    | cons node nodes ih =>
      cases chain with
      | nil => simp at targets
      | cons sc chain =>
        simp only [List.map_cons, List.cons.injEq] at targets
        have here : s.resolveBody name node.2 =
            if sc.vars.lookup name = -1 then none else some (some (sc.vars.lookup name)) := by
          simp only [PtrStab.resolveBody, rep.read targets.1]
        simp only [List.map_cons, List.findSome?_cons, resolveIn, here]
        by_cases missing : sc.vars.lookup name = -1
        · simpa only [missing, if_true] using ih chain targets.2
        · simp only [missing, if_false]
  unfold PtrStab.stabResolveVar
  rw [rep.chain.forRev]
  exact scan nodes st.chain rep.targets

theorem hasLocalVar (rep : Layout s st nodes all) (name : Name) :
    s.stabHasLocalVar name = some (stabHasLocalVar st name) := by
  obtain ⟨a, sc, rest, rfl, here, -⟩ := rep.nodes_cons
  simp only [PtrStab.stabHasLocalVar, rep.chain.listLast, rep.read here, Option.bind_eq_bind,
    Option.bind_some]
  rfl

def addVar (st : Stab) (name : Name) (type : Index) (off : Int) : Stab :=
  let (id, st) := st.pushVar ⟨type, name, -1, off, false⟩
  st.insertVar name id

theorem addVar_of_stabAddVar {st st' : Stab} {name : Name} {type : Index} {off off' : Int} {b : Bool}
    {id : Index} (added : stabAddVar st name type off b = .ok (id, off', st')) :
    id = st.vars.length ∧ st' = addVar st name type off := by
  unfold stabAddVar at added
  split at added
  · cases added
  · cases added
    exact ⟨rfl, rfl⟩

theorem addVar_of_stabAddVarNoOffset (st : Stab) (name : Name) (type : Index) :
    stabAddVarNoOffset st name type = ((st.vars.length : Int), addVar st name type (-1)) := rfl

theorem addVar_ok (rep : Layout s st nodes all) (name : Name) (type : Index)
    (off : Option Int) (b : Bool) (valid : (stabType st type).isSome) :
    ∃ off' s' all', s.stabAddVar name type off b = some (st.vars.length, off', s') ∧
      Layout s' (addVar st name type (off.getD (-1))) nodes all' := by
  obtain ⟨a, sc, rest, rfl, here, targets⟩ := rep.nodes_cons
  obtain ⟨vec, pushed, holds⟩ := rep.vars.push ⟨type, name, -1, off.getD (-1), false⟩
  obtain ⟨less, -⟩ := List.getElem?_eq_some_iff.mp here
  obtain ⟨written, wrote, holds'⟩ := rep.scopes.write less
    { st.innermost with vars := st.innermost.vars.insert name st.vars.length }
  obtain ⟨off', moved⟩ : ∃ off', s.moveOffset type b off = some off' := by
    cases off with
    | none => exact ⟨none, rfl⟩
    | some off =>
      unfold stabType arenaGet at valid
      split at valid
      next positive =>
        obtain ⟨t, found⟩ := Option.isSome_iff_exists.mp valid
        obtain ⟨inside, rfl⟩ := List.getElem?_eq_some_iff.mp found
        simp only [PtrStab.moveOffset, positive, if_true, rep.types.read inside,
          Option.bind_eq_bind, Option.bind_some]
        exact ⟨_, rfl⟩
      next => simp at valid
  refine ⟨off', { s with vars := vec, scopes := written }, _, ?_, holds, rep.types, holds', rep.chain,
    rep.distinct, ?_⟩
  · simp only [PtrStab.stabAddVar, rep.chain.listLast, Option.bind_eq_bind, Option.bind_some, moved,
      pushed, rep.read here, wrote]
  · have apart := (List.nodup_cons.mp rep.distinct).1
    have others : rest.map (fun node => (all.set sc { st.innermost with
        vars := st.innermost.vars.insert name st.vars.length })[node.2]?) =
        rest.map fun node => all[node.2]? := by
      apply List.map_congr_left
      intro node member
      refine List.getElem?_set_ne fun same => apart ?_
      exact List.mem_map.mpr ⟨node, member, same.symm⟩
    rw [List.map_cons, others, targets]
    simp only [List.getElem?_set_self less, addVar, Stab.pushVar, Stab.insertVar, Stab.chain,
      List.map_cons]

end Layout

theorem holds_pushAll {α : Type} {vec : PtrVec α} {xs : List α} (holds : Holds vec xs)
    (ys : List α) : ∃ vec', PtrStab.pushAll vec ys = some vec' ∧ Holds vec' (xs ++ ys) := by
  induction ys generalizing vec xs with
  | nil => exact ⟨vec, rfl, by simpa using holds⟩
  | cons y ys ih =>
    obtain ⟨vec₁, pushed, holds₁⟩ := holds.push y
    obtain ⟨vec₂, rest, holds₂⟩ := ih holds₁
    refine ⟨vec₂, ?_, by simpa using holds₂⟩
    simp only [PtrStab.pushAll, pushed, Option.bind_eq_bind, Option.bind_some, rest]

theorem layout_stabNew (inner node : Addr) :
    ∃ s₀ s nodes scopes, PtrStab.stabNew inner = some s₀ ∧ s₀.stabEnter node = some s ∧
      Layout s stabNew nodes scopes := by
  obtain ⟨types, pushed, holdsTypes⟩ :=
    holds_pushAll (holds_ptrvecWcap (by decide : 0 < 1 <<< 8)) stabNew.types
  obtain ⟨vec, pushed', holds⟩ := (holds_ptrvecWcap (by decide : 0 < 1 <<< 8)).push stabScopeNew
  obtain ⟨chain, added, chainRep⟩ : ∃ chain, listAdd (listEmpty inner : ListMem Nat) node 0 =
      some chain ∧ EmbeddedList.Represents chain [(inner, 0)] := by
    refine ⟨{ (listEmpty inner : ListMem Nat) with
      heap := setNode (listEmpty inner : ListMem Nat).heap inner (some ⟨some 0, none, none⟩)
      length := 1 }, by simp [listAdd, listEmpty], rfl, by simp, rfl, ?_⟩
    exact ⟨rfl, setNode_self ..⟩
  refine ⟨⟨ptrvecWcap (1 <<< 8), types, ptrvecWcap (1 <<< 8), listEmpty inner⟩,
    ⟨ptrvecWcap (1 <<< 8), types, vec, chain⟩, [(inner, 0)], [stabScopeNew], ?_, ?_,
    holds_ptrvecWcap (by decide), holdsTypes, holds, chainRep, by simp, by simp [stabNew, Stab.chain]⟩
  · simp only [PtrStab.stabNew, pushed, Option.bind_eq_bind, Option.bind_some]
  · change (do
      let chain ← listAdd (listEmpty inner : ListMem Nat) node 0
      let (_, scopes) ← ptrvecPush (ptrvecWcap (1 <<< 8)) stabScopeNew
      some (⟨ptrvecWcap (1 <<< 8), types, scopes, chain⟩ : PtrStab)) = _
    rw [added, pushed']
    rfl

/-! ## The stack of finite maps -/

/-- What the variable part of the table is for: a stack of finite maps from names to variables,
and the number of variables declared so far. -/
structure ScopeStack where
  innermost : Finmap fun _ : Name => Nat
  enclosing : List (Finmap fun _ : Name => Nat)
  next : Nat

namespace ScopeStack

def chain (a : ScopeStack) : List (Finmap fun _ : Name => Nat) := a.innermost :: a.enclosing

def start : ScopeStack := ⟨∅, [], 0⟩

def enter (a : ScopeStack) : ScopeStack := ⟨∅, a.chain, a.next⟩

def leave (a : ScopeStack) : ScopeStack :=
  match a.enclosing with
  | [] => a
  | sc :: rest => ⟨sc, rest, a.next⟩

def addVar (a : ScopeStack) (name : Name) : ScopeStack :=
  ⟨a.innermost.insert name a.next, a.enclosing, a.next + 1⟩

def resolve (a : ScopeStack) (name : Name) : Option Nat :=
  a.chain.findSome? fun sc => sc.lookup name

theorem resolve_eq_none {a : ScopeStack} {name : Name} :
    a.resolve name = none ↔ ∀ sc ∈ a.chain, name ∉ sc := by
  simp only [resolve, List.findSome?_eq_none_iff, Finmap.lookup_eq_none]

end ScopeStack

/-- -1 doubles as the answer for a missing name. -/
def indexOf : Option Nat → Int
  | some id => id
  | none => resolveFailure

theorem indexOf_eq_resolveFailure {o : Option Nat} : indexOf o = resolveFailure ↔ o = none := by
  cases o with
  | none => simp [indexOf]
  | some id =>
    simp only [indexOf, resolveFailure, reduceCtorEq]

/-- A scope's table of variables is this map. -/
def SameBindings (sc : StabScope) (m : Finmap fun _ : Name => Nat) : Prop :=
  ∀ n, sc.vars.lookup n = indexOf (m.lookup n)

structure Abstracts (st : Stab) (a : ScopeStack) : Prop where
  innermost : SameBindings st.innermost a.innermost
  enclosing : List.Forall₂ SameBindings st.enclosing a.enclosing
  next : a.next = st.vars.length

namespace Abstracts

variable {st : Stab} {a : ScopeStack}

theorem start : Abstracts stabNew ScopeStack.start :=
  ⟨fun _ => by simp [stabNew, stabScopeNew, ScopeStack.start, indexOf], .nil, rfl⟩

theorem enter (abs : Abstracts st a) : Abstracts (stabEnter st) a.enter :=
  ⟨fun _ => by simp [stabEnter, stabScopeNew, ScopeStack.enter, indexOf],
    .cons abs.innermost abs.enclosing, abs.next⟩

theorem leave (abs : Abstracts st a) (open_ : a.enclosing ≠ []) :
    ∃ st', stabLeave st = .ok st' ∧ Abstracts st' a.leave := by
  unfold stabLeave ScopeStack.leave
  have enclosing := abs.enclosing
  cases outer : st.enclosing with
  | nil =>
    rw [outer] at enclosing
    exact absurd (List.forall₂_nil_left_iff.mp enclosing) open_
  | cons sc rest =>
    rw [outer] at enclosing
    obtain ⟨m, ms, here, there, shape⟩ := List.forall₂_cons_left_iff.mp enclosing
    exact ⟨_, rfl, by rw [shape]; exact ⟨here, there, abs.next⟩⟩

theorem addVar (abs : Abstracts st a) (name : Name) (type : Index) (off : Int) :
    Abstracts (Layout.addVar st name type off) (a.addVar name) := by
  refine ⟨?_, abs.enclosing, ?_⟩
  · intro n
    simp only [Layout.addVar, Stab.pushVar, Stab.insertVar, ScopeStack.addVar,
      NameTable.lookup_insert, abs.next]
    by_cases same : n = name
    · subst same
      simp [indexOf]
    · rw [if_neg same, Finmap.lookup_insert_of_ne _ same]
      exact abs.innermost n
  · simp [Layout.addVar, Stab.pushVar, Stab.insertVar, ScopeStack.addVar, abs.next]

theorem resolveVar (abs : Abstracts st a) (name : Name) :
    stabResolveVar st name = indexOf (a.resolve name) := by
  have scan : ∀ {chain : List StabScope} {maps : List (Finmap fun _ : Name => Nat)},
      List.Forall₂ SameBindings chain maps →
        resolveIn StabScope.vars name chain = indexOf (maps.findSome? fun sc => sc.lookup name) := by
    intro chain maps same
    induction same with
    | nil => rfl
    | @cons sc m chain maps here _ ih =>
      simp only [resolveIn, here name, List.findSome?_cons]
      cases found : m.lookup name with
      | none => simpa [indexOf, resolveFailure] using ih
      | some id =>
        simp only [indexOf]
        exact if_neg (by omega)
  exact scan (.cons abs.innermost abs.enclosing)

theorem hasLocalVar (abs : Abstracts st a) (name : Name) :
    stabHasLocalVar st name = decide (name ∈ a.innermost) := by
  simp only [stabHasLocalVar, abs.innermost name, ne_eq, indexOf_eq_resolveFailure,
    Finmap.lookup_eq_none, not_not]

end Abstracts

/-! ## Runs -/

def Refines (s : PtrStab) (a : ScopeStack) : Prop :=
  ∃ st nodes all, Layout s st nodes all ∧ Abstracts st a

/-- The runs of stab_enter, stab_leave and stab_add_var from a fresh table with one scope. A run
comes with the stack of maps, the tables right before the entries of the open scopes, innermost
first, and the variables handed out. A scope is left only while one entered in the run is open. -/
inductive Reached : PtrStab → ScopeStack → List PtrStab → List (Nat × StabVar) → Prop where
  | start {inner node : Addr} {s₀ s : PtrStab} (new : PtrStab.stabNew inner = some s₀)
      (entered : s₀.stabEnter node = some s) : Reached s ScopeStack.start [] []
  | enter {s s' : PtrStab} {a : ScopeStack} {before : List PtrStab} {handed : List (Nat × StabVar)}
      {node : Addr} (run : Reached s a before handed) (entered : s.stabEnter node = some s') :
      Reached s' a.enter (s :: before) handed
  | leave {s s₀ s' : PtrStab} {a : ScopeStack} {before : List PtrStab}
      {handed : List (Nat × StabVar)} (run : Reached s a (s₀ :: before) handed)
      (left : s.stabLeave = some s') : Reached s' a.leave before handed
  | addVar {s s' : PtrStab} {a : ScopeStack} {before : List PtrStab} {handed : List (Nat × StabVar)}
      {name : Name} {type : Nat} {off off' : Option Int} {b : Bool} {id : Nat}
      (run : Reached s a before handed) (valid : type < s.types.length)
      (added : s.stabAddVar name type off b = some (id, off', s')) :
      Reached s' (a.addVar name) before
        ((id, ⟨type, name, -1, off.getD (-1), false⟩) :: handed)

structure Invariant (s : PtrStab) (a : ScopeStack) (before : List PtrStab)
    (handed : List (Nat × StabVar)) (st : Stab) (nodes : List (Addr × Nat))
    (all : List StabScope) : Prop where
  layout : Layout s st nodes all
  abs : Abstracts st a
  count : before.length = a.enclosing.length
  snapshots : ∀ i s₀, before[i]? = some s₀ → ∃ a₀, Refines s₀ a₀ ∧ a₀.chain = a.enclosing.drop i
  handed : ∀ id v, (id, v) ∈ handed → st.vars[id]? = some v

theorem listAdd_unused {α : Type} {l l' : ListMem α} {new : Addr} {elt : α}
    (nonempty : l.length ≠ 0) (added : listAdd l new elt = some l') : l.heap new = none := by
  unfold listAdd at added
  rw [if_neg nonempty] at added
  split at added
  · cases added
  next unused => simpa using unused

theorem Layout.enter_of {s s' : PtrStab} {st : Stab} {nodes : List (Addr × Nat)}
    {all : List StabScope} {node : Addr} (rep : Layout s st nodes all)
    (entered : s.stabEnter node = some s') :
    ∃ nodes' all', Layout s' (stabEnter st) nodes' all' := by
  obtain ⟨a, sc, rest, shape, -, -⟩ := rep.nodes_cons
  have unused : s.chain.heap node = none := by
    cases added : listAdd s.chain node s.scopes.length with
    | none => simp [PtrStab.stabEnter, added] at entered
    | some chain => exact listAdd_unused (by rw [rep.chain.length, shape]; simp) added
  obtain ⟨s'', nodes', all', entered', layout⟩ := rep.enter node unused
  obtain rfl := Option.some.inj (entered.symm.trans entered')
  exact ⟨nodes', all', layout⟩

theorem reached_invariant {s : PtrStab} {a : ScopeStack} {before : List PtrStab}
    {handed : List (Nat × StabVar)} (run : Reached s a before handed) :
    ∃ st nodes all, Invariant s a before handed st nodes all := by
  induction run with
  | @start inner node s₀ s new entered =>
    obtain ⟨s₁, s₂, nodes, all, new', entered', layout⟩ := layout_stabNew inner node
    obtain rfl := Option.some.inj (new.symm.trans new')
    obtain rfl := Option.some.inj (entered.symm.trans entered')
    exact ⟨_, nodes, all, layout, .start, rfl, by simp, by simp⟩
  | @enter s s' a before handed node run entered ih =>
    obtain ⟨st, nodes, all, inv⟩ := ih
    obtain ⟨nodes', all', layout⟩ := inv.layout.enter_of entered
    refine ⟨_, nodes', all', layout, inv.abs.enter, ?_, ?_, inv.handed⟩
    · simp [ScopeStack.enter, ScopeStack.chain, inv.count]
    · intro i s₀ found
      cases i with
      | zero =>
        simp only [List.getElem?_cons_zero, Option.some.injEq] at found
        subst found
        exact ⟨a, ⟨st, nodes, all, inv.layout, inv.abs⟩, rfl⟩
      | succ i => exact inv.snapshots i s₀ (by simpa using found)
  | @leave s s₀ s' a before handed run left ih =>
    obtain ⟨st, nodes, all, inv⟩ := ih
    have count := inv.count
    have nonempty : a.enclosing ≠ [] := by
      intro empty
      simp [empty] at count
    obtain ⟨st', stLeft, abs⟩ := inv.abs.leave nonempty
    obtain ⟨s'', nodes', left', layout⟩ := inv.layout.leave stLeft
    obtain rfl := Option.some.inj (left.symm.trans left')
    obtain ⟨m, ms, shape⟩ := List.exists_cons_of_ne_nil nonempty
    refine ⟨st', nodes', all, layout, abs, ?_, ?_, ?_⟩
    · simp only [ScopeStack.leave, shape]
      simpa [shape] using count
    · intro i s₁ found
      obtain ⟨a₁, refines, chain⟩ := inv.snapshots (i + 1) s₁ (by simpa using found)
      refine ⟨a₁, refines, ?_⟩
      simpa only [ScopeStack.leave, shape, List.drop_succ_cons] using chain
    · obtain ⟨sc, rest, -, rfl⟩ : ∃ sc rest, st.enclosing = sc :: rest ∧
          st' = { st with innermost := sc, enclosing := rest } := by
        unfold stabLeave at stLeft
        split at stLeft
        · cases stLeft
        next sc rest enclosing => exact ⟨sc, rest, enclosing, (Except.ok.inj stLeft).symm⟩
      exact inv.handed
  | @addVar s s' a before handed name type off off' b id run valid added ih =>
    obtain ⟨st, nodes, all, inv⟩ := ih
    have known : (stabType st (type : Int)).isSome := by
      rw [inv.layout.types.length] at valid
      simp [stabType, arenaGet, valid]
    obtain ⟨off'', s'', all', added', layout⟩ := inv.layout.addVar_ok name type off b known
    have same := Option.some.inj (added.symm.trans added')
    simp only [Prod.mk.injEq] at same
    obtain ⟨rfl, rfl, rfl⟩ := same
    refine ⟨_, nodes, all', layout, inv.abs.addVar name type _, inv.count, inv.snapshots, ?_⟩
    intro id v member
    simp only [Layout.addVar, Stab.pushVar, Stab.insertVar]
    rcases List.mem_cons.mp member with same | member
    · cases same
      simp
    · have old := inv.handed id v member
      rw [List.getElem?_append_left (List.getElem?_eq_some_iff.mp old).1]
      exact old

theorem Refines.answers {s : PtrStab} {a : ScopeStack} (refines : Refines s a) (name : Name) :
    s.stabResolveVar name = some (indexOf (a.resolve name)) ∧
      s.stabHasLocalVar name = some (decide (name ∈ a.innermost)) := by
  obtain ⟨st, nodes, all, layout, abs⟩ := refines
  rw [layout.resolveVar, layout.hasLocalVar, abs.resolveVar, abs.hasLocalVar]
  exact ⟨rfl, rfl⟩

/-- Along every run the table answers as a stack of finite maps does, leaving a scope brings back
the answers from before it was entered, and variables keep their indices; no operation of a run is
undefined. -/
theorem stab_refines_scopeStack (s : PtrStab) (a : ScopeStack) (before : List PtrStab)
    (handed : List (Nat × StabVar)) (run : Reached s a before handed) :
    (∀ n, s.stabResolveVar n = some (indexOf (a.resolve n)) ∧
      (s.stabResolveVar n = some resolveFailure ↔ ∀ sc ∈ a.chain, n ∉ sc) ∧
      s.stabHasLocalVar n = some (decide (n ∈ a.innermost))) ∧
    (∀ s₀ rest, before = s₀ :: rest → ∃ s', s.stabLeave = some s' ∧
      ∀ n, s'.stabResolveVar n = s₀.stabResolveVar n ∧ s'.stabHasLocalVar n = s₀.stabHasLocalVar n) ∧
    (∀ id v, (id, v) ∈ handed → s.vars.read id = some v) ∧
    (∀ name (type : Nat) off b, type < s.types.length →
      ∃ off' s', s.stabAddVar name type off b = some (a.next, off', s')) ∧
    (∀ node, s.chain.heap node = none → ∃ s', s.stabEnter node = some s') := by
  obtain ⟨st, nodes, all, inv⟩ := reached_invariant run
  refine ⟨?_, ?_, ?_, ?_, ?_⟩
  · intro n
    obtain ⟨resolved, isLocal⟩ := Refines.answers ⟨st, nodes, all, inv.layout, inv.abs⟩ n
    refine ⟨resolved, ?_, isLocal⟩
    rw [resolved, Option.some.injEq, indexOf_eq_resolveFailure, ScopeStack.resolve_eq_none]
  · rintro s₀ rest rfl
    have count := inv.count
    have nonempty : a.enclosing ≠ [] := by
      intro empty
      simp [empty] at count
    obtain ⟨st', stLeft, abs⟩ := inv.abs.leave nonempty
    obtain ⟨s', nodes', left, layout⟩ := inv.layout.leave stLeft
    obtain ⟨a₀, refines, chain⟩ := inv.snapshots 0 s₀ rfl
    refine ⟨s', left, ?_⟩
    intro n
    obtain ⟨resolved, isLocal⟩ := refines.answers n
    obtain ⟨resolved', isLocal'⟩ := Refines.answers ⟨st', nodes', all, layout, abs⟩ n
    have same : a.leave.chain = a₀.chain := by
      obtain ⟨m, ms, shape⟩ := List.exists_cons_of_ne_nil nonempty
      rw [chain, List.drop_zero, shape]
      simp only [ScopeStack.leave, shape, ScopeStack.chain]
    have inner : a.leave.innermost = a₀.innermost := (List.cons.inj same).1
    rw [resolved, resolved', isLocal, isLocal', ScopeStack.resolve, ScopeStack.resolve, same, inner]
    exact ⟨rfl, rfl⟩
  · intro id v member
    obtain ⟨less, rfl⟩ := List.getElem?_eq_some_iff.mp (inv.handed id v member)
    exact inv.layout.vars.read less
  · intro name type off b valid
    have known : (stabType st (type : Int)).isSome := by
      rw [inv.layout.types.length] at valid
      simp [stabType, arenaGet, valid]
    obtain ⟨off', s', all', added, -⟩ := inv.layout.addVar_ok name type off b known
    exact ⟨off', s', by rw [added, inv.abs.next]⟩
  · intro node unused
    obtain ⟨s', nodes', all', entered, -⟩ := inv.layout.enter node unused
    exact ⟨s', entered⟩

/-- A variable declared in the outermost scope, and one of the same name in a scope entered then. -/
def hidingRun : Option PtrStab := do
  let s ← PtrStab.stabNew 0
  let s ← s.stabEnter 1
  let (_, _, s) ← s.stabAddVar "x" 0 (some 0) true
  let s ← s.stabEnter 2
  let (_, _, s) ← s.stabAddVar "x" 0 (some 0) true
  some s

theorem stab_refines_hidingRun : ∃ s : PtrStab, hidingRun = some s ∧
    s.stabResolveVar "x" = some 1 ∧
    ∃ s' s₀ : PtrStab, s.stabLeave = some s' ∧ s'.stabResolveVar "x" = s₀.stabResolveVar "x" := by
  have runs : hidingRun.isSome = true := by decide +kernel
  obtain ⟨s, ran⟩ := Option.isSome_iff_exists.mp runs
  have types : ∀ {f : Option PtrStab} {s : PtrStab}, f = some s →
      f.map (fun s => decide (0 < s.types.length)) = some true → 0 < s.types.length := by
    rintro _ s rfl positive
    simpa using positive
  have first := ran
  simp only [hidingRun, Option.bind_eq_bind, Option.bind_eq_some_iff, Option.some.injEq] at first
  obtain ⟨s₀, new, s₁, entered, ⟨id, off, s₂⟩, added, s₃, entered', ⟨id', off', s₄⟩, added', rfl⟩ :=
    first
  have valid : 0 < s₁.types.length :=
    types (f := (PtrStab.stabNew 0).bind fun s => s.stabEnter 1) (by rw [new]; exact entered)
      (by decide +kernel)
  have valid' : 0 < s₃.types.length :=
    types (f := (PtrStab.stabNew 0).bind fun s => (s.stabEnter 1).bind fun s =>
      (s.stabAddVar "x" 0 (some 0) true).bind fun r => r.2.2.stabEnter 2)
      (by rw [new, Option.bind_some, entered, Option.bind_some, added]; exact entered')
      (by decide +kernel)
  have run := ((Reached.start new entered).addVar valid added |>.enter entered').addVar valid' added'
  have facts := stab_refines_scopeStack s₄ _ _ _ run
  obtain ⟨s', left, back⟩ := facts.2.1 s₂ [] rfl
  refine ⟨s₄, ran, ?_, s', s₂, left, (back "x").1⟩
  rw [(facts.1 "x").1]
  simp [ScopeStack.resolve, ScopeStack.addVar, ScopeStack.enter, ScopeStack.start, ScopeStack.chain,
    indexOf]

end Dragon
