import Dragon.Codegen.Declarations
import Dragon.Memory.Destructors

/-! What the analyzer allocates and frees.

A string that symbol.c is given belongs to the table from then on: it is freed at
once, or with the entry that keeps it. Most of these strings are copies. The name
of a type declaration is the one of the tree, and so is the name that the path of
a for loop frees; free_program comes to both a second time.
-/

set_option autoImplicit false

namespace Dragon

open Ownership

/-- A block of the tree, or one that the analyzer allocates; these are numbered. -/
inductive Block where
  | tree (place : Place)
  | table (n : Nat)
  deriving DecidableEq

structure VarBlocks where
  self : Block
  name : Block

/-- The blocks of a type of the table; records and functions have a list, magic functions a null
one. The elements of a list come with their nodes and with what their destructor frees. -/
structure TypeBlocks where
  self : Block
  name : Block
  list : Option (Block × List (Block × List Block))

/-- The memory of the analyzer: how much it has allocated, what it has freed, and what the arenas
of the table keep. The storage of the arenas and of the scopes is not part of it. -/
structure Ledger where
  next : Nat
  freed : List Block
  vars : List VarBlocks
  types : List TypeBlocks

def freeStabVar (v : VarBlocks) : List Block := [v.name] ++ [v.self]

def freeStabType (t : TypeBlocks) : List Block :=
  [t.name] ++ t.list.elim [] (fun list => listFree list.1 list.2) ++ [t.self]

namespace Ledger

def fresh (l : Ledger) : Block := .table l.next

def alloc (l : Ledger) : Ledger := { l with next := l.next + 1 }

def free (l : Ledger) (blocks : List Block) : Ledger := { l with freed := l.freed ++ blocks }

def pushVar (l : Ledger) (v : VarBlocks) : Ledger := { l with vars := l.vars ++ [v] }

def pushType (l : Ledger) (t : TypeBlocks) : Ledger := { l with types := l.types ++ [t] }

/-- list_add: the first element is kept in the list itself. -/
def listAdd (list : Block) (elements : List (Block × List Block)) (element : List Block)
    (l : Ledger) : List (Block × List Block) × Ledger :=
  match elements with
  | [] => ([(list, element)], l)
  | _ :: _ => (elements ++ [(l.fresh, element)], l.alloc)

mutual

/-- stab_resolve_type with a name that it takes over, and the pointer, record and array branches of
stab_resolve_complex_type. -/
def stabResolveType (name : Block) : AstType → Ledger → Ledger
  | .pointer target, l =>
      let self := l.fresh
      let l := l.alloc
      let inner := l.fresh      -- strdup(name)
      (stabResolveType inner target l.alloc).pushType ⟨self, name, none⟩
  | .record fields, l =>
      let self := l.fresh
      let l := l.alloc
      let list := l.fresh
      let (elements, l) := stabResolveFields list [] fields l.alloc
      l.pushType ⟨self, name, some (list, elements)⟩
  | .array _ _ eltType, l =>
      let self := l.fresh
      let l := l.alloc
      let inner := l.fresh      -- strdup("<array elts>")
      (stabResolveType inner eltType l.alloc).pushType ⟨self, name, none⟩
  | .ref _, l | .boolean, l | .char, l | .integer, l | .real, l | .string, l | .void, l =>
      l.free [name]

def stabResolveFields (list : Block) (elements : List (Block × List Block)) :
    List (Name × AstType) → Ledger → List (Block × List Block) × Ledger
  | [], l => (elements, l)
  | (_, type) :: fields, l =>
      let name := l.fresh
      let l := stabResolveType name type l.alloc
      -- stab_record_field copies the name again
      let field := l.fresh
      let l := l.alloc
      let own := l.fresh
      let (elements, l) := listAdd list elements ([own] ++ [field]) l.alloc
      stabResolveFields list elements fields l

end

def stabResolveRetty (name : Block) : Option AstType → Ledger → Ledger
  | none, l => l.free [name]
  | some type, l => stabResolveType name type l

/-- stab_add_var with a name that it takes over. -/
def stabAddVar (name : Block) (l : Ledger) : Ledger := l.alloc.pushVar ⟨l.fresh, name⟩

/-- The loops over the formals; what is kept of them in the list is no pointer. -/
def stabResolveFormals (list : Block) (elements : List (Block × List Block)) :
    List (Name × AstType) → Ledger → List (Block × List Block) × Ledger
  | [], l => (elements, l)
  | (_, type) :: formals, l =>
      let name := l.fresh
      let l := stabResolveType name type l.alloc
      let own := l.fresh
      let (elements, l) := listAdd list elements [] (stabAddVar own l.alloc)
      stabResolveFormals list elements formals l

def stabResolveSig (name : Block) (sig : AstSig) (l : Ledger) : Ledger :=
  let self := l.fresh
  let l := l.alloc
  let inner := l.fresh      -- strdup("<func ret>")
  let l := stabResolveRetty inner sig.retty l.alloc
  let list := l.fresh
  let (elements, l) := stabResolveFormals list [] sig.formals l.alloc
  l.pushType ⟨self, name, some (list, elements)⟩

def stabAddNames : List Name → Ledger → Ledger
  | [], l => l
  | _ :: names, l => stabAddNames names (stabAddVar l.fresh l.alloc)

def stabAddDecls (d : AstDecls) (l : Ledger) : Ledger :=
  stabAddNames d.names (stabResolveType l.fresh d.type l.alloc)

/-- A type with a copied name and no parts: the built-in types, and the magic functions. -/
def addPlainType (l : Ledger) : Ledger := l.alloc.alloc.pushType ⟨l.alloc.fresh, l.fresh, none⟩

def empty : Ledger := ⟨0, [], [], []⟩

def stabNew : Ledger :=
  empty.addPlainType.addPlainType.addPlainType.addPlainType.addPlainType.addPlainType

/-- What a call into the symbol table allocates and frees. -/
def declare (place : Place) : Declaration → Ledger → Ledger
  | .enter, l | .leave, l => l
  | .type t, l => stabResolveType (.tree (.name :: place)) t.type l
  | .decls d _, l => stabAddDecls d l
  | .result _ retty, l =>
      let own := l.fresh
      let l := l.alloc
      let inner := l.fresh      -- strdup("<retslot>")
      stabAddVar own (stabResolveRetty inner retty l.alloc)
  | .func _ sig, l => stabResolveSig l.fresh sig l.alloc
  | .magic _, l => l.addPlainType

/-- STMT_FOR makes a path of the name of its variable, and frees the path. -/
def loop (id : Place) (l : Ledger) : Ledger :=
  let path := l.fresh
  let l := l.alloc
  let list := l.fresh
  l.alloc.free (listFree list [(list, [.tree id])] ++ [path])

/-- stab_free, without the storage of the table itself. -/
def stabFree (l : Ledger) : List Block := l.vars.flatMap freeStabVar ++ l.types.flatMap freeStabType

/-! ## Accounts -/

def made (l : Ledger) : List Block := (List.range l.next).map .table

/-- How often a block has been freed, or will be by stab_free. -/
def account (l : Ledger) (b : Block) : Nat := l.freed.count b + l.stabFree.count b

/-- A step that is given some blocks and leaves others: each block it is given or allocates it
frees, keeps or leaves, once. -/
def Settled (given left : List Block) (l l' : Ledger) : Prop :=
  ∀ b, l'.account b + left.count b + l.made.count b = l.account b + given.count b + l'.made.count b

@[simp] theorem account_alloc (l : Ledger) (b : Block) : l.alloc.account b = l.account b := rfl

@[simp] theorem made_alloc (l : Ledger) (b : Block) :
    l.alloc.made.count b = l.made.count b + [l.fresh].count b := by
  simp only [made, alloc, fresh, List.range_succ, List.map_append, List.map_cons, List.map_nil,
    List.count_append]

@[simp] theorem account_free (l : Ledger) (blocks : List Block) (b : Block) :
    (l.free blocks).account b = l.account b + blocks.count b := by
  simp only [account, free, stabFree, List.count_append]
  omega

@[simp] theorem made_free (l : Ledger) (blocks : List Block) : (l.free blocks).made = l.made := rfl

@[simp] theorem account_pushVar (l : Ledger) (v : VarBlocks) (b : Block) :
    (l.pushVar v).account b = l.account b + (freeStabVar v).count b := by
  simp only [account, pushVar, stabFree, List.flatMap_append, List.flatMap_cons, List.flatMap_nil,
    List.append_nil, List.count_append]
  omega

@[simp] theorem made_pushVar (l : Ledger) (v : VarBlocks) : (l.pushVar v).made = l.made := rfl

@[simp] theorem account_pushType (l : Ledger) (t : TypeBlocks) (b : Block) :
    (l.pushType t).account b = l.account b + (freeStabType t).count b := by
  simp only [account, pushType, stabFree, List.flatMap_append, List.flatMap_cons, List.flatMap_nil,
    List.append_nil, List.count_append]
  omega

@[simp] theorem made_pushType (l : Ledger) (t : TypeBlocks) : (l.pushType t).made = l.made := rfl

theorem Settled.refl (given : List Block) (l : Ledger) : Settled given given l l := fun _ => rfl

theorem Settled.trans {xs ys zs : List Block} {l l₁ l₂ : Ledger} (first : Settled xs ys l l₁)
    (second : Settled ys zs l₁ l₂) : Settled xs zs l l₂ := by
  intro b
  have one := first b
  have two := second b
  omega

theorem Settled.frame {xs ys : List Block} {l l' : Ledger} (settled : Settled xs ys l l')
    (zs : List Block) : Settled (xs ++ zs) (ys ++ zs) l l' := by
  intro b
  have here := settled b
  simp only [List.count_append]
  omega

theorem settled_listAdd (list : Block) (elements : List (Block × List Block)) (element : List Block)
    (l : Ledger) : Settled (listFree list elements ++ element)
      (listFree list (listAdd list elements element l).1) l (listAdd list elements element l).2 := by
  intro b
  -- only an element after the first takes a node
  cases elements with
  | nil =>
    simp only [listAdd, listFree, nodeFree, List.nil_append, List.count_append]
    omega
  | cons first rest =>
    simp only [listAdd, List.cons_append, listFree, nodeFree_append, nodeFree, List.append_nil,
      List.count_append, account_alloc, made_alloc]
    omega

/-! ## The calls into the symbol table -/

mutual

theorem settled_type : ∀ (type : AstType) (name : Block) (l : Ledger),
    Settled [name] [] l (stabResolveType name type l)
  | .pointer target, name, l | .array _ _ target, name, l => by
      intro b
      have inner := settled_type target l.alloc.fresh l.alloc.alloc b
      simp only [account_alloc, made_alloc] at inner
      simp only [stabResolveType, account_pushType, made_pushType, freeStabType, Option.elim_none,
        List.append_nil, List.count_append, List.count_nil] at inner ⊢
      omega
  | .record fields, name, l => by
      intro b
      have inner := settled_fields fields l.alloc.fresh [] l.alloc.alloc b
      simp only [account_alloc, made_alloc, listFree_nil] at inner
      simp only [stabResolveType, account_pushType, made_pushType, freeStabType, Option.elim_some,
        List.count_append, List.count_nil] at inner ⊢
      omega
  | .ref _, name, l | .boolean, name, l | .char, name, l | .integer, name, l | .real, name, l
  | .string, name, l | .void, name, l => by
      intro b
      simp only [stabResolveType, account_free, made_free, List.count_nil]
      omega

theorem settled_fields : ∀ (fields : List (Name × AstType)) (list : Block)
    (elements : List (Block × List Block)) (l : Ledger),
    Settled (listFree list elements) (listFree list (stabResolveFields list elements fields l).1) l
      (stabResolveFields list elements fields l).2
  | [], list, elements, l => Settled.refl _ l
  | (_, type) :: fields, list, elements, l => by
      intro b
      have inner := settled_type type l.fresh l.alloc b
      simp only [stabResolveFields]
      generalize stabResolveType l.fresh type l.alloc = l₁ at inner ⊢
      have added := settled_listAdd list elements ([l₁.alloc.fresh] ++ [l₁.fresh]) l₁.alloc.alloc b
      generalize listAdd list elements ([l₁.alloc.fresh] ++ [l₁.fresh]) l₁.alloc.alloc = grown
        at added ⊢
      have later := settled_fields fields list grown.1 grown.2 b
      simp only [account_alloc, made_alloc, List.count_append, List.count_nil] at inner added
      omega

end

theorem settled_retty (name : Block) (retty : Option AstType) (l : Ledger) :
    Settled [name] [] l (stabResolveRetty name retty l) := by
  cases retty with
  | none =>
    intro b
    simp only [stabResolveRetty, account_free, made_free, List.count_nil]
    omega
  | some type => exact settled_type type name l

theorem settled_addVar (name : Block) (l : Ledger) : Settled [name] [] l (stabAddVar name l) := by
  intro b
  simp only [stabAddVar, account_pushVar, made_pushVar, account_alloc, made_alloc, freeStabVar,
    List.count_append, List.count_nil]
  omega

theorem settled_formals (formals : List (Name × AstType)) (list : Block)
    (elements : List (Block × List Block)) (l : Ledger) :
    Settled (listFree list elements) (listFree list (stabResolveFormals list elements formals l).1) l
      (stabResolveFormals list elements formals l).2 := by
  induction formals generalizing elements l with
  | nil => exact Settled.refl _ l
  | cons formal formals ih =>
    intro b
    have inner := settled_type formal.2 l.fresh l.alloc b
    simp only [stabResolveFormals]
    generalize stabResolveType l.fresh formal.2 l.alloc = l₁ at inner ⊢
    have var := settled_addVar l₁.fresh l₁.alloc b
    generalize stabAddVar l₁.fresh l₁.alloc = l₂ at var ⊢
    have added := settled_listAdd list elements [] l₂ b
    generalize listAdd list elements [] l₂ = grown at added ⊢
    have later := ih grown.1 grown.2 b
    simp only [account_alloc, made_alloc, List.count_append, List.count_nil] at inner var added
    omega

theorem settled_sig (name : Block) (sig : AstSig) (l : Ledger) :
    Settled [name] [] l (stabResolveSig name sig l) := by
  intro b
  have retty := settled_retty l.alloc.fresh sig.retty l.alloc.alloc b
  simp only [stabResolveSig, account_pushType, made_pushType, freeStabType, Option.elim_some,
    List.count_append, List.count_nil]
  generalize stabResolveRetty l.alloc.fresh sig.retty l.alloc.alloc = l₁ at retty ⊢
  have formals := settled_formals sig.formals l₁.fresh [] l₁.alloc b
  simp only [account_alloc, made_alloc, List.count_nil, listFree_nil] at retty formals
  omega

theorem settled_names (names : List Name) (l : Ledger) : Settled [] [] l (stabAddNames names l) := by
  induction names generalizing l with
  | nil => exact Settled.refl _ l
  | cons name names ih =>
    intro b
    have var := settled_addVar l.fresh l.alloc b
    have later := ih (stabAddVar l.fresh l.alloc) b
    simp only [account_alloc, made_alloc, List.count_nil] at var
    simp only [stabAddNames, List.count_nil] at later ⊢
    omega

theorem settled_decls (d : AstDecls) (l : Ledger) : Settled [] [] l (stabAddDecls d l) := by
  intro b
  have type := settled_type d.type l.fresh l.alloc b
  have names := settled_names d.names (stabResolveType l.fresh d.type l.alloc) b
  simp only [account_alloc, made_alloc, List.count_nil] at type names
  simp only [stabAddDecls, List.count_nil]
  omega

theorem settled_plainType (l : Ledger) : Settled [] [] l l.addPlainType := by
  intro b
  simp only [addPlainType, account_pushType, made_pushType, account_alloc, made_alloc, freeStabType,
    Option.elim_none, List.append_nil, List.count_append, List.count_nil]
  omega

/-- The strings of the tree that a call into the symbol table takes over. -/
def takenOver (place : Place) : Declaration → List Place
  | .type _ => [.name :: place]
  | _ => []

theorem settled_declare (place : Place) (e : Declaration) (l : Ledger) :
    Settled ((takenOver place e).map .tree) [] l (declare place e l) := by
  cases e with
  | enter => exact Settled.refl _ l
  | leave => exact Settled.refl _ l
  | type t => exact settled_type t.type _ l
  | decls d arguments => exact settled_decls d l
  | result name retty =>
    intro b
    have type := settled_retty l.alloc.fresh retty l.alloc.alloc b
    have var := settled_addVar l.fresh (stabResolveRetty l.alloc.fresh retty l.alloc.alloc) b
    simp only [account_alloc, made_alloc, List.count_nil] at type var
    simp only [declare, takenOver, List.map_nil, List.count_nil]
    omega
  | func name sig =>
    intro b
    have type := settled_sig l.fresh sig l.alloc b
    simp only [account_alloc, made_alloc, List.count_nil] at type
    simp only [declare, takenOver, List.map_nil, List.count_nil]
    omega
  | magic which => exact settled_plainType l

theorem settled_loop (id : Place) (l : Ledger) : Settled [.tree id] [] l (loop id l) := by
  intro b
  simp only [loop, account_free, made_free, account_alloc, made_alloc, listFree, nodeFree,
    List.nil_append, List.count_append, List.count_nil]
  omega

theorem account_stabNew (b : Block) : stabNew.account b = stabNew.made.count b := by
  have settled : Settled [] [] empty stabNew :=
    (((((settled_plainType _).trans (settled_plainType _)).trans (settled_plainType _)).trans
      (settled_plainType _)).trans (settled_plainType _)).trans (settled_plainType _)
  have here : stabNew.account b + 0 + 0 = 0 + 0 + stabNew.made.count b := settled b
  omega

end Ledger

end Dragon
