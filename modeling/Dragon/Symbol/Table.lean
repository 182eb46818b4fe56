import Dragon.Ast
import Dragon.Util.HashTable

/-! The symbol table of symbol.c.

A table index is a size_t whose value -1 is RESOLVE_FAILURE. The arenas are
lists in allocation order and the chain of open scopes is listed from the
innermost one, the order of LFOREACHREV. Lookups through a table that has no
open scope are undefined in the source, so a table always has one.
-/

set_option autoImplicit false

namespace Dragon

/-- How a run of the analyzer ends early. -/
inductive Stop where
  | spanErr (message : String)
  | abort
  | assertFailed
  /-- The C code reads or writes outside an object, or through the wrong union member. -/
  | undefined
  deriving DecidableEq, Repr

theorem except_bind_eq_ok {ε α β : Type} {x : Except ε α} {f : α → Except ε β} {b : β} :
    (x >>= f) = .ok b ↔ ∃ a, x = .ok a ∧ f a = .ok b := by
  cases x with
  | error e => simp [Bind.bind, Except.bind]
  | ok a => simp [Bind.bind, Except.bind]

theorem exists_ok_of_isSome {ε α : Type} {x : Except ε α} (accepted : x.toOption.isSome = true) :
    ∃ a, x = .ok a := by
  cases x with
  | error e => cases accepted
  | ok a => exact ⟨a, rfl⟩

abbrev Index := Int

def resolveFailure : Int := -1

def integerTypeIdx : Index := 0
def realTypeIdx : Index := 1
def stringTypeIdx : Index := 2
def booleanTypeIdx : Index := 3
def charTypeIdx : Index := 4
def voidTypeIdx : Index := 5

def abiPointerSize : Int := 8
def abiPointerAlign : Int := 8
def abiClosureSize : Int := 16

inductive Magic where
  | read | readln | write | writeln
  deriving DecidableEq, Repr

structure StabVar where
  type : Index
  name : Name
  dispOffset : Int
  stackBaseOffset : Int
  captured : Bool
  deriving DecidableEq, Repr

inductive StabResolvedType where
  | array (lower upper : Int) (eltType : Index)
  | boolean
  | char
  /-- The args are indices of variables. -/
  | func (type : Subprogs) (args : List Index) (retty : Index)
  | integer
  | pointer (target : Index)
  | real
  | record (fields : List (Name × Index))
  | string
  | void
  deriving DecidableEq, Repr

structure StabType where
  ty : StabResolvedType
  size : Int
  magic : Option Magic
  deriving DecidableEq, Repr

def streq (a b : Name) : Bool := decide (a = b)

theorem streq_equivalence : Equivalence fun a b => streq a b = true where
  refl a := by simp [streq]
  symm h := by simpa [streq, eq_comm] using h
  trans h k := by simp_all [streq]

/-- A hash table on names, as stab_scope_new sets them up. -/
structure NameTable where
  tab : HashTable Name
  wf : tab.WellFormed
  comp_eq : tab.comp = streq

namespace NameTable

def empty : NameTable where
  tab := hashNew (1 <<< 8) hashString streq
  wf := HashTable.wellFormed_hashNew (by decide) streq_equivalence (by simp [streq])
  comp_eq := rfl

def lookup (t : NameTable) (name : Name) : Int := hashLookup t.tab name

def insert (t : NameTable) (name : Name) (id : Index) : NameTable where
  tab := hashInsert t.tab name id
  wf := t.wf.hashInsert name id
  comp_eq := t.comp_eq

def entries (t : NameTable) : List (BucketEntry Name) := hforeach t.tab

theorem lookup_of_mem_entries {t : NameTable} {ent : BucketEntry Name} (member : ent ∈ t.entries) :
    t.lookup ent.key = ent.val := t.wf.hashLookup_of_mem member

/-- HFOREACH comes to the bucket of a name. -/
def Reached (t : NameTable) (name : Name) : Prop := t.tab.reaches (t.tab.index name)

instance (t : NameTable) (name : Name) : Decidable (t.Reached name) :=
  inferInstanceAs (Decidable (_ ∨ _))

/-- A name is kept with a value in the table, in any bucket. -/
def Keeps (t : NameTable) (name : Name) (id : Index) : Prop :=
  ∃ i, ∃ ent ∈ t.tab.bucket i, ent.key = name ∧ ent.val = id

theorem lookup_of_keeps {t : NameTable} {name : Name} {id : Index} (keeps : t.Keeps name id) :
    t.lookup name = id := by
  obtain ⟨i, ent, member, rfl, rfl⟩ := keeps
  rw [lookup, hashLookup, t.wf.placed i ent member]
  exact HashTable.lookupChain_of_mem t.wf.equiv (t.wf.unique i) member

theorem keeps_insert {t : NameTable} {name n : Name} {id i : Index}
    (keeps : (t.insert name id).Keeps n i) : t.Keeps n i ∨ i = id := by
  obtain ⟨k, ent, member, rfl, rfl⟩ := keeps
  have bucket := HashTable.bucket_hashInsert t.wf name id k
  unfold insert at member
  rw [bucket] at member
  split at member
  · rcases HashTable.mem_insertChain member with old | fresh
    · exact .inl ⟨k, ent, old, rfl, rfl⟩
    · exact .inr fresh
  · exact .inl ⟨k, ent, member, rfl, rfl⟩

theorem exists_keeps_insert (t : NameTable) (name : Name) (id : Index) :
    ∃ n, (t.insert name id).Keeps n id := by
  obtain ⟨ent, member, same⟩ := HashTable.exists_mem_insertChain t.tab.comp name id
    (t.tab.bucket (t.tab.index name))
  refine ⟨ent.key, t.tab.index name, ent, ?_, rfl, same⟩
  unfold insert
  rw [HashTable.bucket_hashInsert t.wf, if_pos rfl]
  exact member

theorem not_keeps_empty (name : Name) (id : Index) : ¬ empty.Keeps name id := by
  rintro ⟨i, ent, member, -⟩
  simp only [empty, HashTable.bucket, hashNew, List.getD_eq_getElem?_getD,
    List.getElem?_replicate] at member
  split at member <;> cases member

theorem mem_entries_insert {t : NameTable} {name : Name} {id : Index} {ent : BucketEntry Name}
    (member : ent ∈ (t.insert name id).entries) : ent ∈ t.entries ∨ ent.val = id :=
  t.wf.mem_hforeach_hashInsert member

@[simp] theorem entries_empty : empty.entries = [] := HashTable.hforeach_hashNew ..

@[simp] theorem lookup_empty (name : Name) : empty.lookup name = resolveFailure :=
  HashTable.hashLookup_hashNew ..

theorem lookup_insert (t : NameTable) (name n : Name) (id : Index) :
    (t.insert name id).lookup n = if n = name then id else t.lookup n := by
  unfold lookup insert
  rw [HashTable.hashLookup_hashInsert t.wf, t.comp_eq]
  simp [streq]

@[simp] theorem lookup_insert_self (t : NameTable) (name : Name) (id : Index) :
    (t.insert name id).lookup name = id := by
  simp [lookup_insert]

theorem lookup_insert_of_ne (t : NameTable) {name n : Name} (id : Index) (ne : n ≠ name) :
    (t.insert name id).lookup n = t.lookup n := by
  simp [lookup_insert, ne]

end NameTable

structure StabScope where
  vars : NameTable
  funcs : NameTable
  types : NameTable

def stabScopeNew : StabScope := ⟨.empty, .empty, .empty⟩

structure Stab where
  vars : List StabVar
  types : List StabType
  innermost : StabScope
  enclosing : List StabScope

namespace Stab

def chain (st : Stab) : List StabScope := st.innermost :: st.enclosing

end Stab

/-- An arena read; outside the arena the source reads past the end of the vector. -/
def arenaGet {α : Type} (arena : List α) (i : Index) : Option α :=
  if 0 ≤ i then arena[i.toNat]? else none

def stabVar (st : Stab) (i : Index) : Option StabVar := arenaGet st.vars i

def stabType (st : Stab) (i : Index) : Option StabType := arenaGet st.types i

/-- stab_new followed by the stab_enter of analyze: the six built-in types and one scope. -/
def stabNew : Stab where
  vars := []
  types := [⟨.integer, 8, none⟩, ⟨.real, 8, none⟩, ⟨.string, abiPointerSize, none⟩,
    ⟨.boolean, 1, none⟩, ⟨.char, 1, none⟩, ⟨.void, 4, none⟩]
  innermost := stabScopeNew
  enclosing := []

def stabEnter (st : Stab) : Stab :=
  { st with innermost := stabScopeNew, enclosing := st.innermost :: st.enclosing }

/-- Popping the only scope dereferences a null pointer in list_pop. -/
def stabLeave (st : Stab) : Except Stop Stab :=
  match st.enclosing with
  | [] => .error .undefined
  | sc :: rest => .ok { st with innermost := sc, enclosing := rest }

def resolveIn (table : StabScope → NameTable) (name : Name) : List StabScope → Int
  | [] => resolveFailure
  | sc :: rest =>
      let id := (table sc).lookup name
      if id = -1 then resolveIn table name rest else id

def stabResolveTypeName (st : Stab) (name : Name) : Int := resolveIn StabScope.types name st.chain
def stabResolveFunc (st : Stab) (name : Name) : Int := resolveIn StabScope.funcs name st.chain
def stabResolveVar (st : Stab) (name : Name) : Int := resolveIn StabScope.vars name st.chain

def stabHasLocalType (st : Stab) (name : Name) : Bool :=
  decide (st.innermost.types.lookup name ≠ resolveFailure)
def stabHasLocalVar (st : Stab) (name : Name) : Bool :=
  decide (st.innermost.vars.lookup name ≠ resolveFailure)
def stabHasLocalFunc (st : Stab) (name : Name) : Bool :=
  decide (st.innermost.funcs.lookup name ≠ resolveFailure)

namespace Stab

def insertVar (st : Stab) (name : Name) (id : Index) : Stab :=
  { st with innermost := { st.innermost with vars := st.innermost.vars.insert name id } }

def insertFunc (st : Stab) (name : Name) (id : Index) : Stab :=
  { st with innermost := { st.innermost with funcs := st.innermost.funcs.insert name id } }

def insertType (st : Stab) (name : Name) (id : Index) : Stab :=
  { st with innermost := { st.innermost with types := st.innermost.types.insert name id } }

def pushType (st : Stab) (t : StabType) : Index × Stab :=
  (st.types.length, { st with types := st.types ++ [t] })

def pushVar (st : Stab) (v : StabVar) : Index × Stab :=
  (st.vars.length, { st with vars := st.vars ++ [v] })

def setVar (st : Stab) (i : Index) (v : StabVar) : Stab :=
  { st with vars := st.vars.set i.toNat v }

end Stab

/-- stab_add_var with a frame offset: the variable takes the current offset, which then moves
up for locals and down for formals. -/
def stabAddVar (st : Stab) (name : Name) (type : Index) (currVarOffset : Int)
    (addToLocals : Bool) : Except Stop (Index × Int × Stab) :=
  match stabType st type with
  | none => .error .undefined
  | some t =>
      let (id, st) := st.pushVar ⟨type, name, -1, currVarOffset, false⟩
      let currVarOffset := currVarOffset + (if addToLocals then 1 else -1) * t.size
      .ok (id, currVarOffset, st.insertVar name id)

/-- stab_add_var with a null offset, as signatures call it: the type is not looked at. -/
def stabAddVarNoOffset (st : Stab) (name : Name) (type : Index) : Index × Stab :=
  let (id, st) := st.pushVar ⟨type, name, -1, -1, false⟩
  (id, st.insertVar name id)

/-- atoi on the spelling of a number: the leading digits. -/
def atoi (s : Name) : Int :=
  ((s.toList.takeWhile Char.isDigit).foldl (fun n c => 10 * n + (c.toNat - '0'.toNat)) 0 : Nat)

mutual

/-- stab_resolve_type, with the pointer, record and array branches of stab_resolve_complex_type. -/
def stabResolveType (st : Stab) : AstType → Except Stop (Index × Stab)
  | .ref name => .ok (stabResolveTypeName st name, st)
  | .integer => .ok (integerTypeIdx, st)
  | .real => .ok (realTypeIdx, st)
  | .string => .ok (stringTypeIdx, st)
  | .boolean => .ok (booleanTypeIdx, st)
  | .char => .ok (charTypeIdx, st)
  | .void => .ok (voidTypeIdx, st)
  | .pointer target => do
      let (t, st) ← stabResolveType st target
      .ok (st.pushType ⟨.pointer t, abiPointerSize, none⟩)
  | .record fields => do
      let (fields, st) ← stabResolveFields st fields
      -- the size of a record is never set after calloc
      .ok (st.pushType ⟨.record fields, 0, none⟩)
  | .array lower upper eltType => do
      let (elt, st) ← stabResolveType st eltType
      match stabType st elt with
      | none => .error .undefined
      | some t =>
          .ok (st.pushType ⟨.array (atoi lower) (atoi upper) elt, t.size * (atoi upper - atoi lower), none⟩)

def stabResolveFields (st : Stab) : List (Name × AstType) → Except Stop (List (Name × Index) × Stab)
  | [] => .ok ([], st)
  | (name, type) :: fields => do
      let (t, st) ← stabResolveType st type
      let (rest, st) ← stabResolveFields st fields
      .ok ((name, t) :: rest, st)

end

/-- A null return type, as procedures have, is void. -/
def stabResolveRetty (st : Stab) : Option AstType → Except Stop (Index × Stab)
  | none => .ok (voidTypeIdx, st)
  | some type => stabResolveType st type

/-- The two nested loops over the formals in stab_resolve_complex_type: each name becomes a
variable of the innermost scope. -/
def stabResolveFormals (st : Stab) : List (Name × AstType) → Except Stop (List Index × Stab)
  | [] => .ok ([], st)
  | (name, type) :: formals => do
      let (t, st) ← stabResolveType st type
      let (id, st) := stabAddVarNoOffset st name t
      let (rest, st) ← stabResolveFormals st formals
      .ok (id :: rest, st)

def stabResolveSig (st : Stab) (sig : AstSig) : Except Stop (Index × Stab) := do
  let (retty, st) ← stabResolveRetty st sig.retty
  let (args, st) ← stabResolveFormals st sig.formals
  .ok (st.pushType ⟨.func sig.type args retty, abiClosureSize, none⟩)

def stabAddNames (st : Stab) (type : Index) (arguments : Bool) :
    List Name → Int → Except Stop (Int × Stab)
  | [], off => .ok (off, st)
  | var :: names, off =>
      if stabHasLocalVar st var then .error (.spanErr s!"{var} is already defined")
      else do
        let (_, off, st) ← stabAddVar st var type off arguments
        stabAddNames st type arguments names off

def stabAddDecls (st : Stab) (decls : AstDecls) (off : Int) (arguments : Bool) :
    Except Stop (Int × Stab) := do
  let (type, st) ← stabResolveType st decls.type
  stabAddNames st type arguments decls.names off

def stabAddAllDecls (st : Stab) (arguments : Bool) : List AstDecls → Int → Except Stop (Int × Stab)
  | [], off => .ok (off, st)
  | d :: decls, off => do
      let (off, st) ← stabAddDecls st d off arguments
      stabAddAllDecls st arguments decls off

def stabAddFunc (st : Stab) (name : Name) (sig : AstSig) : Except Stop Stab :=
  if stabHasLocalFunc st name then .error (.spanErr s!"{name} is already defined")
  else do
    let (type, st) ← stabResolveSig st sig
    .ok (st.insertFunc name type)

def Magic.name : Magic → Name
  | .readln => "readln"
  | .read => "read"
  | .writeln => "writeln"
  | .write => "write"

/-- The arguments of a magic function are a null list that nothing reads. -/
def stabAddMagicFunc (st : Stab) (which : Magic) : Stab :=
  let (type, st) := st.pushType ⟨.func .function [] 0, 0, some which⟩
  st.insertFunc which.name type

/-- The types whose entry keeps the name that stab_resolve_type is given; the others free it. -/
def AstType.isComplex : AstType → Bool
  | .array .. | .pointer _ | .record _ => true
  | .boolean | .char | .integer | .real | .ref _ | .string | .void => false

/-- The key of the insertion is the name that was handed to stab_resolve_type, so hash_insert
reads freed memory when that has freed it. -/
def stabAddType (st : Stab) (name : Name) (ty : AstType) : Except Stop Stab :=
  if stabHasLocalType st name then .error (.spanErr s!"{name} is already defined")
  else do
    let (type, st) ← stabResolveType st ty
    if ty.isComplex then .ok (st.insertType name type) else .error .undefined

theorem stabAddType_eq_ok {st st' : Stab} {name : Name} {type : AstType} :
    stabAddType st name type = .ok st' ↔ stabHasLocalType st name = false ∧ type.isComplex = true ∧
      ∃ i st₁, stabResolveType st type = .ok (i, st₁) ∧ st' = st₁.insertType name i := by
  unfold stabAddType
  by_cases known : stabHasLocalType st name = true
  · simp [known]
  · rw [if_neg known, except_bind_eq_ok]
    by_cases complex : type.isComplex = true
    · simp [known, complex, eq_comm]
    · simp [complex]

def stabAddAllTypes (st : Stab) : List AstTypeDecl → Except Stop Stab
  | [] => .ok st
  | t :: types => do
      let st ← stabAddType st t.name t.type
      stabAddAllTypes st types

/-- The comparison recurses through pointers; `fuel` bounds the number of pointers followed. -/
def stabTypesEqFuel (st : Stab) : Nat → Index → Index → Except Stop Bool
  | 0, _, _ => .error .undefined
  | fuel + 1, a, b =>
      match stabType st a, stabType st b with
      | some at', some bt =>
          match at'.ty, bt.ty with
          | .boolean, .boolean | .char, .char | .integer, .integer | .real, .real
          | .string, .string => .ok true
          | .array lower upper elt, .array lower' upper' elt' =>
              .ok (decide (upper = upper' ∧ lower = lower' ∧ elt = elt'))
          | .func .., .func .. | .record _, .record _ => .ok (decide (a = b))
          | .pointer p, .pointer q => stabTypesEqFuel st fuel p q
          | .void, .void => .error .abort
          | _, _ => .ok false
      | _, _ => .error .undefined

/-- Targets of pointers are older than the pointer, so the chain is shorter than the table. -/
def stabTypesEq (st : Stab) (a b : Index) : Except Stop Bool :=
  stabTypesEqFuel st (st.types.length + 1) a b

end Dragon
