import Dragon.Memory.Events

/-! The table of the analyzer and its memory.

Each call into the symbol table adds as many variables and types to the table as
to its memory, so stab_free comes to the entries of the table.
-/

set_option autoImplicit false

namespace Dragon

/-- How many elements the list has that free_stab_type frees of a type. -/
def StabType.listed (t : StabType) : Option Nat :=
  match t.ty with
  | .record fields => some fields.length
  | .func _ args _ => if t.magic.isSome then none else some args.length
  | _ => none

def TypeBlocks.listed (t : TypeBlocks) : Option Nat := t.list.map fun list => list.2.length

/-- The table has as many variables and types as its memory, and their lists are as long. -/
structure Mirrors (st : Stab) (l : Ledger) : Prop where
  vars : st.vars.length = l.vars.length
  types : st.types.map StabType.listed = l.types.map TypeBlocks.listed

namespace Mirrors

variable {st st' : Stab} {l : Ledger}

theorem alloc (mirrors : Mirrors st l) : Mirrors st l.alloc := ⟨mirrors.vars, mirrors.types⟩

theorem free (mirrors : Mirrors st l) (blocks : List Block) : Mirrors st (l.free blocks) :=
  ⟨mirrors.vars, mirrors.types⟩

theorem pushVar (mirrors : Mirrors st l) (v : StabVar) (blocks : VarBlocks) :
    Mirrors (st.pushVar v).2 (l.pushVar blocks) := by
  refine ⟨?_, mirrors.types⟩
  rw [Stab.pushVar, Ledger.pushVar, List.length_append, List.length_append, mirrors.vars]
  rfl

theorem pushType (mirrors : Mirrors st l) {t : StabType} {blocks : TypeBlocks}
    (listed : t.listed = blocks.listed) : Mirrors (st.pushType t).2 (l.pushType blocks) := by
  refine ⟨mirrors.vars, ?_⟩
  simp only [Stab.pushType, Ledger.pushType, List.map_append, List.map_cons, List.map_nil,
    mirrors.types, listed]

theorem listAdd (mirrors : Mirrors st l) (list : Block) (elements : List (Block × List Block))
    (element : List Block) : Mirrors st (Ledger.listAdd list elements element l).2 := by
  cases elements with
  | nil => exact mirrors
  | cons first rest => exact mirrors.alloc

end Mirrors

theorem length_listAdd (list : Block) (elements : List (Block × List Block)) (element : List Block)
    (l : Ledger) : (Ledger.listAdd list elements element l).1.length = elements.length + 1 := by
  cases elements with
  | nil => rfl
  | cons first rest => exact List.length_append

mutual

theorem mirrors_type : ∀ (type : AstType) {st st' : Stab} {i : Index} {l : Ledger} (name : Block),
    stabResolveType st type = .ok (i, st') → Mirrors st l →
      Mirrors st' (Ledger.stabResolveType name type l)
  | .pointer target, st, st', i, l, name, resolved, mirrors => by
      simp only [stabResolveType, except_bind_eq_ok] at resolved
      obtain ⟨⟨t, st₁⟩, inner, last⟩ := resolved
      cases last
      exact (mirrors_type target l.alloc.fresh inner mirrors.alloc.alloc).pushType rfl
  | .record fields, st, st', i, l, name, resolved, mirrors => by
      simp only [stabResolveType, except_bind_eq_ok] at resolved
      obtain ⟨⟨fs, st₁⟩, inner, last⟩ := resolved
      cases last
      have list := mirrors_fields fields l.alloc.fresh [] inner mirrors.alloc.alloc
      refine list.2.pushType ?_
      simp only [StabType.listed, TypeBlocks.listed, Option.map_some, list.1, List.length_nil,
        Nat.zero_add]
  | .array lower upper eltType, st, st', i, l, name, resolved, mirrors => by
      simp only [stabResolveType, except_bind_eq_ok] at resolved
      obtain ⟨⟨t, st₁⟩, inner, last⟩ := resolved
      cases here : stabType st₁ t with
      | none =>
        rw [here] at last
        cases last
      | some elt =>
        rw [here] at last
        cases last
        exact (mirrors_type eltType l.alloc.fresh inner mirrors.alloc.alloc).pushType rfl
  | .ref _, st, st', i, l, name, resolved, mirrors
  | .boolean, st, st', i, l, name, resolved, mirrors
  | .char, st, st', i, l, name, resolved, mirrors
  | .integer, st, st', i, l, name, resolved, mirrors
  | .real, st, st', i, l, name, resolved, mirrors
  | .string, st, st', i, l, name, resolved, mirrors
  | .void, st, st', i, l, name, resolved, mirrors => by
      cases resolved
      exact mirrors.free [name]

theorem mirrors_fields : ∀ (fields : List (Name × AstType)) {st st' : Stab}
    {fs : List (Name × Index)} {l : Ledger} (list : Block) (elements : List (Block × List Block)),
    stabResolveFields st fields = .ok (fs, st') → Mirrors st l →
      (Ledger.stabResolveFields list elements fields l).1.length = elements.length + fs.length ∧
        Mirrors st' (Ledger.stabResolveFields list elements fields l).2
  | [], st, st', fs, l, list, elements, resolved, mirrors => by
      cases resolved
      exact ⟨rfl, mirrors⟩
  | (field, type) :: fields, st, st', fs, l, list, elements, resolved, mirrors => by
      simp only [stabResolveFields, except_bind_eq_ok] at resolved
      obtain ⟨⟨t, st₁⟩, inner, ⟨rest, st₂⟩, later, last⟩ := resolved
      cases last
      have made := mirrors_type type l.fresh inner mirrors.alloc
      simp only [Ledger.stabResolveFields]
      generalize Ledger.stabResolveType l.fresh type l.alloc = l₁ at made ⊢
      have entered := made.alloc.alloc.listAdd list elements ([l₁.alloc.fresh] ++ [l₁.fresh])
      have grown := length_listAdd list elements ([l₁.alloc.fresh] ++ [l₁.fresh]) l₁.alloc.alloc
      generalize Ledger.listAdd list elements ([l₁.alloc.fresh] ++ [l₁.fresh]) l₁.alloc.alloc = more
        at entered grown ⊢
      have others := mirrors_fields fields list more.1 later entered
      refine ⟨?_, others.2⟩
      rw [others.1, grown, List.length_cons]
      omega

end

theorem mirrors_retty {retty : Option AstType} {st st' : Stab} {i : Index} {l : Ledger} (name : Block)
    (resolved : stabResolveRetty st retty = .ok (i, st')) (mirrors : Mirrors st l) :
    Mirrors st' (Ledger.stabResolveRetty name retty l) := by
  cases retty with
  | none =>
    cases resolved
    exact mirrors.free [name]
  | some type => exact mirrors_type type name resolved mirrors

theorem mirrors_addVar {st st' : Stab} {name : Name} {type id : Index} {off off' : Int} {up : Bool}
    {l : Ledger} (own : Block) (added : stabAddVar st name type off up = .ok (id, off', st'))
    (mirrors : Mirrors st l) : Mirrors st' (Ledger.stabAddVar own l) := by
  unfold stabAddVar at added
  split at added
  · cases added
  · cases added
    have pushed := mirrors.alloc.pushVar ⟨type, name, -1, off, false⟩ ⟨l.fresh, own⟩
    exact ⟨pushed.vars, pushed.types⟩

theorem mirrors_formals {formals : List (Name × AstType)} {st st' : Stab} {args : List Index}
    {l : Ledger} (list : Block) (elements : List (Block × List Block))
    (resolved : stabResolveFormals st formals = .ok (args, st')) (mirrors : Mirrors st l) :
    (Ledger.stabResolveFormals list elements formals l).1.length = elements.length + args.length ∧
      Mirrors st' (Ledger.stabResolveFormals list elements formals l).2 := by
  induction formals generalizing st args elements l with
  | nil =>
    cases resolved
    exact ⟨rfl, mirrors⟩
  | cons formal formals ih =>
    simp only [stabResolveFormals, except_bind_eq_ok] at resolved
    obtain ⟨⟨t, st₁⟩, inner, ⟨rest, st₂⟩, later, last⟩ := resolved
    cases last
    have made := mirrors_type formal.2 l.fresh inner mirrors.alloc
    simp only [Ledger.stabResolveFormals]
    generalize Ledger.stabResolveType l.fresh formal.2 l.alloc = l₁ at made ⊢
    have pushed := made.alloc.alloc.pushVar ⟨t, formal.1, -1, -1, false⟩ ⟨l₁.alloc.fresh, l₁.fresh⟩
    have entered : Mirrors (stabAddVarNoOffset st₁ formal.1 t).2 (Ledger.stabAddVar l₁.fresh l₁.alloc) :=
      ⟨pushed.vars, pushed.types⟩
    generalize Ledger.stabAddVar l₁.fresh l₁.alloc = l₂ at entered ⊢
    have added := entered.listAdd list elements []
    have grown := length_listAdd list elements [] l₂
    generalize Ledger.listAdd list elements [] l₂ = more at added grown ⊢
    have others := ih more.1 later added
    refine ⟨?_, others.2⟩
    rw [others.1, grown, List.length_cons]
    omega

theorem mirrors_func {sig : AstSig} {name : Name} {st st' : Stab} {l : Ledger} (own : Block)
    (added : stabAddFunc st name sig = .ok st') (mirrors : Mirrors st l) :
    Mirrors st' (Ledger.stabResolveSig own sig l) := by
  unfold stabAddFunc at added
  split at added
  · cases added
  · simp only [stabResolveSig, except_bind_eq_ok] at added
    obtain ⟨⟨type, st₁⟩, ⟨⟨retty, st₂⟩, first, ⟨args, st₃⟩, formals, made⟩, last⟩ := added
    cases last
    cases made
    have result := mirrors_retty l.alloc.fresh first mirrors.alloc.alloc
    simp only [Ledger.stabResolveSig]
    generalize Ledger.stabResolveRetty l.alloc.fresh sig.retty l.alloc.alloc = l₁ at result ⊢
    have list := mirrors_formals l₁.fresh [] formals result.alloc
    generalize Ledger.stabResolveFormals l₁.fresh [] sig.formals l₁.alloc = more at list ⊢
    have listed : StabType.listed ⟨.func sig.type args retty, abiClosureSize, none⟩ =
        TypeBlocks.listed ⟨l.fresh, own, some (l₁.fresh, more.1)⟩ := by
      simp [StabType.listed, TypeBlocks.listed, list.1]
    have pushed := list.2.pushType listed
    exact ⟨pushed.vars, pushed.types⟩

theorem mirrors_names {names : List Name} {st st' : Stab} {type : Index} {up : Bool}
    {off off' : Int} {l : Ledger} (added : stabAddNames st type up names off = .ok (off', st'))
    (mirrors : Mirrors st l) : Mirrors st' (Ledger.stabAddNames names l) := by
  induction names generalizing st off l with
  | nil =>
    cases added
    exact mirrors
  | cons name names ih =>
    unfold stabAddNames at added
    split at added
    · cases added
    · simp only [except_bind_eq_ok] at added
      obtain ⟨⟨id, off₁, st₁⟩, first, rest⟩ := added
      exact ih rest (mirrors_addVar l.fresh first mirrors.alloc)

theorem mirrors_declare {e : Declaration} {st st' : Stab} {l : Ledger} (place : Place)
    (step : e.Step st st') (mirrors : Mirrors st l) : Mirrors st' (Ledger.declare place e l) := by
  cases step with
  | enter => exact ⟨mirrors.vars, mirrors.types⟩
  | leave left =>
    unfold stabLeave at left
    split at left
    · cases left
    · cases left
      exact ⟨mirrors.vars, mirrors.types⟩
  | @type t _ _ added =>
    obtain ⟨-, -, type, st₁, resolved, rfl⟩ := stabAddType_eq_ok.mp added
    have made := mirrors_type t.type (.tree (.name :: place)) resolved mirrors
    exact ⟨made.vars, made.types⟩
  | @decls d _ _ _ _ _ added =>
    simp only [stabAddDecls, except_bind_eq_ok] at added
    obtain ⟨⟨type, st₁⟩, resolved, names⟩ := added
    exact mirrors_names names (mirrors_type d.type l.fresh resolved mirrors.alloc)
  | result resolved added =>
    exact mirrors_addVar l.fresh added (mirrors_retty l.alloc.fresh resolved mirrors.alloc.alloc)
  | func added => exact mirrors_func l.fresh added mirrors.alloc
  | @magic which st =>
    have listed : StabType.listed ⟨.func .function [] 0, 0, some which⟩ =
        TypeBlocks.listed ⟨l.alloc.fresh, l.fresh, none⟩ := rfl
    have pushed := mirrors.alloc.alloc.pushType listed
    exact ⟨pushed.vars, pushed.types⟩

theorem mirrors_stabNew : Mirrors stabNew Ledger.stabNew := ⟨rfl, rfl⟩

theorem mirrors_loops {events : List Event} {st : Stab} {l : Ledger}
    (loops : ∀ e ∈ events, e.declaration = none) (mirrors : Mirrors st l) :
    Mirrors st (l.after events) := by
  induction events generalizing l with
  | nil => exact mirrors
  | cons e events ih =>
    cases e with
    | declare e place => cases loops _ List.mem_cons_self
    | loop id =>
      exact ih (fun e member => loops e (List.mem_cons_of_mem _ member)) ⟨mirrors.vars, mirrors.types⟩

theorem after_append (l : Ledger) (before rest : List Event) :
    l.after (before ++ rest) = (l.after before).after rest := List.foldl_append ..

theorem mirrors_passes {ds ds' : List Declaration} {s t : Stab × Int}
    (passes : Passes Made ds s ds' t) (all : ds' = []) {events : List Event} {l : Ledger}
    (calls : events.filterMap Event.declaration = ds) (mirrors : Mirrors s.1 l) :
    Mirrors t.1 (l.after events) := by
  induction passes generalizing events l with
  | here =>
    subst all
    exact mirrors_loops (List.filterMap_eq_nil_iff.mp calls) mirrors
  | capture _ _ _ ih =>
    -- a capture writes to a variable that is there already
    refine ih all calls ⟨?_, mirrors.types⟩
    rw [← mirrors.vars]
    exact List.length_set
  | declare _ step _ ih =>
    -- the paths of loops before the next call leave the table as it is
    obtain ⟨before, event, rest, rfl, loops, called, later⟩ := List.filterMap_eq_cons_iff.mp calls
    rw [after_append]
    have reached := mirrors_loops loops mirrors
    cases event with
    | loop id => cases called
    | declare e place =>
      cases called
      have made := mirrors_declare place step reached
      have finished : Mirrors _ (Ledger.after (Ledger.declare place _ (l.after before)) rest) :=
        ih all later made
      exact finished

end Dragon
