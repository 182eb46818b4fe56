import Dragon.Memory.Mirrors

/-! What a run of compile_input frees.

After the analyzer free_program and stab_free free all that is left. A block of
the tree that the analyzer freed, or gave to the table, is freed a second time.
-/

set_option autoImplicit false

namespace Dragon

open Ownership

namespace AstProgram

/-- The analyzer's memory when it has accepted the program. -/
def ledger (prog : AstProgram) : Ledger := Ledger.stabNew.after prog.events

/-- What compile_input frees, in this order: in analyze, in free_program and in stab_free. -/
def frees (prog : AstProgram) : List Block :=
  prog.ledger.freed ++ (freeProgram prog []).map .tree ++ prog.ledger.stabFree

def allocated (prog : AstProgram) : List Block := (prog.owned.blocks []).map .tree ++ prog.ledger.made

theorem nodup_allocated (prog : AstProgram) : prog.allocated.Nodup := by
  refine List.Nodup.append ?_ ?_ ?_
  · exact (Pointer.nodup_blocks (distinct_program prog) []).map fun _ _ same => Block.tree.inj same
  · exact List.nodup_range.map fun _ _ same => Block.table.inj same
  · intro b tree table
    obtain ⟨_, -, rfl⟩ := List.mem_map.mp tree
    obtain ⟨_, -, other⟩ := List.mem_map.mp table
    cases other

theorem count_frees (prog : AstProgram) (b : Block) :
    prog.frees.count b = prog.allocated.count b + (prog.lent.map Block.tree).count b := by
  have settled := settled_after prog.events Ledger.stabNew b
  rw [Ledger.account_stabNew] at settled
  have tree : ((freeProgram prog []).map Block.tree).count b =
      ((prog.owned.blocks []).map Block.tree).count b := by
    have same : (freeProgram prog []).Perm (prog.owned.blocks []) :=
      List.perm_iff_count.mpr (frees_program prog [])
    exact (same.map Block.tree).count_eq b
  simp only [frees, allocated, List.count_append, tree]
  simp only [Ledger.account, List.count_nil] at settled
  simp only [ledger, lent]
  omega

end AstProgram

/-- When the analyzer accepts a program, the entries that stab_free comes to are those of its table.
compile_input then frees each block that was allocated, the names that are lent twice and the others
once. So it frees no block twice just when the program declares no type and has no for loop, not in
a subprogram either. -/
theorem compileInput_frees (prog : AstProgram) (acx : Acx) (code : List Insn)
    (accepted : analyze prog = .ok (acx, code)) :
    Mirrors acx.st prog.ledger ∧ (∀ b ∈ prog.allocated, b ∈ prog.frees) ∧
      (∀ b ∈ prog.frees, prog.frees.count b = 1 + (prog.lent.map Block.tree).count b) ∧
      (prog.frees.Nodup ↔ prog.lends = false) := by
  -- what is lent is part of the tree, so free_program comes to it
  have lent : ∀ b ∈ prog.lent.map Block.tree, b ∈ prog.allocated := by
    intro b member
    obtain ⟨x, here, rfl⟩ := List.mem_map.mp member
    exact List.mem_append_left _ (List.mem_map_of_mem (lent_program prog here))
  have once : ∀ b ∈ prog.frees, prog.frees.count b = 1 + (prog.lent.map Block.tree).count b := by
    intro b member
    have positive := List.count_pos_iff.mpr member
    rw [prog.count_frees] at positive ⊢
    have made : b ∈ prog.allocated := by
      rcases Nat.eq_zero_or_pos (prog.allocated.count b) with none | some
      · exact lent b (List.count_pos_iff.mp (by omega))
      · exact List.count_pos_iff.mp some
    rw [List.count_eq_one_of_mem prog.nodup_allocated made]
  refine ⟨?_, ?_, once, ?_⟩
  · exact mirrors_passes (analyze_passes accepted) rfl (declarations_events prog) mirrors_stabNew
  · intro b member
    have positive := List.count_pos_iff.mpr member
    exact List.count_pos_iff.mp (by rw [prog.count_frees]; omega)
  · rw [← lent_eq_nil]
    constructor
    · intro nodup
      -- a block that is lent is freed by free_program and once more
      by_contra some
      obtain ⟨x, member⟩ := List.exists_mem_of_ne_nil _ some
      have here : Block.tree x ∈ prog.lent.map Block.tree := List.mem_map_of_mem member
      have twice := prog.count_frees (.tree x)
      rw [List.count_eq_one_of_mem prog.nodup_allocated (lent _ here)] at twice
      have most := List.nodup_iff_count_le_one.mp nodup (.tree x)
      have positive := List.count_pos_iff.mpr here
      omega
    · intro none
      rw [List.nodup_iff_count_le_one]
      intro b
      rw [prog.count_frees, none, List.map_nil, List.count_nil]
      exact List.nodup_iff_count_le_one.mp prog.nodup_allocated b

-- var i: integer; begin for i := 1 to 2 do end.
def countTwice : AstProgram :=
  ⟨[], [⟨["i"], .integer⟩], [], [], .stmts [.foor "i" (.lit "1") (.lit "2") .null]⟩

-- The name in the loop is freed twice.
theorem countTwice_frees : ∃ acx : Acx, Mirrors acx.st countTwice.ledger ∧
    countTwice.frees.count (.tree [.id, .elt, .stmts, .body]) = 2 ∧ ¬ countTwice.frees.Nodup := by
  have accepted : (analyze countTwice).toOption.isSome = true := by decide +kernel
  obtain ⟨⟨acx, code⟩, result⟩ := exists_ok_of_isSome accepted
  obtain ⟨mirrors, all, once, nodup⟩ := compileInput_frees countTwice acx code result
  refine ⟨acx, mirrors, ?_, ?_⟩
  · rw [once _ (by decide)]
    rfl
  · rw [nodup]
    decide

end Dragon
