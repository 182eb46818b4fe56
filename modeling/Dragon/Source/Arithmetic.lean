import Dragon.Ast

/-! What an arithmetic expression of the source means, in 64-bit wrap-around arithmetic. -/

set_option autoImplicit false

namespace Dragon

def Token.apply (op : Token) (a b : BitVec 64) : BitVec 64 :=
  match op with
  | .plus => a + b
  | .minus => a - b
  | .star => a * b
  | _ => 0

namespace AstExpr

/-- The value of an expression over literals, variables, +, - and *. -/
def value (store : Name → BitVec 64) : AstExpr → BitVec 64
  | .lit s => BitVec.ofNat 64 ((decimal s).getD 0)
  | .path p => store p.first
  | .bin op left right => op.apply (left.value store) (right.value store)
  | _ => 0

/-- The registers an expression needs, its result included. -/
def need : AstExpr → Nat
  | .bin _ left right => max left.need (1 + right.need)
  | _ => 1

def vars : AstExpr → List Name
  | .bin _ left right => left.vars ++ right.vars
  | .path p => [p.first]
  | _ => []

theorem need_pos : ∀ e : AstExpr, 0 < e.need
  | .bin _ left right => by
      have := left.need_pos
      simp only [need]
      omega
  | .app .. | .deref _ | .idx .. | .lit _ | .path _ | .un .. | .addrof _ => Nat.one_pos

theorem value_congr {store store' : Name → BitVec 64} : ∀ {e : AstExpr},
    (∀ x ∈ e.vars, store x = store' x) → e.value store = e.value store'
  | .bin op left right, same => by
      have one := left.value_congr fun x member => same x (List.mem_append_left _ member)
      have two := right.value_congr fun x member => same x (List.mem_append_right _ member)
      simp only [value, one, two]
  | .path p, same => same p.first List.mem_cons_self
  | .app .., _ | .deref _, _ | .idx .., _ | .lit _, _ | .un .., _ | .addrof _, _ => rfl

end AstExpr

end Dragon
