import ReachableCode.Expr.Basic

/-!
The order of expressions: constants first, then symbols, unary operations, binary operations and
reads of memory; within one kind the parts are compared in turn, and names by their characters.
-/

namespace ReachableCode.Expr

/-- The place of an expression's kind in the order. -/
def rank : Expr → Nat
  | const _ => 0
  | symbol _ => 1
  | unary .. => 2
  | binary .. => 3
  | load .. => 4

/-- Compares the kinds, then the parts from left to right. -/
def order : Expr → Expr → Ordering
  | const v, const w => compare v w
  | symbol s, symbol t => compare s t
  | unary p d, unary q e => (compare p q).then (order d e)
  | binary p a b, binary q c d => (compare p q).then ((order a c).then (order b d))
  | load a v o, load b w p => (order a b).then ((compare v w).then (compare o p))
  | d, e => compare d.rank e.rank

instance : Ord Expr := ⟨order⟩

end ReachableCode.Expr
