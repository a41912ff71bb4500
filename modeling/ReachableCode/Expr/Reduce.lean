import ReachableCode.Expr.Basic

/-!
Reduction of expressions. Constant parts are computed and added or subtracted zeros dropped;
symbols and reads of memory stay, so the result is a constant only when nothing unknown is left.
-/

namespace ReachableCode

def UnaryOp.fold (op : UnaryOp) : Expr → Expr
  | .const v => .const (op.apply v)
  | e => .unary op e

/-- Applies an operation to reduced operands. Zero is dropped on the right of a sum or a difference
and on the left of a sum. -/
def BinaryOp.fold (op : BinaryOp) : Expr → Expr → Expr
  | .const a, .const b => .const (op.apply a b)
  | e, .const b => if b = 0 ∧ (op = .add ∨ op = .sub) then e else .binary op e (.const b)
  | .const a, e => if a = 0 ∧ op = .add then e else .binary op (.const a) e
  | d, e => .binary op d e

namespace Expr

/-- Computes what can be computed without knowing a symbol or reading memory. -/
def reduce : Expr → Expr
  | const v => const v
  | symbol s => symbol s
  | unary op e => op.fold e.reduce
  | binary op l r => op.fold l.reduce r.reduce
  | load a w o => load a.reduce w o

/-- The value of an expression that reduces to a constant. -/
def constant? (e : Expr) : Option Int64 :=
  match e.reduce with
  | const v => some v
  | _ => none

/-- The name of the label that an expression reduces to. -/
def label? (e : Expr) : Option String :=
  match e.reduce with
  | symbol (.label name) => some name
  | _ => none

end Expr

end ReachableCode
