import ReachableCode.Expr.Basic

/-!
Substitution. All bound symbols are replaced at once, in the addresses of memory reads too, and
what they are replaced by is not looked at again.
-/

namespace ReachableCode

/-- What each symbol stands for; unbound symbols have no expression. -/
abbrev Bindings := Symbol → Option Expr

namespace Bindings

def single (s : Symbol) (e : Expr) : Bindings :=
  fun t => if t = s then some e else none

/-- Binds the symbols of a list; of two pairs with one symbol the later counts. -/
def ofList (pairs : List (Symbol × Expr)) : Bindings :=
  fun t => (pairs.reverse.find? (·.1 = t)).map (·.2)

end Bindings

def Expr.bind (b : Bindings) : Expr → Expr
  | const v => const v
  | symbol s => (b s).getD (symbol s)
  | unary op e => unary op (e.bind b)
  | binary op l r => binary op (l.bind b) (r.bind b)
  | load a w o => load (a.bind b) w o

end ReachableCode
