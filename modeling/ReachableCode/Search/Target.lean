import ReachableCode.Expr.Reduce
import ReachableCode.Memory.Cursor

/-!
Targets of control transfers, and how expressions become targets without a look at the code around
them. Constants are addresses and labels stay labels; a read of memory whose address resolves is
carried out, and the expression found there is resolved in turn.
-/

namespace ReachableCode

/-- A place in the code. -/
inductive Target where
  | address (a : Address)
  | label (name : String)
  deriving DecidableEq, Repr

namespace Target

/-- The address of a target: a mapped address itself, or the address of an exported label. -/
def addressIn (p : Program) : Target → Except Fault (Option Address)
  | address a => return (← p.sectionAt a).map fun _ => a
  | label name => p.labelAddress name

def cursorIn (p : Program) : Target → Except Fault (Option Cursor)
  | address a => p.cursorAt a
  | label name => return p.labelCursor? name

/-- An address in hexadecimal, or the name of a label. -/
def text : Target → String
  | address a => a.text
  | label name => name

end Target

namespace Expr

/-- The target that an expression denotes if it reduces to a constant or a label. -/
def immediateTarget (e : Expr) : Option Target :=
  match e.reduce with
  | const v => some (.address v.toUInt64)
  | symbol (.label name) => some (.label name)
  | _ => none

/-- Resolves an expression, leaving it to `follow` to resolve what is read from memory. -/
def resolveWith (p : Program) (follow : Expr → Except Fault (Option Target)) :
    Expr → Except Fault (Option Target)
  | load a w o => do
    match ← resolveWith p follow a with
    | none => return none
    | some t =>
      match ← t.cursorIn p with
      | none => return none
      | some c =>
        match ← c.readExpr w o with
        | none => return none
        | some (value, _) => follow value
  | e => return e.immediateTarget

/-- Resolves an expression with at most `depth` relocation targets that read memory themselves
followed within one another. -/
def resolveUpTo (p : Program) : Nat → Expr → Except Fault (Option Target)
  | 0 => resolveWith p fun value => return value.immediateTarget
  | depth + 1 => resolveWith p (resolveUpTo p depth)

end Expr

def Program.relocationCount (p : Program) : Nat :=
  p.sections.foldr (·.relocations.size + ·) 0

/-- The target that an expression denotes. Only relocations put expressions into memory, and one that
is met again while its own target is being resolved would be met forever, so their number bounds
how deep they nest. -/
def Program.resolve (p : Program) (e : Expr) : Except Fault (Option Target) :=
  e.resolveUpTo p p.relocationCount

end ReachableCode
