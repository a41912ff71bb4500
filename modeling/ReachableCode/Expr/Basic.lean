import ReachableCode.Expr.Width
import ReachableCode.Text.Hex

/-!
Symbolic integer expressions: 64-bit constants, named symbols, wrapping arithmetic and reads of
memory. Jump targets are such expressions until the values of their symbols are known.
-/

namespace ReachableCode

/-- A name inside an expression. -/
inductive Symbol where
  /-- A label, found in the export tables of the sections. -/
  | label (name : String)
  /-- A register of the machine. -/
  | register (name : String)
  deriving DecidableEq, Hashable, Ord, Repr

/-- The name of a symbol of either kind. -/
def Symbol.name : Symbol → String
  | label name | register name => name

inductive UnaryOp where
  | neg | not
  deriving DecidableEq, Hashable, Ord, Repr

namespace UnaryOp

/-- Negation wraps, complement is bitwise. -/
def apply : UnaryOp → Int64 → Int64
  | neg, v => -v
  | not, v => ~~~v

def sign : UnaryOp → String
  | neg => "-"
  | not => "~"

end UnaryOp

inductive BinaryOp where
  | add | sub | mul | and | or | xor | shl | shr
  deriving DecidableEq, Hashable, Ord, Repr

namespace BinaryOp

/-- All arithmetic wraps. Shift counts are taken modulo 64, and a right shift brings in zeros. -/
def apply : BinaryOp → Int64 → Int64 → Int64
  | add, l, r => l + r
  | sub, l, r => l - r
  | mul, l, r => l * r
  | and, l, r => l &&& r
  | or, l, r => l ||| r
  | xor, l, r => l ^^^ r
  | shl, l, r => (l.toUInt64 <<< r.toUInt64).toInt64
  | shr, l, r => (l.toUInt64 >>> r.toUInt64).toInt64

def sign : BinaryOp → String
  | add => "+"
  | sub => "-"
  | mul => "*"
  | and => "&"
  | or => "|"
  | xor => "^"
  | shl => "<<"
  | shr => ">>"

end BinaryOp

/-- A symbolic integer expression. -/
inductive Expr where
  | const (value : Int64)
  | symbol (s : Symbol)
  | unary (op : UnaryOp) (operand : Expr)
  | binary (op : BinaryOp) (left right : Expr)
  /-- The integer of that width and byte order at an address. -/
  | load (address : Expr) (width : Width) (order : ByteOrder)
  deriving DecidableEq, Hashable, Repr

namespace Expr

def label (name : String) : Expr :=
  symbol (.label name)

def register (name : String) : Expr :=
  symbol (.register name)

instance : Add Expr := ⟨binary .add⟩
instance : Sub Expr := ⟨binary .sub⟩
instance : Inhabited Expr := ⟨const 0⟩

/-- Whether a symbol occurs anywhere in an expression. -/
def mentions (s : Symbol) : Expr → Bool
  | const _ => false
  | symbol t => t = s
  | unary _ e => e.mentions s
  | binary _ l r => l.mentions s || r.mentions s
  | load a _ _ => a.mentions s

/-- The text of a constant: its sign, `0x` and the digits of its size. -/
def constText (v : Int64) : String :=
  (if v < 0 then "-0x" else "0x") ++ Hex.digits v.toInt.natAbs

/-- The text of an expression. Every binary operation stands in parentheses. -/
def text : Expr → String
  | const v => constText v
  | symbol s => s.name
  | unary op e => op.sign ++ e.text
  | binary op l r => "(" ++ l.text ++ " " ++ op.sign ++ " " ++ r.text ++ ")"
  | load a w o => w.name ++ o.name ++ "[" ++ a.text ++ "]"

end Expr

end ReachableCode
