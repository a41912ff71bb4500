import ReachableCode.Code.Instruction

/-!
What the bytes of one x86 instruction mean: its text, its operands, and the registers that it writes
without naming them.
-/

namespace ReachableCode.X86

inductive Access where
  | read | write | readWrite
  deriving DecidableEq, Repr

def Access.writes : Access → Bool
  | read => false
  | write | readWrite => true

/-- The address `base + index * scale + displacement`. -/
structure MemoryRef where
  base : Option String
  index : Option String
  scale : Int64
  displacement : Int64
  deriving DecidableEq, Repr

/-- What an operand is. -/
inductive OperandKind where
  | register (name : String)
  | immediate (value : Int64)
  | memory (ref : MemoryRef)
  deriving DecidableEq, Repr

/-- An operand, with its size in bytes; not every operand tells its access. -/
structure Operand where
  kind : OperandKind
  size : Nat
  access : Option Access
  deriving DecidableEq, Repr

/-- One instruction as it stands at an address. -/
structure Reading where
  /-- The number of bytes of the encoding. -/
  size : Nat
  mnemonic : String
  operandText : String
  operands : List Operand
  /-- The registers that are written without being operands. -/
  implicitWrites : List String
  deriving DecidableEq, Repr

end ReachableCode.X86
