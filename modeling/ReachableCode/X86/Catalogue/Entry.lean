import ReachableCode.X86.Reading
import ReachableCode.X86.Register

/-!
Entries of the catalogue of x86 encodings. An entry gives the reading of one encoding at every
address. Only relative transfers read differently at different addresses: their operand counts from
the end of the instruction.
-/

namespace ReachableCode.X86

inductive Form where
  /-- The same at every address. -/
  | fixed (text : String) (operands : List Operand)
  /-- One code address, given by its distance from the end of the instruction. -/
  | relative (distance : Int64) (size : Nat)
  deriving DecidableEq, Repr

/-- One encoding. -/
structure Entry where
  encoding : List UInt8
  mnemonic : String
  form : Form
  implicitWrites : List String
  deriving DecidableEq, Repr

namespace Entry

def reg (name : String) (size : Nat) (access : Access) : Operand :=
  { kind := .register name, size := size, access := some access }

/-- A register operand that does not tell its access. -/
def regUntold (name : String) (size : Nat) : Operand :=
  { kind := .register name, size := size, access := none }

/-- An immediate operand, which does not tell its access. -/
def imm (value : Int64) (size : Nat) : Operand :=
  { kind := .immediate value, size := size, access := none }

def mem (base index : Option String) (scale displacement : Int64) (size : Nat) (access : Access) :
    Operand :=
  { kind := .memory { base, index, scale, displacement }, size := size, access := some access }

/-- A memory operand that does not tell its access. -/
def memUntold (base index : Option String) (scale displacement : Int64) (size : Nat) : Operand :=
  { kind := .memory { base, index, scale, displacement }, size := size, access := none }

/-- The code address at a distance from the end of an instruction, which wraps at the size of an
address. -/
def codeAddress (mode : Mode) (a : Address) (length : Nat) (distance : Int64) : UInt64 :=
  let target := a + UInt64.ofNat length + distance.toUInt64
  match mode with
  | .wide => target
  | .narrow => target &&& 0xffffffff

/-- The text of a code address: hexadecimal from ten on. -/
def codeAddressText (target : UInt64) : String :=
  if target < 10 then toString target.toNat else Hex.prefixed target.toNat

/-- The reading of an entry at an address. -/
def reading (e : Entry) (mode : Mode) (a : Address) : Reading :=
  match e.form with
  | .fixed text operands =>
    { size := e.encoding.length, mnemonic := e.mnemonic, operandText := text, operands := operands
      implicitWrites := e.implicitWrites }
  | .relative distance size =>
    let target := codeAddress mode a e.encoding.length distance
    { size := e.encoding.length, mnemonic := e.mnemonic, operandText := codeAddressText target
      operands := [imm target.toInt64 size], implicitWrites := e.implicitWrites }

end Entry

end ReachableCode.X86
