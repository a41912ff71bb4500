import ReachableCode.Text.Hex

/-!
Faults. Addresses and offsets are 64-bit words and their arithmetic never wraps: a sum or a
difference that does not fit, and an operation whose precondition does not hold, is a fault, which
ends the whole operation it occurs in.
-/

namespace ReachableCode

abbrev Address := UInt64

/-- A distance in bytes from the start of a section. -/
abbrev Offset := UInt64

/-- Why an operation was given up. -/
inductive Fault where
  /-- A sum of addresses does not fit in 64 bits. -/
  | addOverflow
  /-- A difference of addresses is negative. -/
  | subOverflow
  /-- An instruction was added to a block that does not exist. -/
  | noOpenBlock (block : Address)
  /-- A split was asked for at an address where no instruction was decoded. -/
  | undecodedSplit (address : Address)
  /-- A split was asked for of a block that does not exist. -/
  | noBlockToSplit (block : Address)
  /-- A split was asked for at an address that starts no instruction after the first of the block. -/
  | notBoundary (address block : Address)
  /-- An element past the end of a sequence was asked for. -/
  | indexOutOfRange (length index : Nat)
  deriving DecidableEq, Repr

def Fault.message : Fault → String
  | .addOverflow => "attempt to add with overflow"
  | .subOverflow => "attempt to subtract with overflow"
  | .noOpenBlock block => "no open block at " ++ Hex.prefixed block.toNat
  | .undecodedSplit address => "cannot split at undecoded address " ++ Hex.prefixed address.toNat
  | .noBlockToSplit block => "no block at " ++ Hex.prefixed block.toNat ++ " to split"
  | .notBoundary address block =>
    Hex.prefixed address.toNat ++ " is not an instruction boundary inside block "
      ++ Hex.prefixed block.toNat
  | .indexOutOfRange length index =>
    "index out of bounds: the len is " ++ toString length ++ " but the index is " ++ toString index

namespace Address

abbrev count : Nat := UInt64.size

/-- The address `n` bytes after `a`. -/
def plus (a n : Address) : Except Fault Address :=
  if a.toNat + n.toNat < count then .ok (a + n) else .error .addOverflow

/-- The address `n` bytes before `a`. -/
def minus (a n : Address) : Except Fault Address :=
  if n ≤ a then .ok (a - n) else .error .subOverflow

/-- The text of an address: `0x` and its digits. -/
def text (a : Address) : String :=
  Hex.prefixed a.toNat

end Address

end ReachableCode
