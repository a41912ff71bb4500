import ReachableCode.Fault

/-!
Instructions: their encoding and text, and what they do to the flow of control. Bytes that are no
instruction have an encoding and a text too, but no flow.
-/

namespace ReachableCode

/-- The most bytes that an instruction keeps of its encoding. -/
def maxInstructionSize : Nat := 16

/-- The encoding and the text of one instruction. -/
structure Instruction where
  address : Address
  encoding : List UInt8
  mnemonic : String
  operands : String
  encoding_length_le : encoding.length ≤ maxInstructionSize
  deriving DecidableEq

namespace Instruction

/-- An instruction with the first bytes of an encoding, as many as are kept. -/
def ofEncoding (address : Address) (encoding : List UInt8) (mnemonic operands : String) :
    Instruction where
  address := address
  encoding := encoding.take maxInstructionSize
  mnemonic := mnemonic
  operands := operands
  encoding_length_le := List.length_take_le _ _

/-- The encoding followed by zeros up to the greatest size. -/
def paddedEncoding (i : Instruction) : List UInt8 :=
  i.encoding ++ List.replicate (maxInstructionSize - i.encoding.length) 0

/-- The mnemonic, and after a tab the operands if there are any. -/
def text (i : Instruction) : String :=
  if i.operands.isEmpty then i.mnemonic else i.mnemonic ++ "\t" ++ i.operands

/-- The encoding as pairs of digits with spaces between them. -/
def bytesText (i : Instruction) : String :=
  " ".intercalate (i.encoding.map Hex.byte)

end Instruction

/-- What an instruction does to the flow of control. -/
structure Flow where
  /-- It transfers control: a jump, a branch or a call. -/
  transfers : Bool
  /-- Control never continues behind it. -/
  stops : Bool
  /-- It leaves a return address: a call. -/
  links : Bool
  deriving DecidableEq, Repr

namespace Flow

/-- Control continues behind the instruction and nowhere else. -/
def plain : Flow := ⟨false, false, false⟩

/-- Control goes elsewhere. -/
def jump : Flow := ⟨true, true, false⟩

/-- Control goes elsewhere or continues. -/
def branch : Flow := ⟨true, false, false⟩

/-- Control goes elsewhere and comes back. -/
def call : Flow := ⟨true, false, true⟩

/-- Control ends: a return, a trap or a halt. -/
def stop : Flow := ⟨false, true, false⟩

end Flow

/-- The outcome of decoding at one address. -/
structure Decoded where
  instruction : Instruction
  /-- None when the bytes are no instruction. -/
  flow : Option Flow
  deriving DecidableEq

namespace Decoded

def size (d : Decoded) : UInt64 :=
  UInt64.ofNat d.instruction.encoding.length

def isValid (d : Decoded) : Bool :=
  d.flow.isSome

end Decoded

end ReachableCode
