import ReachableCode.Expr.Basic

/-!
The general purpose registers of the x86 machines. Many names cover only a part of a register, so an
expression always speaks of the full register, of 64 or of 32 bits, and cuts the part out.
-/

namespace ReachableCode.X86

/-- The two modes: 32-bit and 64-bit. -/
inductive Mode where
  | narrow | wide
  deriving DecidableEq, Repr

namespace Mode

def word : Mode → Width
  | narrow => .u32
  | wide => .u64

/-- The letter before the common name of a full register. -/
def letter : Mode → String
  | narrow => "e"
  | wide => "r"

/-- The registers that a call may leave changed. -/
def volatileRegisters : Mode → List String
  | narrow => ["eax", "ecx", "edx"]
  | wide => ["rax", "rcx", "rdx", "rsi", "rdi", "r8", "r9", "r10", "r11"]

end Mode

/-- The part of a full register that a name covers. -/
inductive Part where
  | full | low32 | low16 | low8 | high8
  deriving DecidableEq, Repr

/-- The common names of the registers that have no number. -/
def commonNames : List String :=
  ["ax", "bx", "cx", "dx", "si", "di", "bp", "sp"]

/-- The names of single bytes, with the common name of the register and the byte meant. -/
def byteNames : List (String × String × Part) :=
  [("al", "ax", .low8), ("bl", "bx", .low8), ("cl", "cx", .low8), ("dl", "dx", .low8),
    ("ah", "ax", .high8), ("bh", "bx", .high8), ("ch", "cx", .high8), ("dh", "dx", .high8),
    ("sil", "si", .low8), ("dil", "di", .low8), ("bpl", "bp", .low8), ("spl", "sp", .low8)]

/-- The full register of `r8` to `r15` and of their shorter forms, and the part that the last letter
tells. -/
def numbered? (name : String) : Option (String × Part) :=
  match name.toList with
  | 'r' :: rest =>
    let letters := (rest.reverse.takeWhile fun c => c = 'd' ∨ c = 'w' ∨ c = 'b').reverse
    let number := rest.take (rest.length - letters.length)
    if number.isEmpty ∨ !number.all Char.isDigit then none
    else some (String.ofList ('r' :: number), match letters with
      | ['d'] => .low32
      | ['w'] => .low16
      | ['b'] => .low8
      | _ => .full)
  | _ => none

/-- The common name behind a name without number, and the part covered. In 32-bit mode the names with
`e` are full registers. -/
def common? (mode : Mode) (name : String) : Option (String × Part) :=
  let word? := commonNames.findSome? fun w =>
    if name = "r" ++ w then some (w, .full)
    else if name = "e" ++ w then some (w, if mode = .wide then .low32 else .full)
    else if name = w then some (w, .low16)
    else none
  word?.or (byteNames.lookup name)

/-- The full register behind a name and the part that the name covers. Other registers stand for
themselves. -/
def fullRegister (mode : Mode) (name : String) : String × Part :=
  match numbered? name with
  | some r => r
  | none =>
    match common? mode name with
    | some (common, part) => (mode.letter ++ common, part)
    | none => (name, .full)

/-- The bits of an expression that are set in `bits`. -/
def keepBits (e : Expr) (bits : Int64) : Expr :=
  .binary .and e (.const bits)

/-- The value of a register in terms of the full register. -/
def registerValue (mode : Mode) (name : String) : Expr :=
  let (full, part) := fullRegister mode name
  let r := Expr.register full
  match part with
  | .full => r
  | .low32 => keepBits r 0xffffffff
  | .low16 => keepBits r 0xffff
  | .low8 => keepBits r 0xff
  | .high8 => keepBits (.binary .shr r (.const 8)) 0xff

end ReachableCode.X86
