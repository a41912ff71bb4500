import ReachableCode.Code.Decoder
import ReachableCode.Expr.Bind
import ReachableCode.Expr.Reduce
import ReachableCode.X86.Flow
import ReachableCode.X86.Reading
import ReachableCode.X86.Register

/-!
The decoder of the x86 machines. How bytes are read is a parameter; from a reading follow the flow of
an instruction, its jump targets, and what an expression becomes going backwards.

Going backwards looks at the first operand and at the implicit writes. Moves, additions and
subtractions of constants, address computations and the clearing of a register are followed; any
other write found there of a register that the expression mentions loses the expression.
-/

namespace ReachableCode.X86

/-- A machine: its mode, and how the bytes at an address are read. -/
structure Machine where
  mode : Mode
  read : Address → List UInt8 → Option Reading

/-- The address of a memory operand. The instruction pointer is the address behind the instruction. -/
def MemoryRef.address (mode : Mode) (next : Address) (ref : MemoryRef) : Expr :=
  let e := Expr.const ref.displacement
  let e := match ref.base with
    | none => e
    | some base =>
      (if base = "rip" ∨ base = "eip" then Expr.const next.toInt64 else registerValue mode base) + e
  let e := match ref.index with
    | none => e
    | some index => e + Expr.binary .mul (registerValue mode index) (.const ref.scale)
  e.reduce

/-- The value of an operand that is read. -/
def Operand.value (mode : Mode) (next : Address) (op : Operand) : Expr :=
  match op.kind with
  | .immediate v => .const v
  | .register name => registerValue mode name
  | .memory ref =>
    .load (ref.address mode next) ((Width.unsigned? op.size).getD mode.word) .little

/-- Whether an instruction writes its first operand. Where the access is not told, only comparisons
and pushes do not. -/
def Operand.isWritten (mnemonic : String) (op : Operand) : Bool :=
  match op.access with
  | some access => access.writes
  | none => mnemonic ∉ ["cmp", "test", "push", "bt"]

/-- What an instruction writes to its destination register, in terms of the state before it; none
when that is not followed. -/
def result? (mode : Mode) (next : Address) (mnemonic destination : String)
    (source : Option Operand) : Option Expr := do
  let op ← source
  match mnemonic, op.kind with
  | "mov", _ | "movzx", _ => op.value mode next
  | "movsx", .immediate v | "movsxd", .immediate v => some (.const v)
  | "movsx", .memory ref | "movsxd", .memory ref =>
    let w ← Width.unsigned? op.size
    some (.load (ref.address mode next) w.signed .little)
  | "lea", .memory ref => ref.address mode next
  | "add", .immediate v => registerValue mode destination + Expr.const v
  | "sub", .immediate v => registerValue mode destination - Expr.const v
  | "xor", .register name => if name = destination then some (.const 0) else none
  | _, _ => none

/-- The full register after a write of a part. A write of 32 bits clears the upper half; of shorter
writes the bits that stay are not followed. -/
def Part.store (part : Part) (value : Expr) : Option Expr :=
  match part with
  | .full => some value
  | .low32 => some (keepBits value 0xffffffff)
  | .low16 | .low8 | .high8 => none

namespace Machine

/-- The reading of an instruction that was decoded. -/
def reading? (m : Machine) (d : Decoded) : Option Reading :=
  m.read d.instruction.address d.instruction.encoding

/-- Decodes one instruction, or one byte that is none. -/
def decode (m : Machine) (c : Cursor) : Except Fault (Decoded × Cursor) := do
  let a ← c.address
  let window ← c.peek (UInt64.ofNat maxInstructionSize)
  match m.read a window with
  | some r =>
    let i := Instruction.ofEncoding a (window.take r.size) r.mnemonic r.operandText
    let d : Decoded := { instruction := i, flow := some (flowOf r.mnemonic) }
    return (d, ← c.advance d.size)
  | none =>
    let b := window.headD 0
    let i := Instruction.ofEncoding a [b] "db" ("0x" ++ Hex.byte b)
    return ({ instruction := i, flow := none }, ← c.advance 1)

/-- The value of the first operand. -/
def jumpTargets (m : Machine) (d : Decoded) (a : Address) : Except Fault (List Expr) := do
  let next ← Address.plus a d.size
  return (m.reading? d).elim [] fun r => (r.operands.take 1).map (·.value m.mode next)

def mentions (e : Expr) (name : String) : Bool :=
  e.mentions (.register name)

/-- Replaces the destination register of an instruction by the value that is written. -/
def replace (m : Machine) (next : Address) (mnemonic destination : String)
    (source : Option Operand) (e : Expr) : Option Expr := do
  let (full, part) := fullRegister m.mode destination
  let value ← result? m.mode next mnemonic destination source
  let value ← part.store value
  return (e.bind (.single (.register full) value)).reduce

/-- Goes back over an instruction that does not transfer control. -/
def stepBackPlain (m : Machine) (d : Decoded) (a : Address) (r : Reading) (e : Expr) :
    Except Fault (Option Expr) :=
  if r.implicitWrites.any fun name => mentions e (fullRegister m.mode name).1 then .ok none
  else
    match r.operands with
    | [] => .ok (some e)
    | op :: sources =>
      match op.kind with
      | .register destination => do
        let mnemonic := mainWord d.instruction.mnemonic
        if op.isWritten mnemonic ∧ mentions e (fullRegister m.mode destination).1 then
          let next ← Address.plus a d.size
          return m.replace next mnemonic destination sources.head? e
        else return some e
      | _ => .ok (some e)

/-- Goes back over an instruction. A call loses what it may leave changed, and other transfers of
control change nothing. -/
def stepBack (m : Machine) (d : Decoded) (a : Address) (e : Expr) : Except Fault (Option Expr) :=
  match d.flow.filter (·.transfers) with
  | some flow =>
    .ok (if flow.links ∧ m.mode.volatileRegisters.any (mentions e) then none else some e)
  | none =>
    match m.reading? d with
    | none => .ok (some e)
    | some r => m.stepBackPlain d a r e

def decoder (m : Machine) : Decoder where
  decode := m.decode
  jumpTargets := m.jumpTargets
  stepBack := m.stepBack

end Machine

end ReachableCode.X86
