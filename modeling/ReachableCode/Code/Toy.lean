import ReachableCode.Code.Decoder
import ReachableCode.Expr.Bind

/-!
A small machine with registers `r0` to `r255`, which shows every kind of flow that there is.

| bytes         | instruction      | flow                             |
|---------------|------------------|----------------------------------|
| `00`          | `nop`            | goes on                          |
| `10 d`        | `jmp d`          | jump, relative                   |
| `11 d`        | `jz d`           | branch, relative                 |
| `12 d`        | `call d`         | call, relative                   |
| `13 n`        | `jmp rN`         | jump to a register               |
| `14 n`        | `call [rN]`      | call through memory              |
| `15 a a a a`  | `jmp [a]`        | jump through memory              |
| `20 n i i i i`| `mov rN, i`      | goes on                          |
| `21 n a a a a`| `mov rN, [a]`    | goes on                          |
| `22 n m`      | `mov rN, rM`     | goes on                          |
| `23 n`        | `clobber rN`     | goes on                          |
| `c3`          | `ret`            | stops                            |
| `cc`          | `trap`           | stops                            |

Relative distances are signed bytes that count from the end of the instruction; words are 32 bits,
least significant byte first. All else is one byte that is no instruction.
-/

namespace ReachableCode.Toy

def registerName (n : UInt8) : String :=
  "r" ++ toString n.toNat

def register (n : UInt8) : Expr :=
  .register (registerName n)

def loadWord (a : Expr) : Expr :=
  .load a .u32 .little

inductive Op where
  | nop
  | jmp (distance : UInt8)
  | jz (distance : UInt8)
  | call (distance : UInt8)
  | jmpRegister (n : UInt8)
  | callThrough (n : UInt8)
  | jmpThrough (a : Int64)
  | movImmediate (n : UInt8) (value : Int64)
  | movLoad (n : UInt8) (a : Int64)
  | movRegister (n m : UInt8)
  | clobber (n : UInt8)
  | ret
  | trap
  deriving DecidableEq, Repr

namespace Op

/-- The instruction whose encoding the bytes begin with. -/
def ofBytes? : List UInt8 → Option Op
  | 0x00 :: _ => some nop
  | 0x10 :: d :: _ => some (jmp d)
  | 0x11 :: d :: _ => some (jz d)
  | 0x12 :: d :: _ => some (call d)
  | 0x13 :: n :: _ => some (jmpRegister n)
  | 0x14 :: n :: _ => some (callThrough n)
  | 0x15 :: a :: b :: c :: d :: _ => some (jmpThrough (Width.u32.valueOf [a, b, c, d]))
  | 0x20 :: n :: a :: b :: c :: d :: _ => some (movImmediate n (Width.u32.valueOf [a, b, c, d]))
  | 0x21 :: n :: a :: b :: c :: d :: _ => some (movLoad n (Width.u32.valueOf [a, b, c, d]))
  | 0x22 :: n :: m :: _ => some (movRegister n m)
  | 0x23 :: n :: _ => some (clobber n)
  | 0xc3 :: _ => some ret
  | 0xcc :: _ => some trap
  | _ => none

def size : Op → Nat
  | nop | ret | trap => 1
  | jmp _ | jz _ | call _ | jmpRegister _ | callThrough _ | clobber _ => 2
  | movRegister .. => 3
  | jmpThrough _ => 5
  | movImmediate .. | movLoad .. => 6

def mnemonic : Op → String
  | nop => "nop"
  | jmp _ | jmpRegister _ | jmpThrough _ => "jmp"
  | jz _ => "jz"
  | call _ | callThrough _ => "call"
  | movImmediate .. | movLoad .. | movRegister .. => "mov"
  | clobber _ => "clobber"
  | ret => "ret"
  | trap => "trap"

def operands : Op → String
  | nop | ret | trap => ""
  | jmp d | jz d | call d => toString d.toInt8.toInt
  | jmpRegister n | clobber n => registerName n
  | callThrough n => "[" ++ registerName n ++ "]"
  | jmpThrough a => "[" ++ Expr.constText a ++ "]"
  | movImmediate n v => registerName n ++ ", " ++ Expr.constText v
  | movLoad n a => registerName n ++ ", [" ++ Expr.constText a ++ "]"
  | movRegister n m => registerName n ++ ", " ++ registerName m

/-- What an instruction does to the flow of control. -/
def flow : Op → Flow
  | nop | movImmediate .. | movLoad .. | movRegister .. | clobber _ => .plain
  | jmp _ | jmpRegister _ | jmpThrough _ => .jump
  | jz _ => .branch
  | call _ | callThrough _ => .call
  | ret | trap => .stop

/-- Where an instruction may transfer control to; `next` is the address behind it. -/
def jumpTargets (next : Int64) : Op → List Expr
  | jmp d | jz d | call d => [.const next + .const d.toInt8.toInt64]
  | jmpRegister n => [register n]
  | callThrough n => [loadWord (register n)]
  | jmpThrough a => [loadWord (.const a)]
  | _ => []

/-- The register that an instruction writes and its new value; a clobbered register has none. -/
def written : Op → Option (UInt8 × Option Expr)
  | movImmediate n v => some (n, some (.const v))
  | movLoad n a => some (n, some (loadWord (.const a)))
  | movRegister n m => some (n, some (register m))
  | clobber n => some (n, none)
  | _ => none

/-- Replaces the register that an instruction writes by the value written. -/
def stepBack (op : Op) (e : Expr) : Option Expr :=
  match op.written with
  | none => some e
  | some (n, some v) => some (e.bind (.single (.register (registerName n)) v))
  | some (n, none) => if e.mentions (.register (registerName n)) then none else some e

end Op

/-- Decodes one instruction, or one byte that is none. -/
def decode (c : Cursor) : Except Fault (Decoded × Cursor) := do
  let a ← c.address
  let window ← c.peek 6
  match Op.ofBytes? window with
  | some op =>
    let i := Instruction.ofEncoding a (window.take op.size) op.mnemonic op.operands
    return ({ instruction := i, flow := some op.flow }, ← c.advance (UInt64.ofNat op.size))
  | none =>
    let i := Instruction.ofEncoding a (window.take 1) "db" ""
    return ({ instruction := i, flow := none }, ← c.advance 1)

def byte (bytes : List UInt8) (index : Nat) : Except Fault UInt8 :=
  match bytes[index]? with
  | some b => .ok b
  | none => .error (.indexOutOfRange bytes.length index)

/-- Asks for the operand bytes of a control transfer that is cut off, which is a fault. -/
def readCutOffJump (bytes : List UInt8) : Except Fault Unit := do
  let op ← byte bytes 0
  if 0x10 ≤ op ∧ op ≤ 0x14 then discard (byte bytes 1)
  else if op = 0x15 then (List.range 4).forM fun i => discard (byte bytes.tail i)

/-- Asks for the operand bytes of a register write that is cut off, which is a fault. -/
def readCutOffWrite (bytes : List UInt8) : Except Fault Unit := do
  let op ← byte bytes 0
  if 0x20 ≤ op ∧ op ≤ 0x23 then discard (byte bytes 1)
  if op = 0x20 ∨ op = 0x21 then
    (List.range 4).forM fun i => discard (byte (bytes.drop 2) i)
  else if op = 0x22 then discard (byte bytes 2)

/-- The decoder of the machine. An encoding that is cut off has no targets and writes nothing, but its
first byte may call for operands that it lacks. -/
def decoder : Decoder where
  decode := decode
  jumpTargets := fun d a => do
    let next ← Address.plus a d.size
    match Op.ofBytes? d.instruction.encoding with
    | some op => return op.jumpTargets next.toInt64
    | none =>
      readCutOffJump d.instruction.encoding
      return []
  stepBack := fun d _ e => do
    match Op.ofBytes? d.instruction.encoding with
    | some op => return op.stepBack e
    | none =>
      readCutOffWrite d.instruction.encoding
      return some e

end ReachableCode.Toy
