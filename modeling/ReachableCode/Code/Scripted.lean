import ReachableCode.Code.Decoder
import ReachableCode.Expr.Bind
import Std.Data.ExtTreeMap

/-!
Decoders given by a table: what lies at each address, where it goes and how it changes registers is
listed, not computed. Addresses that are not listed hold no instruction.
-/

namespace ReachableCode

/-- What a table says of one address. -/
structure ScriptLine where
  /-- The number of bytes; fewer when the section ends before. -/
  size : UInt64
  mnemonic : String
  operands : String
  /-- None when the bytes are no instruction. -/
  flow : Option Flow
  jumpTargets : List Expr
  /-- What symbols hold afterwards, in terms of the state before. -/
  set : Bindings
  /-- Symbols whose value the instruction destroys. -/
  lose : List Symbol

abbrev Script := Std.ExtTreeMap Address ScriptLine

namespace Script

/-- The lines of a list; of two for one address the later counts. -/
def ofList (lines : List (Address × ScriptLine)) : Script :=
  lines.foldl (fun s (a, line) => s.insert a line) ∅

/-- Decodes the listed bytes, or one byte that is no instruction. -/
def decode (s : Script) (c : Cursor) : Except Fault (Decoded × Cursor) := do
  let a ← c.address
  match s[a]? with
  | some line =>
    let i := Instruction.ofEncoding a (← c.peek line.size) line.mnemonic line.operands
    let d : Decoded := { instruction := i, flow := line.flow }
    return (d, ← c.advance d.size)
  | none =>
    let i := Instruction.ofEncoding a (← c.peek 1) "db" ""
    return ({ instruction := i, flow := none }, ← c.advance 1)

def jumpTargets (s : Script) (a : Address) : List Expr :=
  (s[a]?).elim [] (·.jumpTargets)

/-- Replaces what the line sets, unless the expression mentions what it loses. -/
def stepBack (s : Script) (a : Address) (e : Expr) : Option Expr :=
  match s[a]? with
  | none => some e
  | some line => if line.lose.any (e.mentions ·) then none else some (e.bind line.set)

def decoder (s : Script) : Decoder where
  decode := s.decode
  jumpTargets := fun _ a => return s.jumpTargets a
  stepBack := fun _ a e => return s.stepBack a e

end Script

end ReachableCode
