import ReachableCode.Code.Instruction
import ReachableCode.Memory.Cursor

/-!
Decoders: all that the exploration of a program has to know about a machine.
-/

namespace ReachableCode

/-- The instruction set of a machine. -/
structure Decoder where
  /-- Decodes at a cursor, and gives the cursor behind the instruction. -/
  decode : Cursor → Except Fault (Decoded × Cursor)
  /-- Where an instruction at an address may transfer control to. -/
  jumpTargets : Decoded → Address → Except Fault (List Expr)
  /-- An expression for the state before an instruction that has the value of the given expression
  in the state after it; none when the instruction destroys what the expression depends on. -/
  stepBack : Decoded → Address → Expr → Except Fault (Option Expr)

end ReachableCode
