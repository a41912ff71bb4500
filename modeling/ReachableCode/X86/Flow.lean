import ReachableCode.Code.Instruction
import ReachableCode.Text.Blank

/-!
What x86 instructions do to the flow of control, told by their mnemonics. Words before the last one
only modify an instruction.
-/

namespace ReachableCode.X86

/-- The mnemonic without the words that modify it. -/
def mainWord (mnemonic : String) : String :=
  (Blank.lastWord? mnemonic).getD mnemonic

def jumps : List String := ["jmp", "ljmp"]

def calls : List String := ["call", "lcall"]

/-- Returns, halts and traps. -/
def stops : List String :=
  ["ret", "retf", "iret", "iretd", "iretq", "hlt", "ud2", "int3"]

/-- The flow of an instruction. All other mnemonics with `j` and the loops are branches. -/
def flowOf (mnemonic : String) : Flow :=
  let m := mainWord mnemonic
  if m ∈ jumps then .jump
  else if m ∈ calls then .call
  else if m ∈ stops then .stop
  else if m.startsWith "j" ∨ m.startsWith "loop" then .branch
  else .plain

end ReachableCode.X86
