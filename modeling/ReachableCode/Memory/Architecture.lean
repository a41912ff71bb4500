/-!
The machines that a program may be for.
-/

namespace ReachableCode

inductive Architecture where
  | x86_32 | x86_64 | arm | aarch64 | mips32 | riscv32 | riscv64 | unknown
  deriving DecidableEq, Repr

namespace Architecture

def name : Architecture → String
  | x86_32 => "x86-32"
  | x86_64 => "x86-64"
  | arm => "ARM"
  | aarch64 => "AArch64"
  | mips32 => "MIPS32"
  | riscv32 => "RISC-V 32"
  | riscv64 => "RISC-V 64"
  | unknown => "Unknown"

def all : List Architecture :=
  [x86_32, x86_64, arm, aarch64, mips32, riscv32, riscv64, unknown]

def ofName? (name : String) : Option Architecture :=
  all.find? (·.name = name)

/-- Where nothing is known of the architecture. -/
instance : Inhabited Architecture := ⟨unknown⟩

end Architecture

end ReachableCode
