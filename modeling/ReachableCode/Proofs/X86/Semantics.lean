import ReachableCode.Proofs.Expr.Evaluation
import ReachableCode.X86.Decoder

/-!
What the followed instructions do to a machine: the registers, their parts and the names of these, the places
that memory operands denote, and the result that each effect computes in the width of its destination. A reading
reports an operation if it names the operands that the operation has. In a state every expression has a value:
a symbol that names a full register has the value of the register, and memory is read byte by byte.
-/

namespace ReachableCode.X86

/-! ### Registers -/

namespace Mode

/-- The bits of a full register and of an address. -/
def bits : Mode → Nat
  | narrow => 32
  | wide => 64

/-- The register of the condition codes. -/
def flags : Mode → String
  | narrow => "eflags"
  | wide => "rflags"

end Mode

namespace Part

def bits (mode : Mode) : Part → Nat
  | full => mode.bits
  | low32 => 32
  | low16 => 16
  | low8 | high8 => 8

/-- The lowest bit of the register that belongs to the part. -/
def offset : Part → Nat
  | high8 => 8
  | full | low32 | low16 | low8 => 0

end Part

/-- The general purpose registers; those with a number exist in 64-bit mode only. -/
inductive Gpr where
  | ax | bx | cx | dx | si | di | bp | sp
  | r8 | r9 | r10 | r11 | r12 | r13 | r14 | r15
  deriving DecidableEq, Repr

namespace Gpr

def all : List Gpr :=
  [ax, bx, cx, dx, si, di, bp, sp, r8, r9, r10, r11, r12, r13, r14, r15]

/-- The names of 64 bits, and of the lowest 32, 16 and 8 bits. -/
structure Names where
  quad : String
  double : String
  word : String
  byte : String

def names : Gpr → Names
  | ax => ⟨"rax", "eax", "ax", "al"⟩
  | bx => ⟨"rbx", "ebx", "bx", "bl"⟩
  | cx => ⟨"rcx", "ecx", "cx", "cl"⟩
  | dx => ⟨"rdx", "edx", "dx", "dl"⟩
  | si => ⟨"rsi", "esi", "si", "sil"⟩
  | di => ⟨"rdi", "edi", "di", "dil"⟩
  | bp => ⟨"rbp", "ebp", "bp", "bpl"⟩
  | sp => ⟨"rsp", "esp", "sp", "spl"⟩
  | r8 => ⟨"r8", "r8d", "r8w", "r8b"⟩
  | r9 => ⟨"r9", "r9d", "r9w", "r9b"⟩
  | r10 => ⟨"r10", "r10d", "r10w", "r10b"⟩
  | r11 => ⟨"r11", "r11d", "r11w", "r11b"⟩
  | r12 => ⟨"r12", "r12d", "r12w", "r12b"⟩
  | r13 => ⟨"r13", "r13d", "r13w", "r13b"⟩
  | r14 => ⟨"r14", "r14d", "r14w", "r14b"⟩
  | r15 => ⟨"r15", "r15d", "r15w", "r15b"⟩

/-- The name of the second lowest 8 bits, which four registers have. -/
def highName? : Gpr → Option String
  | ax => some "ah"
  | bx => some "bh"
  | cx => some "ch"
  | dx => some "dh"
  | _ => none

def isNumbered : Gpr → Bool
  | ax | bx | cx | dx | si | di | bp | sp => false
  | _ => true

/-- The name of a part of a register, if there is one. In 32-bit mode the lowest byte of a register has one if
the byte above has one. -/
def name? (g : Gpr) : Mode → Part → Option String
  | .wide, .full => some g.names.quad
  | .wide, .low32 => some g.names.double
  | .wide, .low16 => some g.names.word
  | .wide, .low8 => some g.names.byte
  | .narrow, .full => if g.isNumbered then none else some g.names.double
  | .narrow, .low32 => none
  | .narrow, .low16 => if g.isNumbered then none else some g.names.word
  | .narrow, .low8 => g.highName?.map fun _ => g.names.byte
  | _, .high8 => g.highName?

/-- The register that a name stands for as a whole. -/
def ofName? (mode : Mode) (name : String) : Option Gpr :=
  all.find? (·.name? mode .full = some name)

/-- Expressions speak of a part of a register as the program reads its name. -/
theorem fullRegister_of_name? {g : Gpr} {mode : Mode} {part : Part} {name : String}
    (h : g.name? mode part = some name) :
    g.name? mode .full = some (fullRegister mode name).1 ∧ (fullRegister mode name).2 = part := by
  suffices ∀ name ∈ g.name? mode part,
      g.name? mode .full = some (fullRegister mode name).1 ∧ (fullRegister mode name).2 = part from this name h
  cases mode <;> cases g <;> cases part <;> decide

theorem ofName?_of_name? {g : Gpr} {mode : Mode} {name : String} (h : g.name? mode .full = some name) :
    ofName? mode name = some g := by
  suffices ∀ name ∈ g.name? mode .full, ofName? mode name = some g from this name h
  cases mode <;> cases g <;> decide

theorem name?_of_ofName? {g : Gpr} {mode : Mode} {name : String} (h : ofName? mode name = some g) :
    g.name? mode .full = some name := by
  have found := List.find?_some h
  exact of_decide_eq_true found

end Gpr

/-! ### States -/

/-- The registers, the bytes of memory, and what all other symbols stand for: labels, and registers that are
not for general purposes. The instruction pointer is not part of a state: operands that name it are counted
from the end of their instruction. -/
structure State where
  gpr : Gpr → BitVec 64
  memory : BitVec 64 → UInt8
  other : Symbol → Int64

namespace State

/-- The bits of a part of a register. -/
def part (σ : State) (mode : Mode) (g : Gpr) (p : Part) : BitVec (p.bits mode) :=
  (σ.gpr g >>> p.offset).setWidth (p.bits mode)

/-- The bytes from an address on. -/
def bytes (σ : State) (a : BitVec 64) : Nat → List UInt8
  | 0 => []
  | n + 1 => σ.memory a :: σ.bytes (a + 1) n

theorem bytes_congr {σ τ : State} (h : τ.memory = σ.memory) {a : BitVec 64} {n : Nat} :
    τ.bytes a n = σ.bytes a n := by
  induction n generalizing a with
  | zero => rfl
  | succ n ih => rw [bytes, bytes, ih, h]

/-- The integer of so many bytes at an address, the least significant of them first. -/
def integer (σ : State) (a : BitVec 64) : (n : Nat) → BitVec (8 * n)
  | 0 => 0
  | n + 1 => σ.integer (a + 1) n ++ (σ.memory a).toBitVec

/-- The values that expressions have in a state. -/
def valuation (σ : State) (mode : Mode) : Valuation where
  symbol
    | .label name => σ.other (.label name)
    | .register name => (Gpr.ofName? mode name).elim (σ.other (.register name)) fun g => .ofBitVec (σ.gpr g)
  memory a w o := w.valueOf (o.leastFirst (σ.bytes a.toBitVec w.bytes))

end State

/-! ### Operations -/

/-- What an address is counted from. -/
inductive Base where
  /-- The end of the instruction. -/
  | pointer
  | register (g : Gpr)
  deriving DecidableEq, Repr

namespace Base

/-- Only 64-bit mode counts from the instruction pointer. -/
def name? (mode : Mode) : Base → Option String
  | pointer => match mode with
    | .wide => some "rip"
    | .narrow => none
  | register g => g.name? mode .full

def value (next : Address) (σ : State) : Base → BitVec 64
  | pointer => next.toBitVec
  | register g => σ.gpr g

end Base

/-- The address `base + displacement + index * scale`, without a segment. -/
structure Place where
  base : Option Base
  index : Option Gpr
  scale : Int64
  displacement : Int64
  deriving DecidableEq, Repr

namespace Place

/-- The address of a place for an instruction that ends at `next`; it has the bits of a full register. -/
def address (mode : Mode) (next : Address) (σ : State) (p : Place) : BitVec 64 :=
  let base := p.base.elim 0 (·.value next σ)
  let index := p.index.elim 0 σ.gpr
  ((base + p.displacement.toBitVec + index * p.scale.toBitVec).setWidth mode.bits).setWidth 64

/-- The memory operand names the parts of the place. -/
structure ReportedBy (mode : Mode) (p : Place) (ref : MemoryRef) : Prop where
  base : p.base.map (·.name? mode) = ref.base.map some
  index : p.index.map (·.name? mode .full) = ref.index.map some
  scale : p.scale = ref.scale
  displacement : p.displacement = ref.displacement

end Place

/-- What is written to a register. -/
inductive Effect where
  | immediate (v : Int64)
  | register (g : Gpr) (part : Part)
  /-- The integer at a place, extended by its sign if it has one, else by zeros. -/
  | load (place : Place) (width : Width)
  | address (place : Place)
  | add (v : Int64)
  | sub (v : Int64)
  /-- The exclusive or of the register with itself. -/
  | clear
  deriving DecidableEq, Repr

namespace Effect

def mnemonics : Effect → List String
  | immediate _ | register .. => ["mov", "movzx"]
  | load _ w => if w.isSigned then ["movsx", "movsxd"] else ["mov", "movzx"]
  | address _ => ["lea"]
  | add _ => ["add"]
  | sub _ => ["sub"]
  | clear => ["xor"]

/-- Whether the condition codes are written as well. -/
def setsFlags : Effect → Bool
  | add _ | sub _ | clear => true
  | immediate _ | register .. | load .. | address _ => false

/-- The `n` bits that an instruction that ends at `next` writes to the register `g`. -/
def result (mode : Mode) (next : Address) (σ : State) (g : Gpr) (n : Nat) : Effect → BitVec n
  | immediate v => v.toBitVec.setWidth n
  | register h p => (σ.part mode h p).setWidth n
  | load place w =>
    let x := σ.integer (place.address mode next σ) w.bytes
    if w.isSigned then x.signExtend n else x.setWidth n
  | address place => (place.address mode next σ).setWidth n
  | add v => (σ.gpr g).setWidth n + v.toBitVec.setWidth n
  | sub v => (σ.gpr g).setWidth n - v.toBitVec.setWidth n
  | clear => (σ.gpr g).setWidth n ^^^ (σ.gpr g).setWidth n

end Effect

/-- An instruction that writes a full register, or the lower half of one and clears the upper half. -/
structure Operation where
  destination : Gpr
  part : Part
  effect : Effect
  part_eq : part = .full ∨ part = .low32

namespace Operation

/-- The second operand is the source of the operation. -/
def SourceReportedBy (mode : Mode) (o : Operation) (op : Operand) : Prop :=
  match o.effect with
  | .immediate v | .add v | .sub v => op.kind = .immediate v
  | .register g p => ∃ name, g.name? mode p = some name ∧ op.kind = .register name
  | .load place w => ∃ ref, place.ReportedBy mode ref ∧ op.kind = .memory ref ∧ op.size = w.bytes
  | .address place => ∃ ref, place.ReportedBy mode ref ∧ op.kind = .memory ref
  | .clear => ∃ name, o.destination.name? mode o.part = some name ∧ op.kind = .register name

/-- The reading reports the operation as it is: the effect, the operands, that the first operand is not only read,
and that the condition codes are written. -/
structure ReportedBy (mode : Mode) (o : Operation) (r : Reading) : Prop where
  mnemonic : mainWord r.mnemonic ∈ o.effect.mnemonics
  destination : ∃ op name, r.operands[0]? = some op ∧ op.kind = .register name ∧
    o.destination.name? mode o.part = some name ∧ op.access ≠ some .read
  source : ∃ op, r.operands[1]? = some op ∧ o.SourceReportedBy mode op
  flags : o.effect.setsFlags = true → mode.flags ∈ r.implicitWrites

/-- The operation, in an instruction that ends at `next`, takes the state `σ` to `τ`: the result is written with
zeros above it, and the condition codes may become anything if they are written. -/
structure Executes (mode : Mode) (next : Address) (o : Operation) (σ τ : State) : Prop where
  written : τ.gpr o.destination =
    (o.effect.result mode next σ o.destination (o.part.bits mode)).setWidth 64
  kept : ∀ g, g ≠ o.destination → τ.gpr g = σ.gpr g
  memory : τ.memory = σ.memory
  other : ∀ s, (o.effect.setsFlags = true → s ≠ .register mode.flags) → τ.other s = σ.other s

/-- The state that an operation leads to if it leaves the condition codes as they are. -/
def run (mode : Mode) (next : Address) (o : Operation) (σ : State) : State where
  gpr g := if g = o.destination then (o.effect.result mode next σ g (o.part.bits mode)).setWidth 64 else σ.gpr g
  memory := σ.memory
  other := σ.other

theorem executes_run {mode : Mode} {next : Address} {o : Operation} {σ : State} :
    o.Executes mode next σ (o.run mode next σ) where
  written := if_pos rfl
  kept _ other := if_neg other
  memory := rfl
  other _ _ := rfl

end Operation

end ReachableCode.X86
