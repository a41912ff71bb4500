import ReachableCode.Proofs.X86.StepBack
import ReachableCode.X86.Catalogue

/-!
Writes that are not followed. An instruction may write a register with any of its operands, or without naming
it, and what depends on such a register is lost by it. Going back loses it if the write is an implicit one or
that of the first operand, and the instruction does not transfer control. Every other write goes unnoticed:
that of a later operand, and that of a loop to its counter.
-/

namespace ReachableCode.X86

namespace Reading

/-- The forms whose result is followed: moves, the computation of an address, sums and differences with a
constant, and the exclusive or of a register with itself. -/
def IsFollowed (r : Reading) : Prop :=
  mainWord r.mnemonic ∈ ["mov", "movzx", "movsx", "movsxd", "lea"] ∨
    (mainWord r.mnemonic ∈ ["add", "sub"] ∧ ∃ op v, r.operands[1]? = some op ∧ op.kind = .immediate v) ∨
      (mainWord r.mnemonic = "xor" ∧ ∃ name, ∀ i < 2, ∃ op, r.operands[i]? = some op ∧ op.kind = .register name)

/-- A register that an expression depends on is written: it is among the implicit writes, or one of the
operands names it and is reported as written. -/
def Clobbers (mode : Mode) (r : Reading) (e : Expr) : Prop :=
  r.WritesImplicitly mode e ∨ ∃ op ∈ r.operands, ∃ name, op.kind = .register name ∧
    op.access.any (·.writes) = true ∧ Machine.mentions e (fullRegister mode name).1 = true

theorem IsFollowed.mnemonic {r : Reading} (h : r.IsFollowed) :
    mainWord r.mnemonic ∈ ["mov", "movzx", "movsx", "movsxd", "lea", "add", "sub", "xor"] := by
  obtain h | ⟨h, -⟩ | ⟨h, -⟩ := h
  · exact List.mem_append_left ["add", "sub", "xor"] h
  · exact List.mem_append_right ["mov", "movzx", "movsx", "movsxd", "lea"] (List.mem_append_left ["xor"] h)
  · simp [h]

end Reading

theorem links_flowOf {mnemonic : String} (noCall : mainWord mnemonic ∉ calls) :
    (flowOf mnemonic).links = false := by
  unfold flowOf
  simp only [noCall, if_false]
  split
  · rfl
  · split
    · rfl
    · split <;> rfl

/-- What is not of a followed form has no result. -/
theorem result?_eq_none {mode : Mode} {next : Address} {r : Reading} {name : String}
    (unfollowed : ¬r.IsFollowed) (written : r.firstWritten? = some name) :
    result? mode next (mainWord r.mnemonic) name r.operands[1]? = none := by
  obtain ⟨first, sources, operands, destination, -⟩ := Reading.firstWritten?_eq_some.1 written
  cases hs : r.operands[1]? with
  | none => rfl
  | some op =>
    have noMove (h : mainWord r.mnemonic ∈ ["mov", "movzx", "movsx", "movsxd", "lea"]) : False :=
      unfollowed (Or.inl h)
    have noSum {v : Int64} (h : mainWord r.mnemonic ∈ ["add", "sub"]) (kind : op.kind = .immediate v) : False :=
      unfollowed (Or.inr (Or.inl ⟨h, op, v, hs, kind⟩))
    have noClear (h : mainWord r.mnemonic = "xor") (kind : op.kind = .register name) : False := by
      refine unfollowed (Or.inr (Or.inr ⟨h, name, fun i hi => ?_⟩))
      match i, hi with
      | 0, _ => exact ⟨first, by rw [operands]; rfl, destination⟩
      | 1, _ => exact ⟨op, hs, kind⟩
    simp only [result?, Option.bind_eq_bind, Option.bind_some]
    split
    next word => exact (noMove (by simp [word])).elim
    next word => exact (noMove (by simp [word])).elim
    next word _ => exact (noMove (by simp [word])).elim
    next word _ => exact (noMove (by simp [word])).elim
    next word _ => exact (noMove (by simp [word])).elim
    next word _ => exact (noMove (by simp [word])).elim
    next word _ => exact (noMove (by simp [word])).elim
    next word kind => exact (noSum (by simp [word]) kind).elim
    next word kind => exact (noSum (by simp [word]) kind).elim
    next other word kind =>
      split
      next same => exact (noClear word (same ▸ kind)).elim
      next => rfl
    next => rfl

namespace Machine

variable {m : Machine} {d : Decoded} {r : Reading} {a next : Address} {e : Expr}

/-- Where nothing is followed, an expression is lost just by an instruction that does not transfer control and
that writes, implicitly or with its first operand, a register of the expression. Every other instruction hands
the expression on as it is, whatever it writes with its later operands or while it transfers control. -/
theorem expression_is_lost_iff (reads : m.Reads d r) (noCall : mainWord r.mnemonic ∉ calls)
    (unfollowed : ¬r.IsFollowed) (ends : Address.plus a d.size = .ok next) :
    (m.stepBack d a e = .ok none ↔ (flowOf r.mnemonic).transfers = false ∧
      (r.WritesImplicitly m.mode e ∨ r.WritesFirst m.mode e)) ∧
    (m.stepBack d a e = .ok none ∨ m.stepBack d a e = .ok (some e)) := by
  cases hf : (flowOf r.mnemonic).transfers with
  | true =>
    rw [reads.stepBack_of_transfers hf (links_flowOf noCall)]
    simp
  | false =>
    by_cases implicit : r.WritesImplicitly m.mode e
    · rw [reads.stepBack_of_writesImplicitly hf implicit]
      simp [implicit]
    by_cases first : r.WritesFirst m.mode e
    · obtain ⟨name, written, hit⟩ := first
      rw [reads.stepBack_of_firstWritten hf implicit written hit, ends, Except.map, replace,
        result?_eq_none unfollowed written]
      simp [Reading.WritesFirst, written, hit]
    · rw [reads.stepBack_of_kept hf implicit first]
      simp [implicit, first]

/-- `imul eax, ebx, 5` -/
def multiply : Reading where
  size := 3
  mnemonic := "imul"
  operandText := "eax, ebx, 5"
  operands := [Entry.reg "eax" 4 .write, Entry.reg "ebx" 4 .read, Entry.imm 5 4]
  implicitWrites := ["rflags"]

def multiplyAt : Decoded :=
  decoded multiply 0x1000 [0x6b, 0xc3, 0x05]

/-- A write of the lower half of `rax` loses what depends on `rax`. -/
theorem multiply_loses_rax : (ofMode .wide).stepBack multiplyAt 0x1000 (.register "rax") = .ok none := by
  have reads : (ofMode .wide).Reads multiplyAt multiply := reads_decoded (by decide +kernel)
  have unfollowed : ¬multiply.IsFollowed := fun h => absurd h.mnemonic (by decide)
  refine (expression_is_lost_iff reads (by decide) unfollowed rfl).1.2 ⟨by decide +kernel, Or.inr ?_⟩
  exact ⟨"eax", by decide, by decide⟩

/-- An instruction that is no call and of no followed form, that writes a register of the expression, and that
hands the expression on. -/
structure Overlooks (m : Machine) (d : Decoded) (r : Reading) (a : Address) (e : Expr) : Prop where
  reads : m.Reads d r
  noCall : mainWord r.mnemonic ∉ calls
  unfollowed : ¬r.IsFollowed
  clobbers : r.Clobbers m.mode e
  kept : m.stepBack d a e = .ok (some e)

/-- `lock xadd qword ptr [rbx], rax` -/
def exchangeAdd : Reading where
  size := 5
  mnemonic := "lock xadd"
  operandText := "qword ptr [rbx], rax"
  operands := [Entry.mem (some "rbx") none 1 0 8 .readWrite, Entry.reg "rax" 8 .readWrite]
  implicitWrites := []

/-- `loop 0x1000`, standing at 0x1000 -/
def loopToItself : Reading where
  size := 2
  mnemonic := "loop"
  operandText := "0x1000"
  operands := [Entry.imm 0x1000 8]
  implicitWrites := ["rcx"]

/-- A register that is exchanged with memory is the second operand; a loop counts down without naming its
counter, and transfers control. -/
theorem later_operands_and_loops_are_overlooked :
    Overlooks (ofMode .wide) (decoded exchangeAdd 0x1000 [0xf0, 0x48, 0x0f, 0xc1, 0x03]) exchangeAdd 0x1000
      (.register "rax") ∧
    Overlooks (ofMode .wide) (decoded loopToItself 0x1000 [0xe2, 0xfe]) loopToItself 0x1000
      (.register "rcx") := by
  constructor
  · have reads : (ofMode .wide).Reads (decoded exchangeAdd 0x1000 [0xf0, 0x48, 0x0f, 0xc1, 0x03]) exchangeAdd :=
      reads_decoded (by decide +kernel)
    refine ⟨reads, by decide, fun h => absurd h.mnemonic (by decide), ?_, ?_⟩
    · exact Or.inr ⟨_, List.mem_cons_of_mem _ List.mem_cons_self, "rax", rfl, rfl, by decide⟩
    · exact reads.stepBack_of_kept (by decide +kernel) nofun nofun
  · have reads : (ofMode .wide).Reads (decoded loopToItself 0x1000 [0xe2, 0xfe]) loopToItself :=
      reads_decoded (by decide +kernel)
    refine ⟨reads, by decide, fun h => absurd h.mnemonic (by decide), ?_, ?_⟩
    · exact Or.inl ⟨"rcx", List.mem_cons_self, by decide⟩
    · exact reads.stepBack_of_transfers (by decide +kernel) (by decide +kernel)

end Machine

end ReachableCode.X86
