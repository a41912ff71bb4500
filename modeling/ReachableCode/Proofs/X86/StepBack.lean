import ReachableCode.Proofs.Search.Value
import ReachableCode.X86.Decoder

/-!
Going back over one instruction, in terms of its reading: what happens to an expression is decided by the
registers that are written implicitly and by the first operand alone, and no label comes into it.
-/

namespace ReachableCode.X86

namespace Reading

/-- The register that the first operand names, if that operand is taken to be written. -/
def firstWritten? (r : Reading) : Option String :=
  match r.operands with
  | [] => none
  | op :: _ =>
    match op.kind with
    | .register name => if op.isWritten (mainWord r.mnemonic) then some name else none
    | _ => none

/-- An implicit write of a register that an expression depends on. -/
def WritesImplicitly (mode : Mode) (r : Reading) (e : Expr) : Prop :=
  ∃ name ∈ r.implicitWrites, Machine.mentions e (fullRegister mode name).1 = true

/-- The first operand is a register that is written and that an expression depends on. -/
def WritesFirst (mode : Mode) (r : Reading) (e : Expr) : Prop :=
  ∃ name, r.firstWritten? = some name ∧ Machine.mentions e (fullRegister mode name).1 = true

theorem firstWritten?_eq_some {r : Reading} {name : String} : r.firstWritten? = some name ↔
    ∃ op sources, r.operands = op :: sources ∧ op.kind = .register name ∧
      op.isWritten (mainWord r.mnemonic) = true := by
  unfold firstWritten?
  split
  next none => simp [none]
  next op sources operands =>
    split
    next destination kind => simp [operands, kind, and_comm]
    next other => simpa [operands] using fun kind => absurd kind (other name)

end Reading

namespace Machine

/-- A decoded instruction that the machine reads in this way, now as when it decoded it. -/
structure Reads (m : Machine) (d : Decoded) (r : Reading) : Prop where
  reading : m.reading? d = some r
  mnemonic : d.instruction.mnemonic = r.mnemonic
  flow : d.flow = some (flowOf r.mnemonic)

/-- The instruction that is decoded where bytes are read in this way. -/
def decoded (r : Reading) (a : Address) (bytes : List UInt8) : Decoded where
  instruction := .ofEncoding a bytes r.mnemonic r.operandText
  flow := some (flowOf r.mnemonic)

theorem reads_decoded {m : Machine} {r : Reading} {a : Address} {bytes : List UInt8}
    (h : m.read a (bytes.take maxInstructionSize) = some r) : m.Reads (decoded r a bytes) r where
  reading := h
  mnemonic := rfl
  flow := rfl

namespace Reads

variable {m : Machine} {d : Decoded} {r : Reading} {a : Address} {e : Expr}

/-- A transfer of control that is no call gives every expression back. -/
theorem stepBack_of_transfers (h : m.Reads d r) (transfers : (flowOf r.mnemonic).transfers = true)
    (noCall : (flowOf r.mnemonic).links = false) : m.stepBack d a e = .ok (some e) := by
  rw [stepBack, h.flow, Option.filter_some_pos transfers]
  simp [noCall]

theorem stepBack_of_plain (h : m.Reads d r) (plain : (flowOf r.mnemonic).transfers = false) :
    m.stepBack d a e = m.stepBackPlain d a r e := by
  rw [stepBack, h.flow, Option.filter_some_neg (by simp [plain]), h.reading]

theorem stepBack_of_writesImplicitly (h : m.Reads d r) (plain : (flowOf r.mnemonic).transfers = false)
    (hit : r.WritesImplicitly m.mode e) : m.stepBack d a e = .ok none := by
  rw [h.stepBack_of_plain plain, stepBackPlain, if_pos (List.any_eq_true.2 hit)]

/-- The register of the first operand is replaced by what is written to it, if that is followed. -/
theorem stepBack_of_firstWritten (h : m.Reads d r) (plain : (flowOf r.mnemonic).transfers = false)
    (implicit : ¬r.WritesImplicitly m.mode e) {name : String} (written : r.firstWritten? = some name)
    (hit : mentions e (fullRegister m.mode name).1 = true) :
    m.stepBack d a e = (Address.plus a d.size).map fun next =>
      m.replace next (mainWord r.mnemonic) name r.operands[1]? e := by
  obtain ⟨op, sources, operands, kind, isWritten⟩ := Reading.firstWritten?_eq_some.1 written
  rw [h.stepBack_of_plain plain, stepBackPlain, if_neg fun any => implicit (List.any_eq_true.1 any)]
  simp only [operands, kind, h.mnemonic, isWritten, hit, and_self, if_true, List.getElem?_cons_succ,
    List.head?_eq_getElem?]
  rfl

/-- An expression is kept if no write of a register that it depends on is noticed. -/
theorem stepBack_of_kept (h : m.Reads d r) (plain : (flowOf r.mnemonic).transfers = false)
    (implicit : ¬r.WritesImplicitly m.mode e) (first : ¬r.WritesFirst m.mode e) :
    m.stepBack d a e = .ok (some e) := by
  rw [h.stepBack_of_plain plain, stepBackPlain, if_neg fun any => implicit (List.any_eq_true.1 any)]
  split
  · rfl
  next op sources operands =>
    split
    next name kind =>
      rw [h.mnemonic]
      refine if_neg fun ⟨isWritten, hit⟩ => first ⟨name, ?_, hit⟩
      exact Reading.firstWritten?_eq_some.2 ⟨op, sources, operands, kind, isWritten⟩
    · rfl

end Reads

/-! ### Labels -/

section

variable {m : Machine} {mode : Mode} {next a : Address} {d : Decoded} {mnemonic destination name : String}
  {source : Option Operand} {v e e' : Expr}

theorem unlabelled_keepBits {bits : Int64} (he : e.Unlabelled) : (keepBits e bits).Unlabelled :=
  he.binary Expr.unlabelled_const

theorem unlabelled_registerValue : (registerValue mode name).Unlabelled := by
  have register : ∀ s, (Expr.register s).Unlabelled := fun _ _ => rfl
  unfold registerValue
  split
  next full part _ =>
    cases part with
    | full => exact register full
    | low32 | low16 | low8 => exact unlabelled_keepBits (register full)
    | high8 => exact unlabelled_keepBits ((register full).binary Expr.unlabelled_const)

theorem unlabelled_base : (if name = "rip" ∨ name = "eip" then Expr.const next.toInt64 else
    registerValue mode name).Unlabelled := by
  split
  · exact Expr.unlabelled_const
  · exact unlabelled_registerValue

theorem unlabelled_address {ref : MemoryRef} : (ref.address mode next).Unlabelled := by
  obtain ⟨base, index, scale, displacement⟩ := ref
  have based (e : Expr) (he : e.Unlabelled) : (e + .const displacement).Unlabelled :=
    he.binary Expr.unlabelled_const
  have indexed (e : Expr) (name : String) (he : e.Unlabelled) :
      (e + .binary .mul (registerValue mode name) (.const scale)).Unlabelled :=
    he.binary (unlabelled_registerValue.binary Expr.unlabelled_const)
  refine Expr.Unlabelled.reduce ?_
  cases base with
  | none =>
    cases index with
    | none => exact Expr.unlabelled_const
    | some i => exact indexed _ i Expr.unlabelled_const
  | some b =>
    cases index with
    | none => exact based _ unlabelled_base
    | some i => exact indexed _ i (based _ unlabelled_base)

theorem unlabelled_value {op : Operand} : (op.value mode next).Unlabelled := by
  unfold Operand.value
  split
  · exact Expr.unlabelled_const
  · exact unlabelled_registerValue
  · exact unlabelled_address

theorem unlabelled_of_result? (h : result? mode next mnemonic destination source = some v) : v.Unlabelled := by
  obtain ⟨op, -, h⟩ := Option.bind_eq_some_iff.1 h
  split at h
  case h_1 | h_2 =>
    cases h
    exact unlabelled_value
  case h_3 | h_4 =>
    cases h
    exact Expr.unlabelled_const
  case h_5 | h_6 =>
    obtain ⟨w, -, h⟩ := Option.bind_eq_some_iff.1 h
    cases h
    exact unlabelled_address
  case h_7 =>
    cases h
    exact unlabelled_address
  case h_8 | h_9 =>
    cases h
    exact unlabelled_registerValue.binary Expr.unlabelled_const
  case h_10 =>
    split at h
    · cases h
      exact Expr.unlabelled_const
    · cases h
  case h_11 => cases h

theorem unlabelled_of_store {part : Part} (hv : v.Unlabelled) (h : part.store v = some e) : e.Unlabelled := by
  unfold Part.store at h
  split at h
  · cases h
    exact hv
  · cases h
    exact unlabelled_keepBits hv
  all_goals cases h

theorem unlabelled_of_replace (he : e.Unlabelled) (h : m.replace next mnemonic destination source e = some e') :
    e'.Unlabelled := by
  obtain ⟨v, result, h⟩ := Option.bind_eq_some_iff.1 h
  obtain ⟨w, stored, h⟩ := Option.bind_eq_some_iff.1 h
  cases h
  exact (he.bind_single (unlabelled_of_store (unlabelled_of_result? result) stored)).reduce

/-- No label comes into an expression by going back. -/
theorem unlabelled_of_stepBack (he : e.Unlabelled) (h : m.stepBack d a e = .ok (some e')) : e'.Unlabelled := by
  have kept : ∀ {e'}, (.ok (some e) : Except Fault (Option Expr)) = .ok (some e') → e'.Unlabelled := by
    rintro _ ⟨⟩
    exact he
  unfold stepBack stepBackPlain at h
  split at h
  · split at h
    · cases h
    · exact kept h
  · split at h
    · exact kept h
    · split at h
      · cases h
      · split at h
        · exact kept h
        · split at h
          · dsimp only at h
            split at h
            · obtain ⟨next, -, h⟩ := bind_eq_ok.1 h
              exact unlabelled_of_replace he (Except.ok.inj h)
            · exact kept h
          · exact kept h

end

end Machine

end ReachableCode.X86
