import ReachableCode.Proofs.X86.Semantics

/-!
The expressions for registers and memory operands have, in either mode, the values that the machine of 64 bits
gives these: a masked register has the bits of the part, zeros above them, and the address of an operand is that
of the place, which is not cut to 32 bits. What lies at an address is read as the integer of its bytes.
-/

namespace ReachableCode.X86

variable {ν : Valuation} {mode : Mode} {σ : State} {next : Address}

theorem eval_binary {op : BinaryOp} {d e : Expr} :
    (Expr.binary op d e).eval ν = op.apply (d.eval ν) (e.eval ν) :=
  (op.apply_eq_meaning _ _).symm

theorem eval_add {d e : Expr} : ((d + e).eval ν).toBitVec = (d.eval ν).toBitVec + (e.eval ν).toBitVec := by
  show ((Expr.binary .add d e).eval ν).toBitVec = _
  rw [eval_binary, BinaryOp.apply, Int64.toBitVec_add]

theorem eval_sub {d e : Expr} : ((d - e).eval ν).toBitVec = (d.eval ν).toBitVec - (e.eval ν).toBitVec := by
  show ((Expr.binary .sub d e).eval ν).toBitVec = _
  rw [eval_binary, BinaryOp.apply, Int64.toBitVec_sub]

theorem eval_mul {d : Expr} {v : Int64} :
    ((Expr.binary .mul d (.const v)).eval ν).toBitVec = (d.eval ν).toBitVec * v.toBitVec := by
  rw [eval_binary, BinaryOp.apply, Int64.toBitVec_mul, Expr.eval]

/-! ### Registers -/

/-- A mask of ones keeps the lowest bits. -/
theorem eval_keepBits {e : Expr} {bits : Int64} (n : Nat) (mask : bits.toBitVec = (BitVec.allOnes n).setWidth 64) :
    ((keepBits e bits).eval ν).toBitVec = ((e.eval ν).toBitVec.setWidth n).setWidth 64 := by
  rw [keepBits, eval_binary, BinaryOp.apply, Int64.toBitVec_and, Expr.eval, mask]
  ext i hi
  simp [hi, Bool.and_comm]

theorem eval_register {g : Gpr} {name : String} (h : g.name? mode .full = some name) :
    ((Expr.register name).eval (σ.valuation mode)).toBitVec = σ.gpr g := by
  simp only [Expr.register, Expr.eval, State.valuation, Gpr.ofName?_of_name? h, Option.elim_some]
  rfl

/-- A name of a part of a register has the value of the part. -/
theorem eval_registerValue {g : Gpr} {part : Part} {name : String} (h : g.name? mode part = some name) :
    ((registerValue mode name).eval (σ.valuation mode)).toBitVec = (σ.part .wide g part).setWidth 64 := by
  obtain ⟨full, rfl⟩ := Gpr.fullRegister_of_name? h
  cases named : fullRegister mode name with
  | mk fullName part =>
    rw [named] at full
    have value : ((Expr.register fullName).eval (σ.valuation mode)).toBitVec = σ.gpr g := eval_register full
    simp only [registerValue, named]
    cases part with
    | full => simpa [State.part, Part.bits, Part.offset, Mode.bits] using value
    | low32 =>
      rw [eval_keepBits 32 (by decide), value]
      rfl
    | low16 =>
      rw [eval_keepBits 16 (by decide), value]
      rfl
    | low8 =>
      rw [eval_keepBits 8 (by decide), value]
      rfl
    | high8 =>
      have shifted : ((Expr.binary .shr (.register fullName) (.const 8)).eval (σ.valuation mode)).toBitVec =
          σ.gpr g >>> 8 := by
        rw [eval_binary, ← value]
        rfl
      rw [eval_keepBits 8 (by decide), shifted]
      rfl

theorem eval_registerValue_full {g : Gpr} {name : String} (h : g.name? mode .full = some name) :
    ((registerValue mode name).eval (σ.valuation mode)).toBitVec = σ.gpr g := by
  rw [eval_registerValue h]
  simp [State.part, Part.bits, Part.offset, Mode.bits]

/-! ### Addresses -/

/-- No general purpose register has the name of the instruction pointer. -/
theorem name?_ne_pointer {g : Gpr} {part : Part} {name : String} (h : g.name? mode part = some name) :
    ¬(name = "rip" ∨ name = "eip") := by
  suffices ∀ name ∈ g.name? mode part, ¬(name = "rip" ∨ name = "eip") from this name h
  cases mode <;> cases g <;> cases part <;> decide

theorem eval_base {b : Base} {name : String} (h : b.name? mode = some name) :
    ((if name = "rip" ∨ name = "eip" then Expr.const next.toInt64 else registerValue mode name).eval
      (σ.valuation mode)).toBitVec = b.value next σ := by
  cases b with
  | pointer =>
    cases mode with
    | narrow => cases h
    | wide =>
      cases h
      rfl
  | register g =>
    have named : g.name? mode .full = some name := h
    rw [if_neg (name?_ne_pointer named)]
    exact eval_registerValue_full named

/-- Either both the place and the operand have a part, or neither has it. -/
theorem reported_cases {α : Type} {part : Option α} {name? : α → Option String} {reported : Option String}
    (h : part.map name? = reported.map some) :
    (part = none ∧ reported = none) ∨ ∃ x name, part = some x ∧ reported = some name ∧ name? x = some name := by
  cases part with
  | none =>
    cases reported with
    | none => exact Or.inl ⟨rfl, rfl⟩
    | some => cases h
  | some x =>
    cases reported with
    | none => cases h
    | some name => exact Or.inr ⟨x, name, rfl, rfl, Option.some.inj h⟩

/-- The expression of a memory operand has the address of the place as its value. -/
theorem eval_address {p : Place} {ref : MemoryRef} (h : p.ReportedBy mode ref) :
    ((ref.address mode next).eval (σ.valuation mode)).toBitVec = p.address .wide next σ := by
  obtain ⟨base, index, scale, displacement⟩ := h
  have displaced : (Expr.const ref.displacement).eval (σ.valuation mode) = p.displacement := displacement.symm
  rw [MemoryRef.address, Expr.eval_reduce, Place.address, scale]
  have whole (x : BitVec 64) : (x.setWidth Mode.wide.bits).setWidth 64 = x := by simp [Mode.bits]
  rw [whole]
  -- an address has a base or none, and an index or none
  obtain ⟨noBase, noBase'⟩ | ⟨b, name, hasBase, hasBase', baseName⟩ := reported_cases base <;>
    obtain ⟨noIndex, noIndex'⟩ | ⟨i, name', hasIndex, hasIndex', indexName⟩ := reported_cases index
  · simp [noBase, noBase', noIndex, noIndex', displaced]
  · simp [noBase, noBase', hasIndex, hasIndex', displaced, eval_add, eval_mul, eval_registerValue_full indexName]
  · simp [hasBase, hasBase', noIndex, noIndex', displaced, eval_add, eval_base baseName]
  · simp [hasBase, hasBase', hasIndex, hasIndex', displaced, eval_add, eval_mul, eval_base baseName,
      eval_registerValue_full indexName]

/-! ### Memory -/

/-- The bytes from an address on denote the integer there. -/
theorem magnitude_bytes {a : BitVec 64} {n : Nat} : Width.magnitude (σ.bytes a n) = (σ.integer a n).toNat := by
  induction n generalizing a with
  | zero => rfl
  | succ n ih =>
    have low : (σ.memory a).toBitVec.toNat < 1 <<< 8 := (σ.memory a).toBitVec.isLt
    show (σ.memory a).toNat + 256 * Width.magnitude (σ.bytes (a + 1) n) =
      (σ.integer (a + 1) n ++ (σ.memory a).toBitVec).toNat
    rw [ih, BitVec.toNat_append, ← Nat.shiftLeft_add_eq_or_of_lt (by simpa using low), Nat.shiftLeft_eq,
      Nat.mul_comm 256, Nat.add_comm]
    rfl

theorem toBitVec_valueOf {w : Width} {bytes : List UInt8} {x : BitVec w.bits} (h : Width.magnitude bytes = x.toNat) :
    (w.valueOf bytes).toBitVec = if w.isSigned then x.signExtend 64 else x.setWidth 64 := by
  have count : (w.count : Int) = (2 ^ w.bits : Nat) := by rw [Width.count, Nat.shiftLeft_eq, Nat.one_mul]
  rw [Width.valueOf, h]
  cases sign : w.isSigned with
  | true =>
    have wrapped : x.signExtend 64 = .ofInt 64 x.toInt := rfl
    rw [if_pos rfl, wrapped, BitVec.toInt_eq_toNat_cond]
    by_cases negative : w.count ≤ 2 * x.toNat
    · rw [if_pos ⟨rfl, negative⟩, if_neg (by omega), Int64.toBitVec_ofInt, count]
    · rw [if_neg (by simp [negative]), if_pos (by omega), Int64.toBitVec_ofInt]
  | false =>
    rw [if_neg (by simp), if_neg (by simp), Int64.toBitVec_ofInt, BitVec.ofInt_natCast, BitVec.ofNat_toNat]

/-- An integer is read from memory with its sign, if it has one, else with zeros above it. -/
theorem eval_load {w : Width} {e : Expr} {a : BitVec 64}
    (address : (e.eval (σ.valuation mode)).toBitVec = a) :
    ((Expr.load e w .little).eval (σ.valuation mode)).toBitVec =
      if w.isSigned then (σ.integer a w.bytes).signExtend 64 else (σ.integer a w.bytes).setWidth 64 := by
  subst address
  exact toBitVec_valueOf magnitude_bytes

end ReachableCode.X86
