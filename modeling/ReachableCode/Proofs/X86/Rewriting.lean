import ReachableCode.Proofs.X86.StepBack
import ReachableCode.Proofs.X86.Values
import ReachableCode.X86.Catalogue

/-!
Going back over a followed instruction. The destination is replaced by an expression for what the instruction
writes, in either mode the 64 bits that expressions have for it. In 64-bit mode these are what the machine
writes, so the new expression has before the instruction the value that the old one has behind it. An expression
is lost just if it depends on a register that is written implicitly, as the condition codes are.
-/

namespace ReachableCode.X86

variable {m : Machine} {d : Decoded} {r : Reading} {o : Operation} {op : Operand} {a next : Address} {σ τ : State}
  {mode : Mode} {mnemonic destination name : String} {target : Expr}

/-! ### Words -/

theorem setWidth_signExtend {k n w : Nat} (h : w ≤ n) (x : BitVec k) :
    (x.signExtend n).setWidth w = x.signExtend w := by
  refine BitVec.eq_of_getLsbD_eq fun i hi => ?_
  simp [BitVec.getElem_signExtend, hi, Nat.lt_of_lt_of_le hi h]

theorem setWidth_sub {n w : Nat} (h : w ≤ n) (x y : BitVec n) :
    (x - y).setWidth w = x.setWidth w - y.setWidth w := by
  rw [BitVec.sub_eq_add_neg, BitVec.setWidth_add _ _ h, BitVec.setWidth_neg_of_le h, ← BitVec.sub_eq_add_neg]

theorem bits_le (part : Part) : part.bits .wide ≤ 64 := by
  cases part <;> decide

theorem unsigned?_bytes {w : Width} (unsigned : w.isSigned = false) : Width.unsigned? w.bytes = some w := by
  cases w with
  | u8 | u16 | u32 | u64 => rfl
  | i8 | i16 | i32 | i64 => cases unsigned

/-- The bytes of a signed width are those of the unsigned width that it is the counterpart of. -/
theorem exists_unsigned?_bytes {w : Width} (signed : w.isSigned = true) :
    ∃ u, Width.unsigned? w.bytes = some u ∧ u.signed = w := by
  cases w with
  | u8 | u16 | u32 | u64 => cases signed
  | i8 => exact ⟨.u8, rfl, rfl⟩
  | i16 => exact ⟨.u16, rfl, rfl⟩
  | i32 => exact ⟨.u32, rfl, rfl⟩
  | i64 => exact ⟨.u64, rfl, rfl⟩

/-! ### Results -/

theorem result?_of_move (h : mnemonic ∈ ["mov", "movzx"]) :
    result? mode next mnemonic destination (some op) = some (op.value mode next) := by
  simp only [List.mem_cons, List.not_mem_nil, or_false] at h
  obtain rfl | rfl := h
  · rfl
  · rfl

theorem result?_of_extension (h : mnemonic ∈ ["movsx", "movsxd"]) {ref : MemoryRef} (kind : op.kind = .memory ref)
    {w : Width} (size : Width.unsigned? op.size = some w) :
    result? mode next mnemonic destination (some op) = some (.load (ref.address mode next) w.signed .little) := by
  simp only [List.mem_cons, List.not_mem_nil, or_false] at h
  obtain rfl | rfl := h
  · simp [result?, kind, size]
  · simp [result?, kind, size]

/-- A load without a sign is a move, one with a sign an extension. -/
theorem result?_of_load {place : Place} {w : Width} (h : mnemonic ∈ (Effect.load place w).mnemonics)
    {ref : MemoryRef} (kind : op.kind = .memory ref) (size : op.size = w.bytes) :
    result? mode next mnemonic destination (some op) = some (.load (ref.address mode next) w .little) := by
  cases sign : w.isSigned with
  | false =>
    have move : mnemonic ∈ ["mov", "movzx"] := by simpa [Effect.mnemonics, sign] using h
    rw [result?_of_move move, Operand.value, kind, size]
    simp [unsigned?_bytes sign]
  | true =>
    have extension : mnemonic ∈ ["movsx", "movsxd"] := by simpa [Effect.mnemonics, sign] using h
    obtain ⟨u, width, rfl⟩ := exists_unsigned?_bytes sign
    exact result?_of_extension extension kind (size ▸ width)

namespace Operation

theorem setWidth_part (o : Operation) (g : Gpr) :
    ((σ.part .wide g o.part).setWidth 64).setWidth (o.part.bits .wide) =
      (σ.gpr g).setWidth (o.part.bits .wide) := by
  -- the part that is written begins at the lowest bit
  have offset : o.part.offset = 0 := by
    rcases o.part_eq with h | h <;> rw [h] <;> rfl
  rw [BitVec.setWidth_setWidth_of_le _ (bits_le o.part), State.part, offset, BitVec.setWidth_eq,
    BitVec.ushiftRight_zero]

/-- What an instruction writes is an expression, and this has the value of the effect in as many bits as the
destination has. -/
theorem exists_result (σ : State) (next : Address) (h : o.ReportedBy mode r)
    (named : o.destination.name? mode o.part = some name) :
    ∃ v, result? mode next (mainWord r.mnemonic) name r.operands[1]? = some v ∧
      (v.eval (σ.valuation mode)).toBitVec.setWidth (o.part.bits .wide) =
        o.effect.result .wide next σ o.destination (o.part.bits .wide) := by
  obtain ⟨op, second, source⟩ := h.source
  have word := h.mnemonic
  have le := bits_le o.part
  rw [second]
  unfold SourceReportedBy at source
  cases effect : o.effect with
  | immediate v =>
    rw [effect] at word source
    refine ⟨op.value mode next, result?_of_move word, ?_⟩
    rw [Operand.value, source, Expr.eval, Effect.result]
  | register g p =>
    rw [effect] at word source
    obtain ⟨sourceName, sourceNamed, kind⟩ := source
    refine ⟨op.value mode next, result?_of_move word, ?_⟩
    rw [Operand.value, kind, eval_registerValue sourceNamed, BitVec.setWidth_setWidth_of_le _ le, Effect.result]
  | load place w =>
    rw [effect] at word source
    obtain ⟨ref, reported, kind, size⟩ := source
    refine ⟨_, result?_of_load word kind size, ?_⟩
    rw [eval_load (eval_address reported), Effect.result]
    split
    · exact setWidth_signExtend le _
    · exact BitVec.setWidth_setWidth_of_le _ le
  | address place =>
    rw [effect] at word source
    obtain ⟨ref, reported, kind⟩ := source
    refine ⟨ref.address mode next, ?_, ?_⟩
    · rw [List.mem_singleton.1 word]
      simp [result?, kind]
    · rw [eval_address reported, Effect.result]
  | add v =>
    rw [effect] at word source
    refine ⟨registerValue mode name + .const v, ?_, ?_⟩
    · rw [List.mem_singleton.1 word]
      simp [result?, source]
    · rw [eval_add, eval_registerValue named, BitVec.setWidth_add _ _ le, o.setWidth_part, Effect.result, Expr.eval]
  | sub v =>
    rw [effect] at word source
    refine ⟨registerValue mode name - .const v, ?_, ?_⟩
    · rw [List.mem_singleton.1 word]
      simp [result?, source]
    · rw [eval_sub, eval_registerValue named, setWidth_sub le, o.setWidth_part, Effect.result, Expr.eval]
  | clear =>
    rw [effect] at word source
    obtain ⟨again, againNamed, kind⟩ := source
    have same : again = name := Option.some.inj (againNamed.symm.trans named)
    refine ⟨.const 0, ?_, ?_⟩
    · rw [List.mem_singleton.1 word]
      simp [result?, kind, same]
    · simp [Expr.eval, Effect.result]

theorem exists_store (σ : State) (mode : Mode) (o : Operation) (v : Expr) : ∃ w, o.part.store v = some w ∧
    (w.eval (σ.valuation mode)).toBitVec =
      ((v.eval (σ.valuation mode)).toBitVec.setWidth (o.part.bits .wide)).setWidth 64 := by
  rcases o.part_eq with h | h
  · refine ⟨v, by rw [h]; rfl, ?_⟩
    simp [h, Part.bits, Mode.bits]
  · refine ⟨keepBits v 0xffffffff, by rw [h]; rfl, ?_⟩
    rw [eval_keepBits 32 (by decide), h]
    rfl

/-- The destination is replaced by an expression for all 64 bits that it gets. -/
theorem exists_replaced (σ : State) (next : Address) (target : Expr) (same : m.mode = mode)
    (h : o.ReportedBy mode r) (named : o.destination.name? mode o.part = some name) :
    ∃ w, m.replace next (mainWord r.mnemonic) name r.operands[1]? target =
        some (target.bind (.single (.register (fullRegister mode name).1) w)).reduce ∧
      (w.eval (σ.valuation mode)).toBitVec =
        (o.effect.result .wide next σ o.destination (o.part.bits .wide)).setWidth 64 := by
  obtain ⟨v, result, value⟩ := exists_result σ next h named
  obtain ⟨w, stored, kept⟩ := exists_store σ mode o v
  refine ⟨w, ?_, by rw [kept, value]⟩
  have part := (Gpr.fullRegister_of_name? named).2
  simp only [Machine.replace, same, result, part, stored, Option.bind_eq_bind, Option.bind_some]
  rfl

/-! ### What is not written -/

theorem ReportedBy.mem_words (h : o.ReportedBy mode r) :
    mainWord r.mnemonic ∈ ["mov", "movzx", "movsx", "movsxd", "lea", "add", "sub", "xor"] := by
  have word := h.mnemonic
  cases effect : o.effect with
  | load _ w =>
    rw [effect, Effect.mnemonics] at word
    split at word
    · exact List.mem_append_right ["mov", "movzx"] (List.mem_append_left ["lea", "add", "sub", "xor"] word)
    · exact List.mem_append_left ["movsx", "movsxd", "lea", "add", "sub", "xor"] word
  | _ =>
    rw [effect, Effect.mnemonics] at word
    grind

theorem ReportedBy.not_transfers (h : o.ReportedBy mode r) : (flowOf r.mnemonic).transfers = false := by
  have words := h.mem_words
  unfold flowOf
  generalize mainWord r.mnemonic = word at words
  revert word
  decide +kernel

theorem ReportedBy.exists_firstWritten (h : o.ReportedBy mode r) :
    ∃ name, r.firstWritten? = some name ∧ o.destination.name? mode o.part = some name := by
  obtain ⟨op, name, first, kind, named, access⟩ := h.destination
  have isWritten : op.isWritten (mainWord r.mnemonic) = true := by
    cases told : op.access with
    | none =>
      have words := h.mem_words
      rw [Operand.isWritten, told]
      generalize mainWord r.mnemonic = word at words
      revert word
      decide
    | some how =>
      rw [Operand.isWritten, told]
      cases how with
      | read => exact absurd told access
      | write | readWrite => rfl
  refine ⟨name, Reading.firstWritten?_eq_some.2 ?_, named⟩
  obtain ⟨sources, operands⟩ := List.head?_eq_some_iff.1 (List.head?_eq_getElem?.trans first)
  exact ⟨op, sources, operands, kind, isWritten⟩

/-- `τ` is `σ` but for the destination of the operation, and for the condition codes if it writes them. -/
structure Keeps (mode : Mode) (o : Operation) (σ τ : State) : Prop where
  kept : ∀ g, g ≠ o.destination → τ.gpr g = σ.gpr g
  memory : τ.memory = σ.memory
  other : ∀ s, (o.effect.setsFlags = true → s ≠ .register mode.flags) → τ.other s = σ.other s

theorem Executes.keeps (executes : o.Executes mode next σ τ) : o.Keeps mode σ τ :=
  ⟨executes.kept, executes.memory, executes.other⟩

namespace Keeps

/-- Symbols other than the destination stand for the same before and behind an instruction, unless it writes
the condition codes. -/
theorem symbol_eq (keeps : o.Keeps mode σ τ) (reported : o.ReportedBy mode r)
    (implicit : ¬r.WritesImplicitly mode target) (named : o.destination.name? mode .full = some name) {s : Symbol}
    (mentioned : target.mentions s = true) (other : s ≠ .register name) :
    (τ.valuation mode).symbol s = (σ.valuation mode).symbol s := by
  cases s with
  | label => exact keeps.other _ nofun
  | register s =>
    cases found : Gpr.ofName? mode s with
    | some g =>
      have apart : g ≠ o.destination := by
        rintro rfl
        exact other (congrArg Symbol.register (Option.some.inj ((Gpr.name?_of_ofName? found).symm.trans named)))
      simp only [State.valuation, found, Option.elim_some, keeps.kept g apart]
    | none =>
      have flags : fullRegister mode mode.flags = (mode.flags, .full) := by cases mode <;> decide
      simp only [State.valuation, found, Option.elim_none]
      refine keeps.other _ fun sets same => implicit ⟨mode.flags, reported.flags sets, ?_⟩
      rw [flags, Machine.mentions, ← same, mentioned]

theorem memory_eq (keeps : o.Keeps mode σ τ) : (τ.valuation mode).memory = (σ.valuation mode).memory := by
  simp only [State.valuation, State.bytes_congr keeps.memory]

theorem eval_eq (keeps : o.Keeps mode σ τ) (reported : o.ReportedBy mode r)
    (implicit : ¬r.WritesImplicitly mode target) (named : o.destination.name? mode .full = some name)
    (absent : ¬Machine.mentions target name = true) :
    target.eval (σ.valuation mode) = target.eval (τ.valuation mode) := by
  refine Expr.eval_congr (fun s mentioned => ?_) keeps.memory_eq.symm
  have other : s ≠ .register name := by
    rintro rfl
    exact absent mentioned
  exact (keeps.symbol_eq reported implicit named mentioned other).symm

/-- Putting what the destination holds behind an instruction in its place gives the value there. -/
theorem eval_bind (keeps : o.Keeps mode σ τ) (reported : o.ReportedBy mode r)
    (implicit : ¬r.WritesImplicitly mode target) (named : o.destination.name? mode .full = some name) {w : Expr}
    (written : (w.eval (σ.valuation mode)).toBitVec = τ.gpr o.destination) :
    (target.bind (.single (.register name) w)).eval (σ.valuation mode) = target.eval (τ.valuation mode) := by
  rw [Expr.eval_bind]
  refine Expr.eval_congr (fun s mentioned => ?_) keeps.memory_eq.symm
  by_cases destination : s = .register name
  · have value : (τ.valuation mode).symbol s = w.eval (σ.valuation mode) := by
      rw [destination, ← Int64.toBitVec_inj, written]
      exact eval_register named
    simp only [Valuation.bind, Bindings.single, destination, if_true, ← value]
  · simp only [Valuation.bind, Bindings.single, if_neg destination,
      keeps.symbol_eq reported implicit named mentioned destination]

end Keeps

theorem Executes.eval_eq (executes : o.Executes mode next σ τ) (reported : o.ReportedBy mode r)
    (implicit : ¬r.WritesImplicitly mode target) (named : o.destination.name? mode .full = some name)
    (absent : ¬Machine.mentions target name = true) :
    target.eval (σ.valuation mode) = target.eval (τ.valuation mode) :=
  executes.keeps.eval_eq reported implicit named absent

/-- Putting what is written in the place of the destination gives the value behind an instruction. -/
theorem Executes.eval_bind (executes : o.Executes mode next σ τ) (reported : o.ReportedBy mode r)
    (implicit : ¬r.WritesImplicitly mode target) (named : o.destination.name? mode .full = some name) {w : Expr}
    (written : (w.eval (σ.valuation mode)).toBitVec =
      (o.effect.result mode next σ o.destination (o.part.bits mode)).setWidth 64) :
    (target.bind (.single (.register name) w)).eval (σ.valuation mode) = target.eval (τ.valuation mode) :=
  executes.keeps.eval_bind reported implicit named (written.trans executes.written.symm)

end Operation

namespace Machine

/-- What going back over a followed instruction gives has before it the value that the expression has behind it,
and nothing but an implicit write loses an expression. -/
theorem rewriting_is_exact (wide : m.mode = .wide) (reads : m.Reads d r) (reported : o.ReportedBy .wide r)
    (executes : o.Executes .wide (a + d.size) σ τ) :
    (∀ e, m.stepBack d a target = .ok (some e) → e.eval (σ.valuation .wide) = target.eval (τ.valuation .wide)) ∧
      (m.stepBack d a target = .ok none ↔ r.WritesImplicitly .wide target) := by
  by_cases implicit : r.WritesImplicitly .wide target
  · rw [reads.stepBack_of_writesImplicitly reported.not_transfers (wide ▸ implicit)]
    exact ⟨nofun, iff_of_true rfl implicit⟩
  have notLost : ¬r.WritesImplicitly m.mode target := wide ▸ implicit
  obtain ⟨name, first, named⟩ := reported.exists_firstWritten
  have full := (Gpr.fullRegister_of_name? named).1
  by_cases hit : mentions target (fullRegister .wide name).1 = true
  · -- the destination is replaced, if the address behind the instruction exists
    rw [reads.stepBack_of_firstWritten reported.not_transfers notLost first (wide ▸ hit), Address.plus]
    split
    · obtain ⟨w, replaced, written⟩ :=
        Operation.exists_replaced σ (a + d.size) target wide reported named
      rw [Except.map, replaced]
      refine ⟨fun e h => ?_, iff_of_false nofun implicit⟩
      cases h
      rw [Expr.eval_reduce, executes.eval_bind reported implicit full written]
    · exact ⟨nofun, iff_of_false nofun implicit⟩
  · -- the destination is written, and the expression does not depend on it
    have unwritten : ¬r.WritesFirst m.mode target := by
      rintro ⟨other, written, mentioned⟩
      cases written.symm.trans first
      exact hit (wide ▸ mentioned)
    rw [reads.stepBack_of_kept reported.not_transfers notLost unwritten]
    refine ⟨fun e h => ?_, iff_of_false nofun implicit⟩
    cases h
    exact executes.eval_eq reported implicit full hit

/-- `movsxd rax, dword ptr [rbx + rax*4]` -/
def tableLoad : Reading where
  size := 4
  mnemonic := "movsxd"
  operandText := "rax, dword ptr [rbx + rax*4]"
  operands := [Entry.reg "rax" 8 .write, Entry.mem (some "rbx") (some "rax") 4 0 4 .read]
  implicitWrites := []

/-- The entry of a table that `rbx` points to, with the number in `rax`. -/
def tableEntry : Operation where
  destination := .ax
  part := .full
  effect := .load { base := some (.register .bx), index := some .ax, scale := 4, displacement := 0 } .i32
  part_eq := Or.inl rfl

theorem tableEntry_reportedBy : tableEntry.ReportedBy .wide tableLoad where
  mnemonic := by decide
  destination := ⟨_, "rax", rfl, rfl, rfl, nofun⟩
  source := ⟨_, rfl, _, ⟨rfl, rfl, rfl, rfl⟩, rfl, rfl⟩
  flags := nofun

/-- The second entry of a table of which all bytes are `0xf0`. -/
def inTable : State where
  gpr g := if g = .ax then 1 else 0x2000
  memory _ := 0xf0
  other _ := 0

/-- The sum of an entry and the address of its table, as the targets of a switch are given. -/
theorem table_entry_is_rewritten :
    let target := Expr.register "rax" + .register "rbx"
    let entry := Expr.load (.register "rbx" + .binary .mul (.register "rax") (.const 4)) .i32 .little
    (ofMode .wide).stepBack (decoded tableLoad 0x1000 [0x48, 0x63, 0x04, 0x83]) 0x1000 target =
        .ok (some (entry + .register "rbx")) ∧
      (entry + .register "rbx").eval (inTable.valuation .wide) =
        target.eval ((tableEntry.run .wide 0x1004 inTable).valuation .wide) := by
  intro target entry
  have reads : (ofMode .wide).Reads (decoded tableLoad 0x1000 [0x48, 0x63, 0x04, 0x83]) tableLoad :=
    reads_decoded (by decide +kernel)
  have back : (ofMode .wide).stepBack (decoded tableLoad 0x1000 [0x48, 0x63, 0x04, 0x83]) 0x1000 target =
      .ok (some (entry + .register "rbx")) := by
    have written : tableLoad.firstWritten? = some "rax" := rfl
    rw [reads.stepBack_of_firstWritten tableEntry_reportedBy.not_transfers nofun written (by decide)]
    exact congrArg Except.ok (by decide +kernel)
  exact ⟨back, (rewriting_is_exact rfl reads tableEntry_reportedBy Operation.executes_run).1 _ back⟩

end Machine

end ReachableCode.X86
