import ReachableCode.Proofs.Search.Value
import ReachableCode.Proofs.X86.Rewriting

/-!
Going back over a followed instruction in 32-bit mode. In 64-bit mode what is written to the lower half of a
register is masked; here the half is the full register and nothing is masked, so the expression keeps the
result as the 64 bits of expressions have it, and the machine keeps the lowest 32 of them. The two agree just
where the result fits, and then an address found by going back is one of 32 bits.
-/

namespace ReachableCode.X86

variable {m : Machine} {d : Decoded} {r : Reading} {o : Operation} {a next : Address} {σ τ : State} {g : Gpr}
  {name : String} {target e : Expr} {p : Program} {t : Target}

namespace State

/-- Another content of a register. -/
def put (σ : State) (g : Gpr) (v : BitVec 64) : State :=
  { σ with gpr := fun h => if h = g then v else σ.gpr h }

theorem put_eq_self {v : BitVec 64} (h : σ.gpr g = v) : σ.put g v = σ := by
  have same : (fun k => if k = g then v else σ.gpr k) = σ.gpr := by
    funext k
    split
    next e => rw [e, h]
    · rfl
  rw [put, same]

/-- The registers hold 32 bits. -/
def IsNarrow (σ : State) : Prop :=
  ∀ g, (σ.gpr g).toNat < 0x100000000

/-- Memory holds the bytes of the sections of a program. -/
def HoldsImage (σ : State) (p : Program) : Prop :=
  ∀ s ∈ p.sections, ∀ {i b}, s.byteAt i = some b → σ.memory (s.base.toBitVec + .ofNat 64 i) = b

theorem bytesFrom_eq {s : Section} {i n : Nat}
    (held : ∀ {i b}, s.byteAt i = some b → σ.memory (s.base.toBitVec + .ofNat 64 i) = b)
    (mapped : n ≤ (s.bytesFrom i n).length) : s.bytesFrom i n = σ.bytes (s.base.toBitVec + .ofNat 64 i) n := by
  induction n generalizing i with
  | zero => rfl
  | succ n ih =>
    rw [Section.bytesFrom] at mapped ⊢
    split at mapped
    · cases mapped
    next b hb =>
      have next : s.base.toBitVec + .ofNat 64 i + 1 = s.base.toBitVec + .ofNat 64 (i + 1) := by
        rw [BitVec.add_assoc, BitVec.ofNat_add]
        rfl
      rw [bytes, held hb, next, ← ih (Nat.le_of_succ_le_succ mapped)]

/-- What is read from the image is what lies in memory. -/
theorem HoldsImage.memory_eq (held : σ.HoldsImage p) {v a : Int64} {w : Width} {o : ByteOrder}
    (h : p.intAt a.toUInt64 w o = some v) : (σ.valuation .narrow).memory a w o = v := by
  unfold Program.intAt at h
  split at h
  next c hc =>
    have place := Program.mem_of_cursorAt hc
    have offset : c.place.base.toBitVec + .ofNat 64 c.offset.toNat = a.toBitVec := by
      obtain ⟨s?, -, hc⟩ := bind_eq_ok.1 hc
      obtain ⟨s, -, rfl⟩ := Option.map_eq_some_iff.1 (Except.ok.inj hc)
      show s.base.toBitVec + .ofNat 64 (a.toUInt64 - s.base).toBitVec.toNat = a.toUInt64.toBitVec
      rw [BitVec.ofNat_toNat, BitVec.setWidth_eq, UInt64.toBitVec_sub, BitVec.add_comm, BitVec.sub_add_cancel]
    split at h
    next read after hread =>
      cases h
      obtain ⟨raw, hraw, hread⟩ := bind_eq_ok.1 hread
      obtain ⟨_, -, hraw⟩ := bind_eq_ok.1 hraw
      cases hraw
      have size : (UInt64.ofNat w.bytes).toNat = w.bytes := by cases w <;> rfl
      split at hread
      · cases hread
      next mapped =>
        obtain ⟨_, -, hread⟩ := bind_eq_ok.1 hread
        cases hread
        rw [size] at mapped ⊢
        rw [bytesFrom_eq (held _ place) (Nat.le_of_not_lt mapped), offset]
        rfl
    · cases h
  · cases h

end State

/-! ### Results that fit -/

theorem eq_setWidth_iff {x : BitVec 64} : x = (x.setWidth 32).setWidth 64 ↔ x.toNat < 0x100000000 := by
  rw [← BitVec.toNat_inj, BitVec.toNat_setWidth, BitVec.toNat_setWidth]
  omega

theorem Place.address_narrow {place : Place} :
    place.address .narrow next σ = ((place.address .wide next σ).setWidth 32).setWidth 64 := by
  simp [Place.address, Mode.bits]

namespace Operation

theorem full_eq : Part.full = .full ∨ Part.full = .low32 :=
  Or.inl rfl

/-- An operation on a full register. -/
def onFull (g : Gpr) (effect : Effect) : Operation :=
  ⟨g, .full, effect, full_eq⟩

/-- The result in 64 bits, of which the machine writes the lowest 32. -/
def uncut (o : Operation) (next : Address) (σ : State) : BitVec 64 :=
  o.effect.result .wide next σ o.destination 64

/-- The result in 64 bits is what the machine writes. -/
def Fits (o : Operation) (next : Address) (σ : State) : Prop :=
  o.uncut next σ = (o.effect.result .narrow next σ o.destination 32).setWidth 64

theorem Executes.written_narrow (executes : o.Executes .narrow next σ τ) :
    τ.gpr o.destination = (o.effect.result .narrow next σ o.destination 32).setWidth 64 := by
  have bits : o.part.bits .narrow = 32 := by rcases o.part_eq with h | h <;> rw [h] <;> rfl
  rw [executes.written, bits]

theorem setWidth_part_narrow {part : Part} :
    (σ.part .narrow g part).setWidth 32 = ((σ.part .wide g part).setWidth 64).setWidth 32 := by
  cases part <;> simp [State.part, Part.bits, Part.offset, Mode.bits]

/-- The machine writes the lowest 32 bits of the result, if that is not loaded from another place. -/
theorem result_narrow {effect : Effect} (places : ∀ place w, effect = .load place w →
    place.address .narrow next σ = place.address .wide next σ) :
    effect.result .narrow next σ g 32 = (effect.result .wide next σ g 64).setWidth 32 := by
  have le : 32 ≤ 64 := by decide
  cases effect with
  | immediate v => simp [Effect.result]
  | register h part => exact setWidth_part_narrow
  | load place w =>
    rw [Effect.result, Effect.result, places place w rfl]
    split
    · exact (setWidth_signExtend le _).symm
    · exact (BitVec.setWidth_setWidth_of_le _ le).symm
  | address place =>
    rw [Effect.result, Effect.result, Place.address_narrow]
    simp
  | add v => simp [Effect.result, BitVec.setWidth_add _ _ le]
  | sub v => simp [Effect.result, setWidth_sub le]
  | clear => simp [Effect.result]

/-- A result that is not loaded from beyond 32 bits fits just if it has 32 bits itself. -/
theorem fits_iff (places : ∀ place w, o.effect = .load place w →
    (place.address .wide next σ).toNat < 0x100000000) : o.Fits next σ ↔ (o.uncut next σ).toNat < 0x100000000 := by
  rw [Fits, result_narrow fun place w h => ?_, ← eq_setWidth_iff]
  · rfl
  · rw [Place.address_narrow, ← eq_setWidth_iff.2 (places place w h)]

theorem ReportedBy.part_full (h : o.ReportedBy .narrow r) : o.part = .full := by
  obtain ⟨op, name, -, -, named, -⟩ := h.destination
  refine o.part_eq.resolve_right fun low => ?_
  rw [low] at named
  cases named

theorem Keeps.put {mode : Mode} {v : BitVec 64} (keeps : o.Keeps mode σ τ) :
    o.Keeps mode σ (τ.put o.destination v) :=
  ⟨fun g apart => (if_neg apart).trans (keeps.kept g apart), keeps.memory, keeps.other⟩

end Operation

namespace Machine

/-- The instruction `d` at `a` is the followed operation `o`, and takes the state `σ` to `τ`. -/
structure Follows (m : Machine) (d : Decoded) (a : Address) (o : Operation) (σ τ : State) : Prop where
  reported : ∃ r, m.Reads d r ∧ o.ReportedBy .narrow r
  executes : o.Executes .narrow (a + d.size) σ τ

/-- Going back from `target` in the state `τ` over followed instructions whose results fit, one comes to
the expression `e` in the state `σ`. -/
inductive Retraces (m : Machine) (target : Expr) (τ : State) : State → Expr → Prop
  | start : Retraces m target τ τ target
  | back {σ σ' : State} {e e' : Expr} {d : Decoded} {a : Address} {o : Operation} :
      Retraces m target τ σ' e' → m.Follows d a o σ σ' → o.Fits (a + d.size) σ →
      m.stepBack d a e' = .ok (some e) → Retraces m target τ σ e

/-! ### One instruction -/

/-- What an expression is rewritten to has the value that the expression has behind the instruction if the
destination holds the uncut result there. -/
theorem Follows.eval_stepBack (narrow : m.mode = .narrow) (h : m.Follows d a o σ τ)
    (back : m.stepBack d a target = .ok (some e)) : e.eval (σ.valuation .narrow) =
      target.eval ((τ.put o.destination (o.uncut (a + d.size) σ)).valuation .narrow) := by
  obtain ⟨r, reads, reported⟩ := h.reported
  have keeps := h.executes.keeps.put (v := o.uncut (a + d.size) σ)
  by_cases implicit : r.WritesImplicitly .narrow target
  · rw [reads.stepBack_of_writesImplicitly reported.not_transfers (narrow ▸ implicit)] at back
    cases back
  have notLost : ¬r.WritesImplicitly m.mode target := narrow ▸ implicit
  obtain ⟨name, first, named⟩ := reported.exists_firstWritten
  have full := (Gpr.fullRegister_of_name? named).1
  by_cases hit : mentions target (fullRegister .narrow name).1 = true
  · rw [reads.stepBack_of_firstWritten reported.not_transfers notLost first (narrow ▸ hit), Address.plus] at back
    split at back
    · obtain ⟨w, replaced, written⟩ :=
        Operation.exists_replaced σ (a + d.size) target narrow reported named
      rw [Except.map, replaced] at back
      cases back
      rw [Expr.eval_reduce, keeps.eval_bind reported implicit full]
      have bits : o.part.bits .wide = 64 := by rw [reported.part_full]; rfl
      rw [written, bits, BitVec.setWidth_eq]
      exact (if_pos rfl).symm
    · cases back
  · have unwritten : ¬r.WritesFirst m.mode target := by
      rintro ⟨other, written, mentioned⟩
      cases written.symm.trans first
      exact hit (narrow ▸ mentioned)
    rw [reads.stepBack_of_kept reported.not_transfers notLost unwritten] at back
    cases back
    exact keeps.eval_eq reported implicit full hit

theorem Follows.eval_eq (narrow : m.mode = .narrow) (h : m.Follows d a o σ τ) (fits : o.Fits (a + d.size) σ)
    (back : m.stepBack d a target = .ok (some e)) :
    e.eval (σ.valuation .narrow) = target.eval (τ.valuation .narrow) := by
  rw [h.eval_stepBack narrow back, State.put_eq_self (h.executes.written_narrow.trans fits.symm)]

/-- The destination itself is rewritten to what it holds behind the instruction only if the result fits. -/
theorem Follows.eval_eq_iff (narrow : m.mode = .narrow) (h : m.Follows d a o σ τ)
    (named : o.destination.name? .narrow .full = some name)
    (back : m.stepBack d a (.register name) = .ok (some e)) :
    e.eval (σ.valuation .narrow) = (Expr.register name).eval (τ.valuation .narrow) ↔
      o.Fits (a + d.size) σ := by
  rw [h.eval_stepBack narrow back, ← Int64.toBitVec_inj, eval_register named, eval_register named,
    h.executes.written_narrow]
  exact iff_of_eq (congrArg (· = _) (if_pos rfl))

theorem Follows.isNarrow (h : m.Follows d a o σ τ) (narrow : σ.IsNarrow) : τ.IsNarrow := by
  intro g
  by_cases written : g = o.destination
  · rw [written, h.executes.written_narrow, BitVec.toNat_setWidth]
    exact Nat.lt_of_le_of_lt (Nat.mod_le _ _) (BitVec.isLt _)
  · rw [h.executes.kept g written]
    exact narrow g

/-! ### Several instructions -/

namespace Retraces

theorem eval_eq (narrow : m.mode = .narrow) (h : m.Retraces target τ σ e) :
    e.eval (σ.valuation .narrow) = target.eval (τ.valuation .narrow) := by
  induction h with
  | start => rfl
  | back _ follows fits back ih => rw [follows.eval_eq narrow fits back, ih]

theorem isNarrow (h : m.Retraces target τ σ e) (narrow : σ.IsNarrow) : τ.IsNarrow := by
  induction h with
  | start => exact narrow
  | back _ follows _ _ ih => exact ih (follows.isNarrow narrow)

theorem unlabelled (h : m.Retraces target τ σ e) (ht : target.Unlabelled) : e.Unlabelled := by
  induction h with
  | start => exact ht
  | back _ _ _ back ih => exact unlabelled_of_stepBack ih back

/-- Where all results fit, an expression for a register resolves to nothing but what the register holds. -/
theorem eq_of_resolve (narrow : m.mode = .narrow) (named : g.name? .narrow .full = some name)
    (h : m.Retraces (.register name) τ σ e) (unrelocated : p.Unrelocated) (held : σ.HoldsImage p)
    (resolved : p.resolve e = .ok (some t)) : t = .address (.ofBitVec (τ.gpr g)) := by
  obtain ⟨v, rfl, value⟩ := unrelocated.value_of_resolve (h.unlabelled fun _ => rfl) resolved
  have evaluated : e.eval (σ.valuation .narrow) = v := Expr.eval_of_value held.memory_eq (value _)
  have gpr : v.toBitVec = τ.gpr g := by rw [← evaluated, h.eval_eq narrow, eval_register named]
  rw [← gpr]
  rfl

end Retraces

/-- Going back over a followed instruction in 32-bit mode is exact for an uncut result; so it is exact for what
the machine writes if the result fits, and for the destination itself only then. Where all results fit, a
register resolves to nothing but the 32 bits that it holds. -/
theorem narrow_rewriting_is_exact_if_results_fit (narrow : m.mode = .narrow) :
    (∀ {d a o σ τ}, m.Follows d a o σ τ →
      (∀ {target e}, m.stepBack d a target = .ok (some e) →
        e.eval (σ.valuation .narrow) =
            target.eval ((τ.put o.destination (o.uncut (a + d.size) σ)).valuation .narrow) ∧
          (o.Fits (a + d.size) σ → e.eval (σ.valuation .narrow) = target.eval (τ.valuation .narrow))) ∧
      (∀ {name e}, o.destination.name? .narrow .full = some name →
        m.stepBack d a (.register name) = .ok (some e) →
          (e.eval (σ.valuation .narrow) = (Expr.register name).eval (τ.valuation .narrow) ↔
            o.Fits (a + d.size) σ)) ∧
      ((∀ place w, o.effect = .load place w → (place.address .wide (a + d.size) σ).toNat < 0x100000000) →
        (o.Fits (a + d.size) σ ↔ (o.uncut (a + d.size) σ).toNat < 0x100000000))) ∧
    ∀ {g name σ τ e}, g.name? .narrow .full = some name → σ.IsNarrow → m.Retraces (.register name) τ σ e →
      (e.eval (σ.valuation .narrow)).toBitVec = τ.gpr g ∧ (τ.gpr g).toNat < 0x100000000 ∧
        ∀ {p t}, p.Unrelocated → σ.HoldsImage p → p.resolve e = .ok (some t) →
          t = .address (.ofBitVec (τ.gpr g)) := by
  refine ⟨fun {d a o σ τ} follows => ⟨fun {target e} back => ?_, fun {name e} named back => ?_, ?_⟩, ?_⟩
  · exact ⟨follows.eval_stepBack narrow back, fun fits => follows.eval_eq narrow fits back⟩
  · exact follows.eval_eq_iff narrow named back
  · exact Operation.fits_iff
  · intro g name σ τ e named narrowState retraces
    refine ⟨?_, retraces.isNarrow narrowState g, retraces.eq_of_resolve narrow named⟩
    rw [retraces.eval_eq narrow, eval_register named]

/-- `mov ecx, 2` -/
def moveTwo : Reading where
  size := 5
  mnemonic := "mov"
  operandText := "ecx, 2"
  operands := [Entry.reg "ecx" 4 .write, Entry.imm 2 4]
  implicitWrites := []

/-- `mov eax, dword ptr [ecx*4 + 0x2000]` -/
def loadEntry : Reading where
  size := 7
  mnemonic := "mov"
  operandText := "eax, dword ptr [ecx*4 + 0x2000]"
  operands := [Entry.reg "eax" 4 .write, Entry.mem none (some "ecx") 4 0x2000 4 .read]
  implicitWrites := []

/-- The number of an entry. -/
def entryNumber : Operation := .onFull .cx (.immediate 2)

theorem entryNumber_reportedBy : entryNumber.ReportedBy .narrow moveTwo where
  mnemonic := by decide
  destination := ⟨_, "ecx", rfl, rfl, rfl, nofun⟩
  source := ⟨_, rfl, rfl⟩
  flags := nofun

/-- The entry with the number in `ecx`. -/
def numberedEntry : Operation :=
  .onFull .ax (.load { base := none, index := some .cx, scale := 4, displacement := 0x2000 } .u32)

theorem numberedEntry_reportedBy : numberedEntry.ReportedBy .narrow loadEntry where
  mnemonic := by decide
  destination := ⟨_, "eax", rfl, rfl, rfl, nofun⟩
  source := ⟨_, rfl, _, ⟨rfl, rfl, rfl, rfl⟩, rfl, rfl⟩
  flags := nofun

/-- Three addresses. -/
def addressTable : Section :=
  .ofData ".rodata" 0x2000 #[0x00, 0x10, 0x00, 0x00, 0x08, 0x10, 0x00, 0x00, 0x10, 0x10, 0x00, 0x00]

/-- The table lies in memory, and the registers are zero. -/
def aboveTable : State where
  gpr _ := 0
  memory a := addressTable.data.getD (a - 0x2000).toNat 0
  other _ := 0

theorem aboveTable_holdsImage : aboveTable.HoldsImage { Program.empty .x86_32 with sections := [addressTable] } := by
  intro s hs i b hb
  cases List.mem_singleton.1 hs
  have bytes : ∀ i < 12, addressTable.byteAt i = some (aboveTable.memory (0x2000 + .ofNat 64 i)) := by
    decide +kernel
  have inside : i < 12 := by
    unfold Section.byteAt at hb
    split at hb
    · assumption
    · split at hb
      · assumption
      · cases hb
  exact Option.some.inj ((bytes i inside).symm.trans hb)

/-- The entry of a table of addresses that is loaded by its number. -/
theorem numbered_entry_resolves :
    let p : Program := { Program.empty .x86_32 with sections := [addressTable] }
    let σ := entryNumber.run .narrow 0x1005 aboveTable
    let τ := numberedEntry.run .narrow 0x100c σ
    let e := Expr.load (.const 0x2008) .u32 .little
    (ofMode .narrow).Retraces (.register "eax") τ aboveTable e ∧ p.resolve e = .ok (some (.address 0x1010)) ∧
      (e.eval (aboveTable.valuation .narrow)).toBitVec = τ.gpr .ax ∧
        Target.address 0x1010 = .address (.ofBitVec (τ.gpr .ax)) := by
  intro p σ τ e
  let move := decoded moveTwo 0x1000 [0xb9, 0x02, 0x00, 0x00, 0x00]
  let load := decoded loadEntry 0x1005 [0x8b, 0x04, 0x8d, 0x00, 0x20, 0x00, 0x00]
  have moves : (ofMode .narrow).Reads move moveTwo := reads_decoded (by decide +kernel)
  have loads : (ofMode .narrow).Reads load loadEntry := reads_decoded (by decide +kernel)
  have afterMove : (0x1000 : Address) + move.size = 0x1005 := by decide
  have afterLoad : (0x1005 : Address) + load.size = 0x100c := by decide
  -- the entry before its number is known
  let numbered := Expr.load (.const 0x2000 + .binary .mul (.register "ecx") (.const 4)) .u32 .little
  have overLoad : (ofMode .narrow).stepBack load 0x1005 (.register "eax") = .ok (some numbered) := by
    have written : loadEntry.firstWritten? = some "eax" := rfl
    rw [loads.stepBack_of_firstWritten numberedEntry_reportedBy.not_transfers nofun written (by decide)]
    exact congrArg Except.ok (by decide +kernel)
  have overMove : (ofMode .narrow).stepBack move 0x1000 numbered = .ok (some e) := by
    have written : moveTwo.firstWritten? = some "ecx" := rfl
    rw [moves.stepBack_of_firstWritten entryNumber_reportedBy.not_transfers nofun written (by decide)]
    exact congrArg Except.ok (by decide +kernel)
  have behindMove : (ofMode .narrow).Retraces (.register "eax") τ σ numbered := by
    refine .back .start ⟨⟨_, loads, numberedEntry_reportedBy⟩, ?_⟩ ?_ overLoad
    · rw [afterLoad]
      exact Operation.executes_run
    · rw [afterLoad]
      refine (Operation.fits_iff fun place w effect => ?_).2 (by decide +kernel)
      cases effect
      decide +kernel
  have retraces : (ofMode .narrow).Retraces (.register "eax") τ aboveTable e := by
    refine .back behindMove ⟨⟨_, moves, entryNumber_reportedBy⟩, ?_⟩ ?_ overMove
    · rw [afterMove]
      exact Operation.executes_run
    · rw [afterMove]
      rfl
  have unrelocated : p.Unrelocated := by
    intro s hs
    cases List.mem_singleton.1 hs
    rfl
  have resolved : p.resolve e = .ok (some (.address 0x1010)) := rfl
  have named : Gpr.ax.name? .narrow .full = some "eax" := rfl
  have zero : aboveTable.IsNarrow := fun _ => Nat.zero_lt_succ _
  obtain ⟨value, -, only⟩ := (narrow_rewriting_is_exact_if_results_fit rfl).2 named zero retraces
  exact ⟨retraces, resolved, value, only unrelocated aboveTable_holdsImage resolved⟩

/-- `mov eax, 0xffffffff` -/
def moveOnes : Reading where
  size := 5
  mnemonic := "mov"
  operandText := "eax, 0xffffffff"
  operands := [Entry.reg "eax" 4 .write, Entry.imm 0xffffffff 4]
  implicitWrites := []

/-- `add eax, 0x1011` -/
def addAddress : Reading where
  size := 5
  mnemonic := "add"
  operandText := "eax, 0x1011"
  operands := [Entry.reg "eax" 4 .readWrite, Entry.imm 0x1011 4]
  implicitWrites := ["eflags"]

/-- All bits of the register. -/
def ones : Operation := .onFull .ax (.immediate 0xffffffff)

/-- The sum with an address. -/
def addressAdded : Operation := .onFull .ax (.add 0x1011)

/-- The carry of a sum is lost in the machine and kept in the expression, which resolves to an address of more
than 32 bits. -/
theorem carry_is_kept :
    let move := decoded moveOnes 0x1000 [0xb8, 0xff, 0xff, 0xff, 0xff]
    let add := decoded addAddress 0x1005 [0x05, 0x11, 0x10, 0x00, 0x00]
    let sum := Expr.register "eax" + .const 0x1011
    let σ := ones.run .narrow 0x1005 aboveTable
    let τ := addressAdded.run .narrow 0x100a σ
    aboveTable.IsNarrow ∧ (ofMode .narrow).Follows move 0x1000 ones aboveTable σ ∧
      (ofMode .narrow).Follows add 0x1005 addressAdded σ τ ∧
      (ofMode .narrow).stepBack add 0x1005 (.register "eax") = .ok (some sum) ∧
      sum.eval (σ.valuation .narrow) = 0x100001010 ∧
      (Expr.register "eax").eval (τ.valuation .narrow) = 0x1010 ∧
      (ofMode .narrow).stepBack move 0x1000 sum = .ok (some (.const 0x100001010)) ∧
      (Program.empty .x86_32).resolve (.const 0x100001010) = .ok (some (.address 0x100001010)) := by
  intro move add sum σ τ
  have moves : (ofMode .narrow).Reads move moveOnes := reads_decoded (by decide +kernel)
  have adds : (ofMode .narrow).Reads add addAddress := reads_decoded (by decide +kernel)
  have afterMove : (0x1000 : Address) + move.size = 0x1005 := by decide
  have afterAdd : (0x1005 : Address) + add.size = 0x100a := by decide
  have moveReported : ones.ReportedBy .narrow moveOnes :=
    ⟨by decide, ⟨_, "eax", rfl, rfl, rfl, nofun⟩, ⟨_, rfl, rfl⟩, nofun⟩
  have addReported : addressAdded.ReportedBy .narrow addAddress :=
    ⟨by decide, ⟨_, "eax", rfl, rfl, rfl, nofun⟩, ⟨_, rfl, rfl⟩, fun _ => List.mem_cons_self⟩
  have kept : ¬addAddress.WritesImplicitly .narrow (.register "eax") := by
    rintro ⟨name, written, mentioned⟩
    cases List.mem_singleton.1 written
    exact absurd mentioned (by decide)
  have zero : aboveTable.IsNarrow := fun _ => Nat.zero_lt_succ _
  refine ⟨zero, ⟨⟨_, moves, moveReported⟩, ?_⟩, ⟨⟨_, adds, addReported⟩, ?_⟩, ?_, ?_, ?_, ?_, rfl⟩
  · rw [afterMove]
    exact Operation.executes_run
  · rw [afterAdd]
    exact Operation.executes_run
  · have written : addAddress.firstWritten? = some "eax" := rfl
    rw [adds.stepBack_of_firstWritten addReported.not_transfers kept written (by decide)]
    exact congrArg Except.ok (by decide +kernel)
  · decide +kernel
  · decide +kernel
  · have written : moveOnes.firstWritten? = some "eax" := rfl
    rw [moves.stepBack_of_firstWritten moveReported.not_transfers nofun written (by decide)]
    exact congrArg Except.ok (by decide +kernel)

end Machine

end ReachableCode.X86
