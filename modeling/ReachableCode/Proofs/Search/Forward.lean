import ReachableCode.Proofs.Code.Safe
import ReachableCode.Proofs.Search.Paths
import ReachableCode.Proofs.Search.Value

/-!
What the addresses that a backward search finds mean on the toy machine. A search goes back over a path and
puts what is written into what is wanted; executed forward, the instructions of the path take the registers
to values where what is wanted has the value of what the search ended with. So an address that is found is
the value of a candidate after the path, whatever the registers hold before it.
-/

namespace ReachableCode

namespace Toy

/-- The register that an instruction writes and its new value, which may be any if there is none. -/
def Op.result (p : Program) (r : Registers) : Op → Option (String × Option Int64)
  | movImmediate n v => some (registerName n, some v)
  | movLoad n a => some (registerName n, p.intAt a.toUInt64 .u32 .little)
  | movRegister n m => some (registerName n, some (r (registerName m)))
  | clobber n => some (registerName n, none)
  | _ => none

/-- An instruction may take the registers from `before` to `after`. -/
def Op.Executes (p : Program) (op : Op) (before after : Registers) : Prop :=
  match op.result p before with
  | none => after = before
  | some (name, value) =>
    (∀ v, value = some v → after name = v) ∧ ∀ other, other ≠ name → after other = before other

/-- Instructions executed one after another may take the registers from `before` to `after`. -/
inductive Runs (p : Program) : List Decoded → Registers → Registers → Prop
  | done {r : Registers} : Runs p [] r r
  | step {d : Decoded} {rest : List Decoded} {op : Op} {before mid after : Registers} :
      Op.ofBytes? d.instruction.encoding = some op → op.Executes p before mid → Runs p rest mid after →
      Runs p (d :: rest) before after

variable {p : Program} {op : Op} {before after r : Registers} {e e' : Expr} {v : Int64}

/-! ### One instruction -/

theorem Op.exists_executes (p : Program) (op : Op) (before : Registers) :
    ∃ after, op.Executes p before after := by
  unfold Executes
  split
  · exact ⟨before, rfl⟩
  next name value _ =>
    refine ⟨fun other => if other = name then value.getD 0 else before other, fun v hv => ?_, fun other hne => ?_⟩
    · simp [hv]
    · simp [hne]

/-- What is put in the place of a register has the value that is written to it. -/
theorem Op.result_eq (op : Op) : op.result p r =
    op.written.map fun (n, w?) => (registerName n, w?.bind (·.value p r)) := by
  cases op <;> rfl

theorem Op.unlabelled_of_written {n : UInt8} {w : Expr} (h : op.written = some (n, some w)) : w.Unlabelled := by
  intro name
  cases op <;> cases h <;> rfl

theorem Op.unlabelled_of_stepBack (he : e.Unlabelled) (h : op.stepBack e = some e') : e'.Unlabelled := by
  unfold stepBack at h
  split at h
  · cases h
    exact he
  next n w hw =>
    cases h
    exact he.bind_single (unlabelled_of_written hw)
  · split at h <;> cases h
    exact he

/-- What an instruction makes of an expression has before it the value of the expression after it. -/
theorem Op.value_of_stepBack (hx : op.Executes p before after) (h : op.stepBack e = some e')
    (hv : e'.value p before = some v) : e.value p after = some v := by
  unfold Executes at hx
  rw [result_eq] at hx
  unfold stepBack at h
  split at h
  next hw =>
    cases h
    simp only [hw, Option.map_none] at hx
    exact hx ▸ hv
  next n w hw =>
    cases h
    simp only [hw, Option.map_some] at hx
    obtain ⟨writes, keeps⟩ := hx
    exact Expr.value_of_bind_single writes keeps hv
  next n hw =>
    simp only [hw, Option.map_some] at hx
    obtain ⟨-, keeps⟩ := hx
    split at h <;> cases h
    next absent =>
      -- the clobbered register does not occur, so its new value is not asked for
      have same : ∀ name, e.mentions (.register name) = true → after name = before name := by
        intro name occurs
        refine keeps name ?_
        rintro rfl
        exact absent occurs
      exact (Expr.value_congr same).trans hv

end Toy

/-! ### A path -/

namespace BlockGraph

/-- Every instruction of the graph is one of the toy machine. -/
def IsToy (g : BlockGraph) : Prop :=
  ∀ ⦃a d⦄, g.Has a d → ∃ op, Toy.Op.ofBytes? d.instruction.encoding = some op

/-- Going back from `origin` one comes over the instructions of a list, the last of them first, to the one
at `a`. -/
inductive Trail (g : BlockGraph) (origin : Address) : Address → List Decoded → Prop
  | start : Trail g origin origin []
  | back {a c : Address} {d : Decoded} {rest : List Decoded} : Trail g origin a rest → g.Precedes c a →
      g.Has c d → Trail g origin c (d :: rest)

/-- The instructions that one comes over can be executed, whatever the registers hold before them. -/
theorem Trail.exists_runs {g : BlockGraph} {origin a : Address} {ds : List Decoded} (hg : g.IsToy)
    (ht : g.Trail origin a ds) (p : Program) (before : Registers) :
    ∃ after, Toy.Runs p ds before after := by
  induction ht generalizing before with
  | start => exact ⟨before, .done⟩
  | back _ _ hc ih =>
    obtain ⟨op, ho⟩ := hg hc
    obtain ⟨mid, hx⟩ := op.exists_executes p before
    obtain ⟨after, hr⟩ := ih mid
    exact ⟨after, .step ho hx hr⟩

end BlockGraph

namespace BackwardSearch

variable {p : Program} {g : BlockGraph} {origin a : Address} {d : Decoded} {ds : List Decoded}
  {e₀ e e' : Expr} {n : Nat} {t : Target}

/-- What is wanted has after the instructions of the list the value of `e` before them, and no label is in
`e` if none is in what is wanted. -/
structure Carries (p : Program) (e₀ : Expr) (ds : List Decoded) (e : Expr) : Prop where
  unlabelled : e₀.Unlabelled → e.Unlabelled
  value : ∀ {before after v}, Toy.Runs p ds before after → e.value p before = some v →
    e₀.value p after = some v

theorem Carries.refl : Carries p e₀ [] e₀ where
  unlabelled := id
  value hr hv := by
    cases hr
    exact hv

theorem Carries.back (hc : Carries p e₀ ds e)
    (valid : ∃ op, Toy.Op.ofBytes? d.instruction.encoding = some op)
    (h : Toy.decoder.stepBack d a e = .ok (some e')) : Carries p e₀ (d :: ds) e' := by
  obtain ⟨op, ho⟩ := valid
  have step : op.stepBack e = some e' := by
    simp only [Toy.decoder, ho] at h
    exact Except.ok.inj h
  refine ⟨fun h₀ => Toy.Op.unlabelled_of_stepBack (hc.unlabelled h₀) step, fun hr hv => ?_⟩
  cases hr with
  | step ho' hx rest =>
    obtain rfl := Option.some.inj (ho.symm.trans ho')
    exact hc.value rest (Toy.Op.value_of_stepBack hx step hv)

/-- Rewriting along a path carries values over its instructions. -/
theorem Rewrites.carries (hg : g.IsToy) (hr : Rewrites p Toy.decoder g origin e₀ n a e) :
    ∃ ds, g.Trail origin a ds ∧ ds.length = n ∧ Carries p e₀ ds e := by
  induction hr with
  | start => exact ⟨[], .start, rfl, .refl⟩
  | back _ hp hc hstep _ ih =>
    -- the path grows at its far end, which is executed first
    obtain ⟨ds, ht, hl, carries⟩ := ih
    exact ⟨_ :: ds, ht.back hp hc, by rw [List.length_cons, hl], carries.back (hg hc) hstep⟩

theorem Yields.carries (hg : g.IsToy) (hy : Yields p Toy.decoder g origin e₀ n t) :
    ∃ a ds e, g.Trail origin a ds ∧ ds.length = n ∧ Carries p e₀ ds e ∧ p.resolve e = .ok (some t) := by
  obtain ⟨hr, hp, hc, hstep, hres⟩ := hy
  obtain ⟨ds, ht, hl, carries⟩ := hr.carries hg
  exact ⟨_, _ :: ds, _, ht.back hp hc, by rw [List.length_cons, hl], carries.back (hg hc) hstep, hres⟩

end BackwardSearch

namespace Explorer

variable {x : Explorer} {g : BlockGraph}

theorem Searched.isToy (hx : x.decoder = Toy.decoder) (hs : x.Searched g) : g.IsToy := by
  rintro a d ⟨s, b, hb, hd⟩
  obtain ⟨-, hf⟩ := hs.consistent
  obtain ⟨decoded, isValid⟩ := hf.decoded hb hd
  obtain ⟨cursor, after, -, decodes⟩ := hx ▸ meets_of_decodeAt decoded
  obtain ⟨-, -, -, valid⟩ := Toy.decode_eq_ok decodes
  exact valid isValid

/-- An address that a search finds on the toy machine is the value of a candidate after the instructions
of a path that it goes back over, whatever the registers hold before them. -/
theorem found_addresses_are_values {depth : Nat} {origin v : Address} {candidates : List Expr}
    {found : List Target} (hx : x.decoder = Toy.decoder) (hp : x.program.Unrelocated) (hs : x.Searched g)
    (hr : g.searchBack x.program x.decoder depth origin candidates = .ok found)
    (hv : Target.address v ∈ found) :
    ∃ e ∈ candidates, ∃ a ds, g.Trail origin a ds ∧ 1 ≤ ds.length ∧ ds.length ≤ depth ∧
      (e.Unlabelled → ∀ before, (∃ after, Toy.Runs x.program ds before after) ∧
        ∀ after, Toy.Runs x.program ds before after → e.value x.program after = some v.toInt64) := by
  obtain ⟨hg, -⟩ := hs.consistent
  have toy := hs.isToy hx
  obtain ⟨e, he, n, some, few, hy⟩ := g.yields_of_searchBack hg hr hv
  rw [hx] at hy
  obtain ⟨a, ds, e', ht, rfl, carries, hres⟩ := hy.carries toy
  refine ⟨e, he, a, ds, ht, some, few, fun unlabelled before => ⟨ht.exists_runs toy _ before, ?_⟩⟩
  intro after run
  obtain ⟨u, hu, value⟩ := hp.value_of_resolve (carries.unlabelled unlabelled) hres
  cases hu
  exact carries.value run (value before)

theorem setInLoop_value : ∃ g, setInLoop.program.Unrelocated ∧ setInLoop.Searched g ∧
    g.searchBack setInLoop.program setInLoop.decoder 3 0x1008
      [Toy.register 2, Toy.register 3] = .ok [.address 0x1020] ∧
    (∀ e ∈ [Toy.register 2, Toy.register 3], e.Unlabelled) ∧
    ∃ e ∈ [Toy.register 2, Toy.register 3], ∃ a ds, g.Trail 0x1008 a ds ∧ 1 ≤ ds.length ∧
      ds.length ≤ 3 ∧ ∀ before, (∃ after, Toy.Runs setInLoop.program ds before after) ∧
        ∀ after, Toy.Runs setInLoop.program ds before after →
          e.value setInLoop.program after = some 0x1020 := by
  obtain ⟨g, hg, hr⟩ := setInLoop_search
  have hs : setInLoop.Searched g := .refined (.produced ⟨_, hg⟩)
  have hp : setInLoop.program.Unrelocated := by
    intro s h
    cases List.mem_singleton.1 h
    rfl
  have registers : ∀ e ∈ [Toy.register 2, Toy.register 3], e.Unlabelled := by
    intro e he name
    rcases List.mem_pair.1 he with rfl | rfl <;> rfl
  obtain ⟨e, he, a, ds, ht, some, few, value⟩ :=
    found_addresses_are_values rfl hp hs hr (List.mem_singleton.2 rfl)
  exact ⟨g, hp, hs, hr, registers, e, he, a, ds, ht, some, few, value (registers e he)⟩

end Explorer

end ReachableCode
