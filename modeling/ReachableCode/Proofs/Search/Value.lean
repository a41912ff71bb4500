import ReachableCode.Proofs.Memory.Relocations

/-!
The values of expressions, when registers have values and memory is the image of the program. Reduction
keeps them, a substitution gives an expression the value that it has where the symbols are what is put in
their place, and what resolves without a label, in a program without relocations, resolves to its value.
-/

namespace ReachableCode

/-- The value of each register. -/
abbrev Registers := String → Int64

/-- The integer of that width and byte order at an address of the image, if all its bytes are mapped. -/
def Program.intAt (p : Program) (a : Address) (w : Width) (o : ByteOrder) : Option Int64 :=
  match p.cursorAt a with
  | .ok (some c) =>
    match c.readInt w o with
    | .ok (some (v, _)) => some v
    | _ => none
  | _ => none

/-- Nothing in the image is relocated. -/
def Program.Unrelocated (p : Program) : Prop :=
  ∀ s ∈ p.sections, s.relocations = ∅

namespace Expr

/-- The value of an expression. Labels have none, and memory is read from the image. -/
def value (p : Program) (r : Registers) : Expr → Option Int64
  | const v => some v
  | symbol (.register name) => some (r name)
  | symbol (.label _) => none
  | unary op e => (e.value p r).map op.apply
  | binary op d e => (d.value p r).bind fun v => (e.value p r).map (op.apply v)
  | load a w o => (a.value p r).bind fun v => p.intAt v.toUInt64 w o

/-- No label occurs in an expression. -/
def Unlabelled (e : Expr) : Prop :=
  ∀ name, e.mentions (.label name) = false

variable {p : Program} {r r' : Registers} {d e : Expr} {s : Symbol} {v : Int64} {b : Bindings} {t : Target}

/-! ### Reduction -/

theorem value_fold_unary {op : UnaryOp} : (op.fold e).value p r = (unary op e).value p r := by
  unfold UnaryOp.fold
  split <;> simp [value]

theorem value_fold_binary {op : BinaryOp} : (op.fold d e).value p r = (binary op d e).value p r := by
  unfold BinaryOp.fold
  split
  · simp [value]
  · split
    next zero =>
      obtain ⟨rfl, rfl | rfl⟩ := zero <;> cases hd : d.value p r <;> simp [value, hd, BinaryOp.apply]
    · rfl
  · split
    next zero =>
      obtain ⟨rfl, rfl⟩ := zero
      cases he : e.value p r <;> simp [value, he, BinaryOp.apply]
    · rfl
  · rfl

/-- Reduction keeps values. -/
theorem value_reduce : e.reduce.value p r = e.value p r := by
  induction e with
  | const => rfl
  | symbol => rfl
  | unary op e ih => rw [reduce, value_fold_unary, value, value, ih]
  | binary op d e ihd ihe => rw [reduce, value_fold_binary, value, value, ihd, ihe]
  | load a w o ih => rw [reduce, value, value, ih]

/-! ### Substitution -/

/-- The value of an expression depends on the registers in it only. -/
theorem value_congr (h : ∀ name, e.mentions (.register name) = true → r' name = r name) :
    e.value p r' = e.value p r := by
  induction e with
  | const => rfl
  | symbol s =>
    cases s with
    | label name => rfl
    | register name => simp [value, h name (by simp [mentions])]
  | unary op e ih => rw [value, value, ih h]
  | binary op d e ihd ihe =>
    rw [value, value, ihd fun name hn => h name (by simp [mentions, hn]),
      ihe fun name hn => h name (by simp [mentions, hn])]
  | load a w o ih => rw [value, value, ih h]

/-- What is put in the place of symbols before has the values that they have after. -/
theorem value_of_bind
    (bound : ∀ {s w v}, b s = some w → w.value p r = some v → (symbol s).value p r' = some v)
    (free : ∀ {s}, b s = none → (symbol s).value p r' = (symbol s).value p r)
    (h : (e.bind b).value p r = some v) : e.value p r' = some v := by
  induction e generalizing v with
  | const => exact h
  | symbol s =>
    rw [bind] at h
    cases hb : b s with
    | none =>
      rw [hb] at h
      exact (free hb).trans h
    | some w =>
      rw [hb] at h
      exact bound hb h
  | unary op e ih =>
    obtain ⟨u, hu, rfl⟩ := Option.map_eq_some_iff.1 h
    rw [value, ih hu]
    rfl
  | binary op d e ihd ihe =>
    obtain ⟨u, hu, h⟩ := Option.bind_eq_some_iff.1 h
    obtain ⟨w, hw, rfl⟩ := Option.map_eq_some_iff.1 h
    rw [value, ihd hu, ihe hw]
    rfl
  | load a w o ih =>
    obtain ⟨u, hu, h⟩ := Option.bind_eq_some_iff.1 h
    rw [value, ih hu]
    exact h

theorem Unlabelled.bind (he : e.Unlabelled) (hb : ∀ {s w}, b s = some w → w.Unlabelled) :
    (e.bind b).Unlabelled := by
  intro name
  induction e with
  | const => rfl
  | symbol s =>
    rw [Expr.bind]
    cases hs : b s with
    | none => exact he name
    | some w => exact hb hs name
  | unary op e ih => exact ih he
  | binary op d e ihd ihe =>
    have parts := fun name => Bool.or_eq_false_iff.1 (he name)
    exact Bool.or_eq_false_iff.2 ⟨ihd fun name => (parts name).1, ihe fun name => (parts name).2⟩
  | load a w o ih => exact ih he

theorem Unlabelled.bind_single (he : e.Unlabelled) (hd : d.Unlabelled) :
    (e.bind (.single s d)).Unlabelled := by
  refine he.bind fun {u w} hb => ?_
  unfold Bindings.single at hb
  split at hb <;> cases hb
  exact hd

theorem unlabelled_const : (const v).Unlabelled := fun _ => rfl

theorem Unlabelled.binary {op : BinaryOp} (hd : d.Unlabelled) (he : e.Unlabelled) :
    (Expr.binary op d e).Unlabelled := fun name =>
  Bool.or_eq_false_iff.2 ⟨hd name, he name⟩

/-- If a register alone is changed, and to the value of what is put in its place, then an expression has
after it the value that it has with that put in before. -/
theorem value_of_bind_single {name : String} (writes : ∀ u, d.value p r = some u → r' name = u)
    (keeps : ∀ other, other ≠ name → r' other = r other)
    (h : (e.bind (.single (.register name) d)).value p r = some v) : e.value p r' = some v := by
  refine value_of_bind (fun {s w u} hb hu => ?_) (fun {s} hb => ?_) h
  · unfold Bindings.single at hb
    split at hb <;> cases hb
    next hs => rw [hs, value, writes u hu]
  · unfold Bindings.single at hb
    split at hb
    · cases hb
    next hs =>
      cases s with
      | label => rfl
      | register other =>
        have unchanged : r' other = r other := keeps other fun same => hs (by rw [same])
        rw [value, value, unchanged]

theorem Unlabelled.reduce (he : e.Unlabelled) : e.reduce.Unlabelled := fun name =>
  mentions_reduce.trans (he name)

/-- Where memory is the image, the value of an expression is what evaluation gives it. -/
theorem eval_of_value {ν : Valuation} (image : ∀ {a w o v}, p.intAt a.toUInt64 w o = some v → ν.memory a w o = v)
    (h : e.value p (fun name => ν.symbol (.register name)) = some v) : e.eval ν = v := by
  induction e generalizing v with
  | const => exact Option.some.inj h
  | symbol s =>
    cases s with
    | label => cases h
    | register name => exact Option.some.inj h
  | unary op e ih =>
    obtain ⟨u, hu, rfl⟩ := Option.map_eq_some_iff.1 h
    rw [eval, ih hu, op.apply_eq_meaning]
  | binary op d e ihd ihe =>
    obtain ⟨u, hu, h⟩ := Option.bind_eq_some_iff.1 h
    obtain ⟨w, hw, rfl⟩ := Option.map_eq_some_iff.1 h
    rw [eval, ihd hu, ihe hw, op.apply_eq_meaning]
  | load a w o ih =>
    obtain ⟨u, hu, h⟩ := Option.bind_eq_some_iff.1 h
    rw [eval, ih hu, image h]

/-! ### Resolution -/

theorem value_of_immediateTarget (he : e.Unlabelled) (h : e.immediateTarget = some t) :
    ∃ v, t = .address v.toUInt64 ∧ ∀ r, e.value p r = some v := by
  unfold immediateTarget at h
  split at h
  next v hred =>
    cases h
    refine ⟨v, rfl, fun r => ?_⟩
    rw [← value_reduce, hred]
    rfl
  next name hred =>
    have occurs : e.mentions (.label name) = true := by rw [← mentions_reduce, hred]; simp [mentions]
    rw [he name] at occurs
    cases occurs
  · cases h

end Expr

namespace Program

variable {p : Program} {a : Address} {c : Cursor} {e : Expr} {t : Target}

theorem Unrelocated.direct (hp : p.Unrelocated) : p.Direct := by
  intro s hs offset r hr
  simp [hp s hs] at hr

/-- Without relocations an expression that is read is the integer there. -/
theorem Unrelocated.readInt_of_readExpr (hp : p.Unrelocated) {w : Width} {o : ByteOrder} {value : Expr}
    {after : Cursor} (hc : c.place ∈ p.sections) (h : c.readExpr w o = .ok (some (value, after))) :
    ∃ v, value = .const v ∧ c.readInt w o = .ok (some (v, after)) := by
  rw [Cursor.readExpr, hp _ hc] at h
  obtain ⟨read?, hread, h⟩ := bind_eq_ok.1 h
  cases read? with
  | none => cases h
  | some read =>
    cases h
    exact ⟨read.1, rfl, hread⟩

theorem Unrelocated.intAt_of_readExpr (hp : p.Unrelocated) {w : Width} {o : ByteOrder} {value : Expr}
    {after : Cursor} (hc : p.cursorAt a = .ok (some c)) (h : c.readExpr w o = .ok (some (value, after))) :
    ∃ v, value = .const v ∧ p.intAt a w o = some v := by
  obtain ⟨v, hv, hread⟩ := hp.readInt_of_readExpr (mem_of_cursorAt hc) h
  exact ⟨v, hv, by simp only [intAt, hc, hread]⟩

/-- What resolves without a label resolves to its value, whatever the registers hold. -/
theorem Unrelocated.value_of_resolve (hp : p.Unrelocated) (he : e.Unlabelled)
    (h : p.resolve e = .ok (some t)) : ∃ v, t = .address v.toUInt64 ∧ ∀ r, e.value p r = some v := by
  rw [resolve, hp.direct.resolveUpTo_eq] at h
  induction e generalizing t with
  | load a w o ih =>
    obtain ⟨t?, ha, h⟩ := bind_eq_ok.1 h
    cases t? with
    | none => cases h
    | some place =>
      obtain ⟨u, rfl, hu⟩ := ih he ha
      obtain ⟨c?, hc, h⟩ := bind_eq_ok.1 h
      cases c? with
      | none => cases h
      | some c =>
        obtain ⟨read?, hread, h⟩ := bind_eq_ok.1 h
        cases read? with
        | none => cases h
        | some read =>
          obtain ⟨v, hv, hint⟩ := hp.intAt_of_readExpr hc hread
          dsimp only at h
          rw [hv] at h
          cases h
          exact ⟨v, rfl, fun r => by rw [Expr.value, hu r, Option.bind_some, hint]⟩
  | const => exact Expr.value_of_immediateTarget he (Except.ok.inj h)
  | symbol => exact Expr.value_of_immediateTarget he (Except.ok.inj h)
  | unary => exact Expr.value_of_immediateTarget he (Except.ok.inj h)
  | binary => exact Expr.value_of_immediateTarget he (Except.ok.inj h)

end Program

end ReachableCode
