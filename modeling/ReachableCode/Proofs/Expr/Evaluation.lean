import ReachableCode.Expr.Bind
import ReachableCode.Expr.Reduce

/-!
What expressions mean. A valuation gives every symbol a value and says what each read of memory yields;
with it an expression has the value that 64-bit two's complement arithmetic gives it. Reduction changes no
value and finds every value that does not depend on the valuation. A substitution changes the valuation and
not the meaning: what is put in the place of a symbol is evaluated where the symbol was.
-/

namespace ReachableCode

/-- The values of the symbols, and the integer of a width and byte order at each address. -/
structure Valuation where
  symbol : Symbol → Int64
  memory : Int64 → Width → ByteOrder → Int64

/-- Negation is that of the integers, wrapped to 64 bits; the complement of `v` is `-v - 1`. -/
def UnaryOp.meaning : UnaryOp → Int64 → Int64
  | neg, v => .ofInt (-v.toInt)
  | not, v => .ofInt (-v.toInt - 1)

namespace BinaryOp

/-- By how many places a shift moves the bits. -/
def shiftCount (v : Int64) : Nat :=
  (v.toInt % 64).toNat

/-- Sums, differences and products are those of the integers, wrapped to 64 bits. The other operations go
by bits; what a shift brings in is zero on either side. -/
def meaning : BinaryOp → Int64 → Int64 → Int64
  | add, l, r => .ofInt (l.toInt + r.toInt)
  | sub, l, r => .ofInt (l.toInt - r.toInt)
  | mul, l, r => .ofInt (l.toInt * r.toInt)
  | and, l, r => .ofBitVec (l.toBitVec &&& r.toBitVec)
  | or, l, r => .ofBitVec (l.toBitVec ||| r.toBitVec)
  | xor, l, r => .ofBitVec (l.toBitVec ^^^ r.toBitVec)
  | shl, l, r => .ofBitVec (l.toBitVec <<< shiftCount r)
  | shr, l, r => .ofBitVec (l.toBitVec >>> shiftCount r)

end BinaryOp

namespace Expr

/-- The value of an expression. -/
def eval (ν : Valuation) : Expr → Int64
  | const v => v
  | symbol s => ν.symbol s
  | unary op e => op.meaning (e.eval ν)
  | binary op d e => op.meaning (d.eval ν) (e.eval ν)
  | load a w o => ν.memory (a.eval ν) w o

/-- Whether an expression reads memory anywhere. -/
def readsMemory : Expr → Bool
  | const _ => false
  | symbol _ => false
  | unary _ e => e.readsMemory
  | binary _ l r => l.readsMemory || r.readsMemory
  | load _ _ _ => true

end Expr

/-- Gives each bound symbol the value of what it stands for. -/
def Valuation.bind (ν : Valuation) (b : Bindings) : Valuation where
  symbol s :=
    match b s with
    | some w => w.eval ν
    | none => ν.symbol s
  memory := ν.memory

/-! ### Operators -/

theorem UnaryOp.apply_eq_meaning (op : UnaryOp) (v : Int64) : op.apply v = op.meaning v := by
  cases op with
  | neg => rw [apply, meaning, Int64.ofInt_neg, Int64.ofInt_toInt]
  | not => rw [apply, meaning, Int64.ofInt_sub, Int64.ofInt_neg, Int64.ofInt_toInt, Int64.not_eq_neg_add]; rfl

namespace BinaryOp

/-- The machine takes the lowest six bits of a shift count, which is the count modulo 64. -/
theorem shiftCount_eq (v : Int64) : shiftCount v = (v.toUInt64.toBitVec % 64).toNat := by
  have bits : v.toInt = v.toBitVec.toInt := rfl
  have small : v.toBitVec.toNat < 18446744073709551616 := v.toBitVec.isLt
  show (v.toInt % 64).toNat = v.toBitVec.toNat % 64
  rw [bits, BitVec.toInt_eq_toNat_cond]
  split <;> omega

theorem apply_eq_meaning (op : BinaryOp) (l r : Int64) : op.apply l r = op.meaning l r := by
  cases op with
  | add => rw [apply, meaning, Int64.ofInt_add, Int64.ofInt_toInt, Int64.ofInt_toInt]
  | sub => rw [apply, meaning, Int64.ofInt_sub, Int64.ofInt_toInt, Int64.ofInt_toInt]
  | mul => rw [apply, meaning, Int64.ofInt_mul, Int64.ofInt_toInt, Int64.ofInt_toInt]
  | and => rfl
  | or => rfl
  | xor => rfl
  | shl => rw [apply, meaning, shiftCount_eq]; rfl
  | shr => rw [apply, meaning, shiftCount_eq]; rfl

end BinaryOp

namespace Expr

variable {ν : Valuation} {b : Bindings} {d e : Expr} {s : Symbol} {v : Int64}

/-! ### Reduction -/

theorem eval_fold_unary {op : UnaryOp} : (op.fold e).eval ν = (unary op e).eval ν := by
  unfold UnaryOp.fold
  split
  next v => exact op.apply_eq_meaning v
  · rfl

theorem eval_add_zero : (binary .add e (const 0)).eval ν = e.eval ν := by
  rw [eval, ← BinaryOp.apply_eq_meaning]
  exact Int64.add_zero _

theorem eval_sub_zero : (binary .sub e (const 0)).eval ν = e.eval ν := by
  rw [eval, ← BinaryOp.apply_eq_meaning]
  exact Int64.sub_zero _

theorem eval_zero_add : (binary .add (const 0) e).eval ν = e.eval ν := by
  rw [eval, ← BinaryOp.apply_eq_meaning]
  exact Int64.zero_add _

theorem eval_fold_binary {op : BinaryOp} : (op.fold d e).eval ν = (binary op d e).eval ν := by
  unfold BinaryOp.fold
  split
  next a b => exact op.apply_eq_meaning a b
  · split
    next zero =>
      obtain ⟨rfl, rfl | rfl⟩ := zero
      · exact eval_add_zero.symm
      · exact eval_sub_zero.symm
    · rfl
  · split
    next zero =>
      obtain ⟨rfl, rfl⟩ := zero
      exact eval_zero_add.symm
    · rfl
  · rfl

/-- Reduction keeps values. -/
theorem eval_reduce : e.reduce.eval ν = e.eval ν := by
  induction e with
  | const => rfl
  | symbol => rfl
  | unary op e ih => rw [reduce, eval_fold_unary, eval, eval, ih]
  | binary op d e ihd ihe => rw [reduce, eval_fold_binary, eval, eval, ihd, ihe]
  | load a w o ih => rw [reduce, eval, eval, ih]

theorem fold_unary_eq_const {op : UnaryOp} : op.fold e = const v ↔ ∃ a, e = const a ∧ op.apply a = v := by
  unfold UnaryOp.fold
  split <;> simp_all

/-- A zero is dropped beside what is no constant only, so a constant comes of constants alone. -/
theorem fold_binary_eq_const {op : BinaryOp} :
    op.fold d e = const v ↔ ∃ a b, d = const a ∧ e = const b ∧ op.apply a b = v := by
  unfold BinaryOp.fold
  split
  · simp
  · split <;> simp_all
  · split <;> simp_all
  · simp_all

/-- What reduces to a constant is what needs no symbol and no memory. -/
theorem exists_reduce_eq_const_iff :
    (∃ v, e.reduce = const v) ↔ (∀ s, e.mentions s = false) ∧ e.readsMemory = false := by
  induction e with
  | const v => exact ⟨fun _ => ⟨fun _ => rfl, rfl⟩, fun _ => ⟨v, rfl⟩⟩
  | symbol s =>
    refine ⟨fun ⟨v, h⟩ => ?_, fun ⟨absent, _⟩ => ?_⟩
    · cases h
    · simpa [mentions] using absent s
  | unary op e ih =>
    simp only [reduce, fold_unary_eq_const, mentions, readsMemory, ← ih]
    exact ⟨fun ⟨_, a, h, _⟩ => ⟨a, h⟩, fun ⟨a, h⟩ => ⟨_, a, h, rfl⟩⟩
  | binary op d e ihd ihe =>
    have both : ((∀ s, (binary op d e).mentions s = false) ∧ (binary op d e).readsMemory = false) ↔
        ((∀ s, d.mentions s = false) ∧ d.readsMemory = false) ∧
          ((∀ s, e.mentions s = false) ∧ e.readsMemory = false) := by
      simp only [mentions, readsMemory, Bool.or_eq_false_iff, forall_and]
      exact and_and_and_comm
    simp only [both, ← ihd, ← ihe, reduce, fold_binary_eq_const]
    exact ⟨fun ⟨_, a, b, hd, he, _⟩ => ⟨⟨a, hd⟩, b, he⟩, fun ⟨⟨a, hd⟩, b, he⟩ => ⟨_, a, b, hd, he, rfl⟩⟩
  | load a w o =>
    refine ⟨fun ⟨v, h⟩ => ?_, fun ⟨_, reads⟩ => ?_⟩
    · cases h
    · cases reads

theorem constant?_eq_some : e.constant? = some v ↔ e.reduce = const v := by
  unfold constant?
  split <;> simp_all

theorem mentions_fold_unary {op : UnaryOp} : (op.fold e).mentions s = e.mentions s := by
  unfold UnaryOp.fold
  split <;> rfl

theorem mentions_fold_binary {op : BinaryOp} :
    (op.fold d e).mentions s = (d.mentions s || e.mentions s) := by
  unfold BinaryOp.fold
  split
  · rfl
  · split <;> simp [mentions]
  · split <;> simp [mentions]
  · rfl

/-- Reduction drops no symbol and brings in none. -/
theorem mentions_reduce : e.reduce.mentions s = e.mentions s := by
  induction e with
  | const => rfl
  | symbol => rfl
  | unary op e ih => rw [reduce, mentions_fold_unary, mentions, ih]
  | binary op d e ihd ihe => rw [reduce, mentions_fold_binary, mentions, ihd, ihe]
  | load a w o ih => rw [reduce, mentions, mentions, ih]

/-- Reduction keeps the value of an expression under every valuation, and an expression reduces to a
constant just when it needs no symbol and no memory, to its value. -/
theorem reduction_keeps_meaning (ν : Valuation) (e : Expr) : e.reduce.eval ν = e.eval ν ∧
    ∀ v, e.constant? = some v ↔ ((∀ s, e.mentions s = false) ∧ e.readsMemory = false) ∧ e.eval ν = v := by
  refine ⟨eval_reduce, fun v => ?_⟩
  rw [constant?_eq_some, ← exists_reduce_eq_const_iff, ← eval_reduce]
  constructor
  · intro h
    exact ⟨⟨v, h⟩, by rw [h, eval]⟩
  · rintro ⟨⟨w, hw⟩, rfl⟩
    rw [hw, eval]

/-! ### Substitution -/

/-- A substitution before evaluating is one of values for symbols. -/
theorem eval_bind : (e.bind b).eval ν = e.eval (ν.bind b) := by
  induction e with
  | const => rfl
  | symbol s =>
    simp only [bind, eval, Valuation.bind]
    cases b s <;> rfl
  | unary op e ih => rw [bind, eval, eval, ih]
  | binary op d e ihd ihe => rw [bind, eval, eval, ihd, ihe]
  | load a w o ih =>
    rw [bind, eval, eval, ih]
    rfl

theorem mentions_symbol {t : Symbol} : (symbol t).mentions s = true ↔ t = s :=
  decide_eq_true_iff

/-- After a substitution the symbols are those that nothing is put in the place of, and those of what is put
in. -/
theorem mentions_bind : (e.bind b).mentions s = true ↔ (e.mentions s = true ∧ b s = none) ∨
    ∃ t w, e.mentions t = true ∧ b t = some w ∧ w.mentions s = true := by
  induction e with
  | const => simp [bind, mentions]
  | symbol u =>
    simp only [bind, mentions_symbol]
    cases hb : b u with
    | none =>
      rw [Option.getD_none, mentions_symbol]
      constructor
      · rintro rfl
        exact Or.inl ⟨rfl, hb⟩
      · rintro (⟨rfl, -⟩ | ⟨t, w, rfl, hw, -⟩)
        · rfl
        · cases hb.symm.trans hw
    | some w =>
      rw [Option.getD_some]
      constructor
      · exact fun h => Or.inr ⟨u, w, rfl, hb, h⟩
      · rintro (⟨rfl, free⟩ | ⟨t, w', rfl, hw, h⟩)
        · cases hb.symm.trans free
        · cases hb.symm.trans hw
          exact h
  | unary op e ih => exact ih
  | binary op d e ihd ihe =>
    simp only [bind, mentions, Bool.or_eq_true, ihd, ihe, or_and_right, exists_or]
    exact or_or_or_comm
  | load a w o ih => exact ih

/-- A value depends on the symbols in an expression and on memory alone. -/
theorem eval_congr {μ : Valuation} (symbols : ∀ s, e.mentions s = true → μ.symbol s = ν.symbol s)
    (memory : μ.memory = ν.memory) : e.eval μ = e.eval ν := by
  induction e with
  | const => rfl
  | symbol s => exact symbols s (mentions_symbol.2 rfl)
  | unary op e ih => rw [eval, eval, ih symbols]
  | binary op d e ihd ihe =>
    have left := ihd fun s hs => symbols s (by simp [mentions, hs])
    have right := ihe fun s hs => symbols s (by simp [mentions, hs])
    rw [eval, eval, left, right]
  | load a w o ih => rw [eval, eval, ih symbols, memory]

/-- An expression after a substitution has the value that it has where each bound symbol has the value of what
is put in its place. The symbols in it are the unbound ones that were there, and those of what is put in. -/
theorem substitution_law (ν : Valuation) (b : Bindings) (e : Expr) :
    (e.bind b).eval ν = e.eval (ν.bind b) ∧
      ∀ s, (e.bind b).mentions s = true ↔ (e.mentions s = true ∧ b s = none) ∨
        ∃ t w, e.mentions t = true ∧ b t = some w ∧ w.mentions s = true :=
  ⟨eval_bind, fun _ => mentions_bind⟩

end Expr

end ReachableCode
