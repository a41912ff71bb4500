import ReachableCode.Proofs.Expr.Evaluation
import ReachableCode.Proofs.Memory.Lookup

/-!
Programs whose relocations read no memory. What is read from memory there reads no memory itself, so resolving
an expression follows what it reads just once, and the bound on how deep relocations nest is never felt.
-/

namespace ReachableCode

/-- No relocation stands for an expression that reads memory. -/
def Program.Direct (p : Program) : Prop :=
  ∀ s ∈ p.sections, ∀ (offset : Offset) (r : Relocation), s.relocations[offset]? = some r →
    r.target.readsMemory = false

namespace Program

variable {p : Program} {c after : Cursor} {w : Width} {o : ByteOrder} {value : Expr}
  {follow follow' : Expr → Except Fault (Option Target)}

namespace Direct

/-- What is read from memory reads no memory itself. -/
theorem readsMemory_readExpr (hp : p.Direct) (hc : c.place ∈ p.sections)
    (h : c.readExpr w o = .ok (some (value, after))) : value.readsMemory = false := by
  rw [Cursor.readExpr] at h
  split at h
  next r hr =>
    obtain ⟨_, -, h⟩ := bind_eq_ok.1 h
    cases h
    exact hp _ hc _ r (Option.eq_some_of_filter_eq_some hr)
  · obtain ⟨r, -, h⟩ := bind_eq_ok.1 h
    rw [pure_eq_ok, Option.map_eq_some_iff] at h
    obtain ⟨⟨v, after⟩, -, h⟩ := h
    cases h
    rfl

/-- Only what is read from memory is followed, and that reads no memory. -/
theorem resolveWith_congr (hp : p.Direct) (h : ∀ e : Expr, e.readsMemory = false → follow e = follow' e)
    (e : Expr) : e.resolveWith p follow = e.resolveWith p follow' := by
  induction e with
  | load a w o ih =>
    rw [Expr.resolveWith, Expr.resolveWith, ih]
    refine bind_eq_bind fun t? _ => ?_
    cases t? with
    | none => rfl
    | some t =>
      refine bind_eq_bind fun c? hc => ?_
      cases c? with
      | none => rfl
      | some c =>
        refine bind_eq_bind fun r hr => ?_
        cases r with
        | none => rfl
        | some r => exact h r.1 (hp.readsMemory_readExpr (mem_of_cursorIn hc) hr)
  | _ => rfl

/-- Nothing that is followed is followed further. -/
theorem resolveUpTo_eq (hp : p.Direct) (depth : Nat) (e : Expr) :
    e.resolveUpTo p depth = e.resolveWith p fun value => return value.immediateTarget := by
  cases depth with
  | zero => rfl
  | succ depth =>
    refine hp.resolveWith_congr (fun value hv => ?_) e
    cases depth <;> cases value <;> first | rfl | cases hv

/-- What resolving follows is resolved in turn, however often memory is read, and no bound stops it. -/
theorem resolve_eq (hp : p.Direct) (e : Expr) :
    (∀ depth, e.resolveUpTo p depth = p.resolve e) ∧ p.resolve e = e.resolveWith p p.resolve := by
  have same (depth : Nat) (e : Expr) : e.resolveUpTo p depth = p.resolve e :=
    (hp.resolveUpTo_eq depth e).trans (hp.resolveUpTo_eq _ e).symm
  refine ⟨fun depth => same depth e, (same (p.relocationCount + 1) e).symm.trans ?_⟩
  exact hp.resolveWith_congr (fun value _ => same _ value) e

end Direct

end Program

end ReachableCode
