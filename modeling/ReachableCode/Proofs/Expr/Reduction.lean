import ReachableCode.Proofs.Expr.Evaluation

/-!
Reduction against substitution. What is put in the place of a symbol may make a part constant that was not, so
a substitution can call for more reduction; but no reduction that was made before it stands in the way of
that. An expression may therefore be reduced at any time between substitutions, and reducing it once more
changes nothing.
-/

namespace ReachableCode.Expr

variable {b : Bindings} {d e : Expr}

/-! ### Zeros -/

theorem fold_add_zero : BinaryOp.add.fold e (const 0) = e := by
  cases e with
  | const v => exact congrArg const (Int64.add_zero v)
  | _ => rfl

theorem fold_sub_zero : BinaryOp.sub.fold e (const 0) = e := by
  cases e with
  | const v => exact congrArg const (Int64.sub_zero v)
  | _ => rfl

theorem fold_zero_add : BinaryOp.add.fold (const 0) e = e := by
  cases e with
  | const v => exact congrArg const (Int64.zero_add v)
  | _ => rfl

/-! ### Substitution after one step of reduction -/

theorem reduce_bind_fold_unary {op : UnaryOp} :
    ((op.fold e).bind b).reduce = op.fold (e.bind b).reduce := by
  unfold UnaryOp.fold
  split
  · rfl
  · rfl

/-- A zero that was dropped is dropped later as well, also beside what a substitution made constant. -/
theorem reduce_bind_fold_binary {op : BinaryOp} :
    ((op.fold d e).bind b).reduce = op.fold (d.bind b).reduce (e.bind b).reduce := by
  conv => lhs; unfold BinaryOp.fold
  split
  · rfl
  · split
    next zero =>
      obtain ⟨rfl, rfl | rfl⟩ := zero
      · exact fold_add_zero.symm
      · exact fold_sub_zero.symm
    · rfl
  · split
    next zero =>
      obtain ⟨rfl, rfl⟩ := zero
      exact fold_zero_add.symm
    · rfl
  · rfl

/-- What is reduced before a substitution and after it comes out as what is reduced after it only. -/
theorem reduce_bind_reduce : (e.reduce.bind b).reduce = (e.bind b).reduce := by
  induction e with
  | const => rfl
  | symbol => rfl
  | unary op e ih => rw [reduce, reduce_bind_fold_unary, ih, bind, reduce]
  | binary op d e ihd ihe => rw [reduce, reduce_bind_fold_binary, ihd, ihe, bind, reduce]
  | load a w o ih => rw [reduce, bind, bind, reduce, reduce, ih]

/-! ### Reduction after reduction -/

theorem bind_unbound : e.bind (fun _ => none) = e := by
  induction e with
  | const => rfl
  | symbol => rfl
  | unary op e ih => rw [bind, ih]
  | binary op d e ihd ihe => rw [bind, ihd, ihe]
  | load a w o ih => rw [bind, ih]

theorem reduce_reduce : e.reduce.reduce = e.reduce := by
  have h := reduce_bind_reduce (e := e) (b := fun _ => none)
  rwa [bind_unbound, bind_unbound] at h

/-- Reducing an expression early changes no later result: not that of a substitution and a further reduction,
hence not that of a reduction alone, and not which symbols it mentions. -/
theorem early_reduction_changes_nothing (e : Expr) :
    (∀ b : Bindings, (e.reduce.bind b).reduce = (e.bind b).reduce) ∧
      e.reduce.reduce = e.reduce ∧ ∀ s, e.reduce.mentions s = e.mentions s :=
  ⟨fun _ => reduce_bind_reduce, reduce_reduce, fun _ => mentions_reduce⟩

end ReachableCode.Expr
