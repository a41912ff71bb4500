import ReachableCode.Proofs.Expr.Reduction
import ReachableCode.Search.Target

/-!
Resolution of expressions and of what they reduce to. Constants and labels are looked for in the reduced form
of an expression, a read of memory in the expression as it stands. So a read under a zero that is added or
subtracted, which reduction brings to light, is not carried out, and neither is a read at an address that such
a read gives. These are the only expressions that resolve otherwise than their reduced forms: they do not
resolve at all.
-/

namespace ReachableCode

namespace Expr

def isLoad : Expr → Bool
  | load .. => true
  | _ => false

/-- Whether the expression, or the address that it reads, or the address that is read there and so on, is no
read of memory itself but reduces to one. -/
def hidesLoad : Expr → Bool
  | load a _ _ => a.hidesLoad
  | e => e.reduce.isLoad

variable {p : Program} {follow : Expr → Except Fault (Option Target)} {e : Expr}

theorem hidesLoad_of_reduce_eq (h : e.reduce = e) : e.hidesLoad = false := by
  induction e with
  | load a w o ih =>
    injection h with h
    exact ih h
  | _ =>
    rw [hidesLoad, h, isLoad]
    all_goals nofun

/-- Reduction leaves no read hidden. -/
theorem hidesLoad_reduce : e.reduce.hidesLoad = false :=
  hidesLoad_of_reduce_eq reduce_reduce

theorem immediateTarget_reduce : e.reduce.immediateTarget = e.immediateTarget := by
  rw [immediateTarget, reduce_reduce, immediateTarget]

theorem immediateTarget_of_isLoad (h : e.reduce.isLoad = true) : e.immediateTarget = none := by
  unfold immediateTarget
  split
  next v hred => rw [hred] at h; cases h
  next name hred => rw [hred] at h; cases h
  · rfl

theorem hidesLoad_of_not_isLoad (h : e.isLoad = false) : e.hidesLoad = e.reduce.isLoad := by
  cases e with
  | load => cases h
  | _ => rfl

theorem resolveWith_of_not_isLoad (h : e.isLoad = false) :
    e.resolveWith p follow = .ok e.immediateTarget := by
  cases e with
  | load => cases h
  | _ => rfl

/-- Resolving goes through the reads that stand at the head of an expression. What is behind them is no read,
and comes to a target only if it does not reduce to one. -/
theorem resolveWith_eq : e.resolveWith p follow =
    if e.hidesLoad then .ok none else e.reduce.resolveWith p follow := by
  have head (d : Expr) (h : d.isLoad = false) : d.resolveWith p follow =
      if d.hidesLoad then .ok none else d.reduce.resolveWith p follow := by
    rw [resolveWith_of_not_isLoad h, hidesLoad_of_not_isLoad h]
    cases hr : d.reduce.isLoad with
    | true => rw [immediateTarget_of_isLoad hr, if_pos rfl]
    | false => rw [resolveWith_of_not_isLoad hr, immediateTarget_reduce, if_neg Bool.false_ne_true]
  induction e with
  | load a w o ih =>
    rw [hidesLoad, reduce, resolveWith, resolveWith, ih]
    cases a.hidesLoad <;> rfl
  | _ => exact head _ rfl

theorem resolveUpTo_eq {depth : Nat} : e.resolveUpTo p depth =
    if e.hidesLoad then .ok none else e.reduce.resolveUpTo p depth := by
  cases depth with
  | zero => exact resolveWith_eq
  | succ depth => exact resolveWith_eq

end Expr

namespace Program

/-- An expression that hides a read does not resolve. Every other one resolves as its reduced form does, which
hides none; so two expressions with one reduced form resolve alike if both hide a read or neither does. -/
theorem resolution_respects_reduction_unless_hidden (p : Program) (e : Expr) :
    p.resolve e = (if e.hidesLoad then .ok none else p.resolve e.reduce) ∧ e.reduce.hidesLoad = false ∧
      ∀ d : Expr, d.reduce = e.reduce → d.hidesLoad = e.hidesLoad → p.resolve d = p.resolve e := by
  refine ⟨Expr.resolveUpTo_eq, Expr.hidesLoad_reduce, fun d same hides => ?_⟩
  rw [resolve, resolve, Expr.resolveUpTo_eq, Expr.resolveUpTo_eq (e := e), same, hides]

/-- A section of one word, which is the address 0x5000. -/
def oneWord : Program :=
  { empty .unknown with sections := [.ofData ".data" 0x4000 #[0x00, 0x50, 0x00, 0x00]] }

/-- The word of the section, with its address given as a sum. -/
def wordAtSum : Expr :=
  .load (.const 0x3ff0 + .const 0x10) .u32 .little

/-- A sum in the address of a read hides nothing. -/
theorem sum_in_address_resolves :
    wordAtSum.reduce = (Expr.load (.const 0x4000) .u32 .little).reduce ∧
      oneWord.resolve wordAtSum = oneWord.resolve (.load (.const 0x4000) .u32 .little) :=
  ⟨rfl, (resolution_respects_reduction_unless_hidden _ _).2.2 _ rfl rfl⟩

/-- The word of the section, with zero added to it. -/
def wordPlusZero : Expr :=
  .load (.const 0x4000) .u32 .little + .const 0

/-- No relocation stands in the way: the read is not carried out because it stands under a sum. -/
theorem sum_hides_load : (∀ s ∈ oneWord.sections, s.relocations = ∅) ∧
    oneWord.resolve wordPlusZero = .ok none ∧
      oneWord.resolve wordPlusZero.reduce = .ok (some (.address 0x5000)) := by
  refine ⟨fun s hs => ?_, rfl, ?_⟩
  · cases List.mem_singleton.1 hs
    rfl
  · rfl

end Program

end ReachableCode
