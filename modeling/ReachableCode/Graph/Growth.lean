import ReachableCode.Graph.Basic
import ReachableCode.Success

/-!
Growth of block graphs: no operation forgets a decoded address, and an instruction added at an address
that was not decoded adds that address and no other.
-/

namespace ReachableCode.BlockGraph

variable {g h : BlockGraph} {a block old new : Address}

@[simp] theorem instructionCount_openAt (origin : Option Address) :
    (g.openAt a origin).instructionCount = g.instructionCount := rfl

@[simp] theorem instructionCount_addSuccessor :
    (g.addSuccessor block a).instructionCount = g.instructionCount := rfl

@[simp] theorem instructionCount_addPredecessor :
    (g.addPredecessor block a).instructionCount = g.instructionCount := rfl

theorem instructionCount_append {d : Decoded} (hv : g.isDecoded a = false)
    (hp : g.append block a d = .ok h) : h.instructionCount = g.instructionCount + 1 := by
  rw [append] at hp
  split at hp
  · cases hp
  · cases hp
    rw [isDecoded] at hv
    simp [instructionCount, Std.ExtTreeMap.size_insert, hv]

/-- Giving addresses a new owner removes none. -/
theorem size_le_foldl_insert (placed : List (Address × Decoded)) :
    ∀ index : Std.ExtTreeMap Address Address,
      index.size ≤ (placed.foldl (fun index (a, _) => index.insert a new) index).size := by
  induction placed with
  | nil => exact fun _ => Nat.le_refl _
  | cons x rest ih =>
    intro index
    refine Nat.le_trans ?_ (ih _)
    rw [Std.ExtTreeMap.size_insert]
    split <;> omega

theorem instructionCount_le_split (hs : g.split old new = .ok h) :
    g.instructionCount ≤ h.instructionCount := by
  rw [split] at hs
  split at hs
  · cases hs
  next b _ =>
    obtain ⟨cut, -, hs⟩ := bind_eq_ok.1 hs
    split at hs
    · obtain ⟨moved, -, hs⟩ := bind_eq_ok.1 hs
      cases hs
      exact size_le_foldl_insert moved g.decoded
    · cases hs

theorem instructionCount_le_makeStart (hs : g.makeStart a = .ok h) :
    g.instructionCount ≤ h.instructionCount := by
  rw [makeStart] at hs
  split at hs
  · cases hs
    exact Nat.le_refl _
  · split at hs
    · cases hs
    · exact instructionCount_le_split hs

theorem instructionCount_le_makeStartIfDecoded (hs : g.makeStartIfDecoded a = .ok h) :
    g.instructionCount ≤ h.instructionCount := by
  rw [makeStartIfDecoded] at hs
  split at hs
  · exact instructionCount_le_makeStart hs
  · cases hs
    exact Nat.le_refl _

end ReachableCode.BlockGraph
