import ReachableCode.Code.Instruction
import Std.Data.ExtTreeSet

/-!
Basic blocks: a run of instructions that lie behind one another, with the addresses that control
comes from and the addresses it may go to.
-/

namespace ReachableCode

structure Block where
  start : Address
  instructions : List Decoded
  /-- The addresses of the instructions that control came from. -/
  predecessors : Std.ExtTreeSet Address
  /-- The addresses that control may reach from the last instruction. -/
  successors : Std.ExtTreeSet Address
  deriving DecidableEq

namespace Block

def openedAt (start : Address) : Block where
  start := start
  instructions := []
  predecessors := ∅
  successors := ∅

/-- Instructions that lie behind one another from `start` on, with their addresses. -/
def place (start : Address) : List Decoded → Except Fault (List (Address × Decoded))
  | [] => .ok []
  | d :: rest => do
    let next ← Address.plus start d.size
    return (start, d) :: (← place next rest)

def placed (b : Block) : Except Fault (List (Address × Decoded)) :=
  place b.start b.instructions

def byteLength (b : Block) : Except Fault Address :=
  b.instructions.foldlM (fun n d => Address.plus n d.size) 0

/-- The address after the last byte. -/
def endAddress (b : Block) : Except Fault Address := do
  Address.plus b.start (← b.byteLength)

/-- The index of the instruction at `a` among instructions that lie from `start` on. Each one passed,
the one found included, must end within the address range. -/
def indexFrom (start a : Address) : List Decoded → Except Fault (Option Nat)
  | [] => .ok none
  | d :: rest => do
    let next ← Address.plus start d.size
    if start = a then return some 0 else return (← indexFrom next a rest).map (· + 1)

/-- The index of the instruction at an address. -/
def indexOf (b : Block) (a : Address) : Except Fault (Option Nat) :=
  indexFrom b.start a b.instructions

/-- The instructions before and from `a` on among instructions that lie from `start` on; none when
`a` starts no instruction. -/
def cutFrom (start a : Address) : List Decoded → Except Fault (Option (List Decoded × List Decoded))
  | [] => .ok none
  | d :: rest =>
    if start = a then .ok (some ([], d :: rest))
    else do
      let next ← Address.plus start d.size
      return (← cutFrom next a rest).map fun (before, after) => (d :: before, after)

end Block

end ReachableCode
