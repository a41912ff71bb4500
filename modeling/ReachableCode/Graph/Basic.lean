import ReachableCode.Graph.Block

/-!
Block graphs: the blocks by their first address, and for each decoded address the block that owns
its instruction. Both indices change together, and a block that is split keeps its instructions.
A block opened where no instruction could be decoded is in the first index only.
-/

namespace ReachableCode

/-- The blocks found so far and the index of decoded addresses. -/
structure BlockGraph where
  /-- The block that starts at each address. -/
  blocks : Std.ExtTreeMap Address Block
  /-- The start of the block that owns the instruction at each address. -/
  decoded : Std.ExtTreeMap Address Address
  deriving DecidableEq

namespace BlockGraph

def empty : BlockGraph where
  blocks := ∅
  decoded := ∅

def block? (g : BlockGraph) (start : Address) : Option Block :=
  g.blocks[start]?

/-- The start of the block that owns the instruction at an address. -/
def owner? (g : BlockGraph) (a : Address) : Option Address :=
  g.decoded[a]?

/-- The block that owns the instruction at an address. -/
def blockOf? (g : BlockGraph) (a : Address) : Option Block :=
  (g.owner? a).bind g.block?

/-- Whether an instruction was decoded at an address. -/
def isDecoded (g : BlockGraph) (a : Address) : Bool :=
  g.decoded.contains a

def isBlockStart (g : BlockGraph) (a : Address) : Bool :=
  g.blocks.contains a

/-- Whether an address was decoded or a block was opened there. -/
def isVisited (g : BlockGraph) (a : Address) : Bool :=
  g.isDecoded a || g.isBlockStart a

def instructionCount (g : BlockGraph) : Nat :=
  g.decoded.size

/-- Opens a block, or leaves the one there, and adds where control came from. -/
def openAt (g : BlockGraph) (start : Address) (origin : Option Address) : BlockGraph :=
  let b := (g.block? start).getD (Block.openedAt start)
  let b := { b with predecessors := origin.elim b.predecessors b.predecessors.insert }
  { g with blocks := g.blocks.insert start b }

/-- Adds an instruction at the end of a block. -/
def append (g : BlockGraph) (block a : Address) (d : Decoded) : Except Fault BlockGraph :=
  match g.block? block with
  | none => .error (.noOpenBlock block)
  | some b => .ok {
      blocks := g.blocks.insert block { b with instructions := b.instructions ++ [d] }
      decoded := g.decoded.insert a block }

/-- Adds an address that control may go to from a block. -/
def addSuccessor (g : BlockGraph) (block target : Address) : BlockGraph :=
  { g with blocks := g.blocks.modify block fun b =>
      { b with successors := b.successors.insert target } }

/-- Adds an address that control comes to a block from. -/
def addPredecessor (g : BlockGraph) (block origin : Address) : BlockGraph :=
  { g with blocks := g.blocks.modify block fun b =>
      { b with predecessors := b.predecessors.insert origin } }

/-- Lets control go on to `target` from a block, if there is one that it leaves. -/
def leaveFor (g : BlockGraph) (block : Option Address) (target : Address) : BlockGraph :=
  block.elim g (g.addSuccessor · target)

/-- Lets control come to a block from an instruction, if there is one that it comes from. -/
def comeFrom (g : BlockGraph) (block : Address) (origin : Option Address) : BlockGraph :=
  origin.elim g (g.addPredecessor block ·)

/-- Splits the block at `old` before its instruction at `new`, which must not be its first. The head
keeps what control comes from and goes on to the tail; the tail has the rest of the instructions
and goes where the whole block went. -/
def split (g : BlockGraph) (old new : Address) : Except Fault BlockGraph :=
  match g.block? old with
  | none => .error (.noBlockToSplit old)
  | some b => do
    match ← Block.cutFrom old new b.instructions with
    | some (first :: before, after) =>
      let head := { b with instructions := first :: before, successors := {new} }
      let tail : Block :=
        { start := new, instructions := after, predecessors := {old}, successors := b.successors }
      let moved ← tail.placed
      return {
        blocks := (g.blocks.insert old head).insert new tail
        decoded := moved.foldl (fun index (a, _) => index.insert a new) g.decoded }
    | _ => .error (.notBoundary new old)

/-- Makes a decoded address the start of a block. -/
def makeStart (g : BlockGraph) (a : Address) : Except Fault BlockGraph :=
  if g.isBlockStart a then .ok g
  else
    match g.owner? a with
    | none => .error (.undecodedSplit a)
    | some owner => g.split owner a

/-- Makes an address the start of a block if it is decoded. -/
def makeStartIfDecoded (g : BlockGraph) (a : Address) : Except Fault BlockGraph :=
  if g.isDecoded a ∧ !g.isBlockStart a then g.makeStart a else .ok g

end BlockGraph

end ReachableCode
