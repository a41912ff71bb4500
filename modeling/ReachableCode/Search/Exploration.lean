import ReachableCode.Graph.Growth
import ReachableCode.Search.Backward

/-!
The exploration of a program from an entry: everything that control may reach is decoded, each
instruction once, into a graph of basic blocks.

Work that is still to do is a list of targets. Behind an instruction the next one comes first, so a
block is decoded to its end before any other target is looked at; the targets of control transfers
wait at the end of the list. A target inside a block that is already there splits it. When no work
is left, blocks are split at labels.

A fault ends an exploration, but what was decoded until then stays in the graph.
-/

namespace ReachableCode

/-- How to explore. -/
structure Options where
  /-- How many instructions a backward search may go back over. -/
  searchDepth : Nat := 500
  /-- Whether blocks are split so that every label starts one. -/
  startAtLabels : Bool := true
  deriving DecidableEq, Repr

/-- A program, the decoder for it, and how to explore it. -/
structure Explorer where
  program : Program
  decoder : Decoder
  options : Options := {}

/-- A target to be decoded, and the instruction that control comes from. -/
structure WorkItem where
  target : Target
  origin : Option Address
  deriving DecidableEq, Repr

/-- An exploration that a fault ended, with the graph as it was then. -/
structure Interruption where
  fault : Fault
  graph : BlockGraph
  deriving DecidableEq

/-- Gives a fault the graph that it leaves. -/
def Interruption.during {α : Type} (g : BlockGraph) (x : Except Fault α) : Except Interruption α :=
  x.mapError fun f => { fault := f, graph := g }

/-- The state of an exploration. -/
structure Exploration where
  /-- What is still to be decoded, the next target first. -/
  work : List WorkItem
  /-- The block that the last instruction went to, while control runs on from it. -/
  current : Option Address
  graph : BlockGraph

def Exploration.starting (g : BlockGraph) (entry : Target) : Exploration where
  work := [{ target := entry, origin := none }]
  current := none
  graph := g

/-- The block that takes what is decoded at `a`, the running one or else one opened there, and the graph
that has it. -/
def Exploration.room (s : Exploration) (a : Address) (origin : Option Address) :
    Address × BlockGraph :=
  match s.current with
  | some block => (block, s.graph)
  | none => (a, s.graph.openAt a origin)

@[simp] theorem Exploration.instructionCount_room {s : Exploration} {a : Address}
    {origin : Option Address} :
    (s.room a origin).2.instructionCount = s.graph.instructionCount := by
  rw [room]
  split <;> rfl

@[simp] theorem Exploration.isDecoded_room {s : Exploration} {a b : Address}
    {origin : Option Address} : (s.room a origin).2.isDecoded b = s.graph.isDecoded b := by
  rw [room]
  split <;> rfl

namespace Explorer

open Interruption (during)

/-- Decodes at an address, if it is mapped. -/
def decodeAt (x : Explorer) (a : Address) : Except Fault (Option Decoded) := do
  match ← x.program.cursorAt a with
  | none => return none
  | some c => return some (← x.decoder.decode c).1

/-- Parts candidate expressions into the targets of those that resolve at once, each one once, and
the others. -/
def resolveCandidates (x : Explorer) :
    List Expr → List Target × List Expr → Except Fault (List Target × List Expr)
  | [], parts => .ok parts
  | e :: rest, (found, pending) => do
    match ← x.program.resolve e with
    | some t => x.resolveCandidates rest (t.addTo found, pending)
    | none => x.resolveCandidates rest (found, pending ++ [e])

/-- The targets of the decoded instruction at an address: those that resolve at once, then those that
going backwards shows. -/
def jumpTargets (x : Explorer) (g : BlockGraph) (a : Address) : Except Fault (List Target) :=
  match g.blockOf? a with
  | none => .ok []
  | some b => do
    match (← b.indexOf a).bind (b.instructions[·]?) with
    | none => return []
    | some d =>
      let (found, pending) ← x.resolveCandidates (← x.decoder.jumpTargets d a) ([], [])
      if pending.isEmpty then return found
      else
        let more ← g.searchBack x.program x.decoder x.options.searchDepth a pending
        return more.foldl (fun found t => t.addTo found) found

/-- Adds the addresses of targets to what control may reach from a block. -/
def addTargets (x : Explorer) (block : Address) :
    List Target → BlockGraph → Except Interruption BlockGraph
  | [], g => .ok g
  | t :: rest, g => do
    match ← during g (t.addressIn x.program) with
    | none => x.addTargets block rest g
    | some a => x.addTargets block rest (g.addSuccessor block a)

/-- Takes a target that was visited before: the running block ends there, and a block starts there
if it was decoded. -/
def revisit (g : BlockGraph) (current : Option Address) (a : Address) (origin : Option Address) :
    Except Interruption BlockGraph := do
  let g := g.leaveFor current a
  let g ← during g (g.makeStartIfDecoded a)
  return g.comeFrom a origin

/-- What is to be decoded next after the instruction at `a`: what lies behind it, unless control never
gets there. -/
def workBehind (flow : Flow) (a next : Address) : List WorkItem :=
  if flow.stops then [] else [{ target := .address next, origin := some a }]

/-- Takes the control transfer at `a`, the last instruction of a block, and adds its targets behind the
work that was left. -/
def transfer (x : Explorer) (rest : List WorkItem) (g : BlockGraph) (block a next : Address)
    (flow : Flow) : Except Interruption Exploration := do
  let targets ← during g (x.jumpTargets g a)
  let g ← x.addTargets block targets g
  return {
    work := workBehind flow a next ++ rest ++ targets.map fun t => { target := t, origin := some a }
    current := none
    graph := if flow.stops then g else g.addSuccessor block next }

/-- Takes the instruction just decoded at `a` into a block, and adds the work that follows from it
to what was left. -/
def extend (x : Explorer) (rest : List WorkItem) (g : BlockGraph) (block a : Address) (d : Decoded)
    (flow : Flow) : Except Interruption Exploration := do
  let next ← during g (Address.plus a d.size)
  let g ← during g (g.append block a d)
  if flow.transfers then x.transfer rest g block a next flow
  else return {
    work := workBehind flow a next ++ rest
    current := if flow.stops then none else some block
    graph := g }

/-- Takes one target. -/
def step (x : Explorer) (s : Exploration) (item : WorkItem) (rest : List WorkItem) :
    Except Interruption Exploration := do
  match ← during s.graph (item.target.addressIn x.program) with
  | none => return { s with work := rest, current := none }
  | some a =>
    if s.graph.isVisited a then
      let g ← revisit s.graph s.current a item.origin
      return { work := rest, current := none, graph := g }
    else
      match ← during s.graph (x.decodeAt a) with
      | none => return { s with work := rest, current := none }
      | some d =>
        let (block, g) := s.room a item.origin
        match d.flow with
        | none => return { work := rest, current := none, graph := g }
        | some flow => x.extend rest g block a d flow

theorem during_eq_ok {α : Type} {g : BlockGraph} {x : Except Fault α} {v : α} :
    during g x = .ok v ↔ x = .ok v :=
  mapError_eq_ok

theorem instructionCount_addTargets {x : Explorer} {block : Address} {ts : List Target}
    {g h : BlockGraph} (ha : x.addTargets block ts g = .ok h) :
    h.instructionCount = g.instructionCount := by
  induction ts generalizing g with
  | nil =>
    cases ha
    rfl
  | cons t rest ih =>
    rw [addTargets] at ha
    obtain ⟨a?, -, ha⟩ := bind_eq_ok.1 ha
    split at ha
    · exact ih ha
    · rw [ih ha, BlockGraph.instructionCount_addSuccessor]

theorem instructionCount_le_revisit {g h : BlockGraph} {current origin : Option Address} {a : Address}
    (hr : revisit g current a origin = .ok h) : g.instructionCount ≤ h.instructionCount := by
  obtain ⟨k, hk, hr⟩ := bind_eq_ok.1 hr
  have := BlockGraph.instructionCount_le_makeStartIfDecoded (during_eq_ok.1 hk)
  cases hr
  cases current <;> cases origin <;> exact this

theorem instructionCount_transfer {x : Explorer} {rest : List WorkItem} {g : BlockGraph}
    {block a next : Address} {flow : Flow} {s : Exploration}
    (ht : x.transfer rest g block a next flow = .ok s) :
    s.graph.instructionCount = g.instructionCount := by
  obtain ⟨targets, -, ht⟩ := bind_eq_ok.1 ht
  obtain ⟨h, hh, ht⟩ := bind_eq_ok.1 ht
  cases ht
  dsimp only
  split
  · exact instructionCount_addTargets hh
  · rw [BlockGraph.instructionCount_addSuccessor, instructionCount_addTargets hh]

theorem instructionCount_extend {x : Explorer} {rest : List WorkItem} {g : BlockGraph}
    {block a : Address} {d : Decoded} {flow : Flow} {s : Exploration} (hv : g.isDecoded a = false)
    (he : x.extend rest g block a d flow = .ok s) :
    s.graph.instructionCount = g.instructionCount + 1 := by
  obtain ⟨next, -, he⟩ := bind_eq_ok.1 he
  obtain ⟨h, hp, he⟩ := bind_eq_ok.1 he
  rw [← BlockGraph.instructionCount_append hv (during_eq_ok.1 hp)]
  split at he
  · exact instructionCount_transfer he
  · cases he
    rfl

/-- A step forgets no decoded address, and unless it decodes a new one it only takes work away. -/
theorem instructionCount_step {x : Explorer} {s t : Exploration} {item : WorkItem}
    {rest : List WorkItem} (h : x.step s item rest = .ok t) :
    s.graph.instructionCount < t.graph.instructionCount ∨
      s.graph.instructionCount ≤ t.graph.instructionCount ∧ t.work = rest := by
  obtain ⟨a?, -, h⟩ := bind_eq_ok.1 h
  split at h
  · cases h
    exact Or.inr ⟨Nat.le_refl _, rfl⟩
  next a =>
    split at h
    · obtain ⟨g, hg, h⟩ := bind_eq_ok.1 h
      cases h
      exact Or.inr ⟨instructionCount_le_revisit hg, rfl⟩
    next hv =>
      have hd : s.graph.isDecoded a = false := by
        simp only [BlockGraph.isVisited, Bool.or_eq_true, not_or, Bool.not_eq_true] at hv
        exact hv.1
      obtain ⟨d?, -, h⟩ := bind_eq_ok.1 h
      split at h
      · cases h
        exact Or.inr ⟨Nat.le_refl _, rfl⟩
      next d =>
        dsimp only at h
        split at h
        · cases h
          exact Or.inr ⟨Nat.le_of_eq Exploration.instructionCount_room.symm, rfl⟩
        · have hr : (s.room a item.origin).2.isDecoded a = false := by
            rw [Exploration.isDecoded_room, hd]
          have := instructionCount_extend hr h
          rw [Exploration.instructionCount_room] at this
          omega

/-- Takes targets until no work is left. Each step either decodes an address, of which there are
finitely many, or leaves less work. -/
def run (x : Explorer) (s : Exploration) : Except Interruption BlockGraph :=
  match hw : s.work with
  | [] => .ok s.graph
  | item :: rest =>
    match hs : x.step s item rest with
    | .error i => .error i
    | .ok t =>
      have less : rest.length < s.work.length := by simp [hw]
      have finite : t.graph.instructionCount ≤ Address.count := Address.map_size_le t.graph.decoded
      have progress := instructionCount_step hs
      run x t
termination_by (Address.count - s.graph.instructionCount, s.work.length)
decreasing_by
  rcases progress with more | ⟨most, left⟩
  · exact Prod.Lex.left _ _ (by omega)
  · rcases Nat.eq_or_lt_of_le most with same | more
    · rw [same, left]
      exact Prod.Lex.right _ less
    · exact Prod.Lex.left _ _ (by omega)

/-- Makes every decoded address of a list the start of a block. -/
def makeStarts (g : BlockGraph) : List Address → Except Interruption BlockGraph
  | [] => .ok g
  | a :: rest => do makeStarts (← during g (g.makeStartIfDecoded a)) rest

/-- Explores from an entry, adding to a graph. -/
def explore (x : Explorer) (g : BlockGraph) (entry : Target) : Except Interruption BlockGraph := do
  let g ← x.run (.starting g entry)
  if x.options.startAtLabels then makeStarts g (← during g x.program.labelAddresses) else return g

/-- Explores from each entry in turn, adding to one graph. -/
def exploreAll (x : Explorer) (g : BlockGraph) : List Target → Except Interruption BlockGraph
  | [] => .ok g
  | entry :: rest => do x.exploreAll (← x.explore g entry) rest

end Explorer

end ReachableCode
