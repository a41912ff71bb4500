import ReachableCode.Code.Decoder
import ReachableCode.Graph.Basic
import ReachableCode.Graph.Finite
import ReachableCode.Search.Target
import ReachableCode.Success
import Std.Data.HashSet

/-!
The backward search for the targets of a control transfer. A trace stands before an instruction and
holds the expression wanted there. It goes back over one instruction at a time, the decoder giving
the expression for the state before, and from the start of a block to the ends of all blocks that
control comes from. A trace ends when its expression resolves, is lost, or has used up its depth.

Traces are taken in the order they arise, so the search is breadth-first, and two traces that stand
at one place with one expression are followed only once.
-/

namespace ReachableCode

/-- A pending search: `target` is wanted for the state before the instruction of that index in
`block`, which lies at `address`. -/
structure Trace where
  /-- How many more instructions may be gone back over. -/
  depth : Nat
  address : Address
  block : Address
  index : Nat
  target : Expr
  deriving DecidableEq

namespace Trace

/-- What tells traces apart that need not both be followed. -/
def key (t : Trace) : Address × Nat × Expr :=
  (t.block, t.index, t.target)

inductive Outcome where
  | resolved (target : Target)
  | goesOn (traces : List Trace)

/-- The traces at the ends of the blocks that own the given addresses. A block without instructions
owns no address. -/
def enter (g : BlockGraph) (t : Trace) : List Address → Except Fault (List Trace)
  | [] => .ok []
  | origin :: rest =>
    match g.blockOf? origin with
    | none => enter g t rest
    | some b =>
      if b.instructions.isEmpty then enter g t rest
      else do
        let stop ← b.endAddress
        let others ← enter g t rest
        return { t with address := stop, block := b.start, index := b.instructions.length } :: others

/-- Goes back over one instruction, or from the start of a block to the blocks before it. -/
def back (p : Program) (d : Decoder) (g : BlockGraph) (t : Trace) : Except Fault Outcome :=
  match g.block? t.block with
  | none => .ok (.goesOn [])
  | some b =>
    match t.index with
    | 0 => .goesOn <$> t.enter g b.predecessors.toList
    | i + 1 =>
      match b.instructions[i]? with
      | none => .error (.indexOutOfRange b.instructions.length i)
      | some di => do
        let a ← Address.minus t.address di.size
        match ← d.stepBack di a t.target with
        | none => return .goesOn []
        | some e =>
          match ← p.resolve e with
          | some found => return .resolved found
          | none =>
            return .goesOn
              [{ t with depth := t.depth - 1, address := a, index := i, target := e }]

/-- A bound on the traces that come of one with that depth, at the start of a block or behind an
instruction. -/
def cost : Nat → Bool → Nat
  | 0, _ => 1
  | depth + 1, false => 1 + cost depth true + cost depth false
  | depth + 1, true => 1 + Address.count * (1 + cost depth true + cost depth false)

def weight (t : Trace) : Nat :=
  cost t.depth (t.index = 0)

def totalWeight (ts : List Trace) : Nat :=
  ts.foldr (·.weight + ·) 0

theorem cost_pos (depth : Nat) (atStart : Bool) : 0 < cost depth atStart := by
  cases depth <;> cases atStart <;> simp only [cost] <;> omega

@[simp] theorem totalWeight_nil : totalWeight [] = 0 := rfl

@[simp] theorem totalWeight_cons (t : Trace) (ts : List Trace) :
    totalWeight (t :: ts) = t.weight + totalWeight ts := rfl

@[simp] theorem totalWeight_append (ts us : List Trace) :
    totalWeight (ts ++ us) = totalWeight ts + totalWeight us := by
  induction ts with
  | nil => simp
  | cons t ts ih => simp only [List.cons_append, totalWeight_cons, ih, Nat.add_assoc]

theorem totalWeight_enter {g : BlockGraph} {t : Trace} {origins : List Address} {ts : List Trace}
    (h : t.enter g origins = .ok ts) : totalWeight ts ≤ origins.length * cost t.depth false := by
  induction origins generalizing ts with
  | nil =>
    cases h
    simp
  | cons origin rest ih =>
    have weaken : ∀ {us}, t.enter g rest = .ok us →
        totalWeight us ≤ (rest.length + 1) * cost t.depth false := fun hu =>
      Nat.le_trans (ih hu) (Nat.mul_le_mul_right _ (by omega))
    rw [enter] at h
    split at h
    · exact weaken h
    next b _ =>
      split at h
      · exact weaken h
      next hb =>
        obtain ⟨stop, -, h⟩ := bind_eq_ok.1 h
        obtain ⟨others, ho, h⟩ := bind_eq_ok.1 h
        cases h
        have := ih ho
        have hb : b.instructions.length ≠ 0 := by simpa using hb
        simp only [totalWeight_cons, weight, hb, decide_false, List.length_cons, Nat.add_mul]
        omega

theorem totalWeight_back {p : Program} {d : Decoder} {g : BlockGraph} {t : Trace} {ts : List Trace}
    (hd : t.depth ≠ 0) (h : t.back p d g = .ok (.goesOn ts)) : totalWeight ts < t.weight := by
  obtain ⟨depth, hdepth⟩ := Nat.exists_eq_succ_of_ne_zero hd
  have pos : 0 < t.weight := cost_pos _ _
  rw [back] at h
  split at h
  · cases h
    exact pos
  next b _ =>
    split at h
    next hi =>
      obtain ⟨us, he, h⟩ := map_eq_ok.1 h
      cases h
      have := totalWeight_enter he
      have := Nat.mul_le_mul_right (cost t.depth false) (Address.set_size_le b.predecessors)
      simp only [Std.ExtTreeSet.length_toList] at *
      simp only [weight, hi, decide_true]
      rw [hdepth] at *
      simp only [cost] at *
      omega
    next i hi =>
      split at h
      · cases h
      next di _ =>
        obtain ⟨a, -, h⟩ := bind_eq_ok.1 h
        obtain ⟨r, -, h⟩ := bind_eq_ok.1 h
        split at h
        · cases h
          exact pos
        next e =>
          obtain ⟨r, -, h⟩ := bind_eq_ok.1 h
          split at h
          · cases h
          · cases h
            have := cost_pos depth true
            have := cost_pos depth false
            simp only [totalWeight_cons, totalWeight_nil, weight, hi, hdepth]
            simp only [Nat.succ_eq_add_one, Nat.add_sub_cancel, Nat.add_one_ne_zero, decide_false,
              cost]
            cases decide (i = 0) <;> omega

end Trace

/-- Adds a target behind the others unless it is among them. -/
def Target.addTo (found : List Target) (t : Target) : List Target :=
  if t ∈ found then found else found ++ [t]

theorem Target.mem_addTo {found : List Target} {t u : Target} : u ∈ t.addTo found ↔ u = t ∨ u ∈ found := by
  unfold addTo
  split
  next known =>
    constructor
    · exact Or.inr
    · rintro (rfl | h)
      · exact known
      · exact h
  · simp [or_comm]

/-- The state of a backward search. -/
structure BackwardSearch where
  /-- The traces to follow, the next one first. -/
  queue : List Trace
  /-- The traces followed so far. -/
  seen : Std.HashSet (Address × Nat × Expr)
  /-- The targets found, in the order they were found. -/
  found : List Target

namespace BackwardSearch

/-- Follows the traces until none is left. -/
def run (p : Program) (d : Decoder) (g : BlockGraph) (s : BackwardSearch) : Except Fault (List Target) :=
  match hq : s.queue with
  | [] => .ok s.found
  | t :: rest =>
    have hw : Trace.totalWeight s.queue = t.weight + Trace.totalWeight rest := by simp [hq]
    have pos : 0 < t.weight := Trace.cost_pos _ _
    if hd : t.depth = 0 then run p d g { s with queue := rest }
    else if s.seen.contains t.key then run p d g { s with queue := rest }
    else
      match ht : t.back p d g with
      | .error f => .error f
      | .ok (.resolved x) =>
        run p d g { queue := rest, seen := s.seen.insert t.key, found := x.addTo s.found }
      | .ok (.goesOn ts) =>
        have := Trace.totalWeight_back hd ht
        have := Trace.totalWeight_append rest ts
        run p d g { s with queue := rest ++ ts, seen := s.seen.insert t.key }
termination_by Trace.totalWeight s.queue
decreasing_by all_goals omega

end BackwardSearch

/-- The targets of candidate expressions wanted for the state before the instruction at `origin`, as
far as going back over at most `depth` instructions shows them, in the order they are found. -/
def BlockGraph.searchBack (g : BlockGraph) (p : Program) (d : Decoder) (depth : Nat)
    (origin : Address) (candidates : List Expr) : Except Fault (List Target) :=
  match g.owner? origin with
  | none => .ok []
  | some block =>
    match g.block? block with
    | none => .ok []
    | some b => do
      match ← b.indexOf origin with
      | none => return []
      | some i =>
        let queue := candidates.map fun e =>
          { depth := depth, address := origin, block := block, index := i, target := e }
        BackwardSearch.run p d g { queue := queue, seen := ∅, found := [] }

end ReachableCode
