import ReachableCode.Graph.Basic
import ReachableCode.Proofs.Graph.Layout

/-!
What is found in a graph after each operation on it: for every address the block that starts there,
and the start of the block that owns it. A split is described by what it cuts (`Cuts`). Proofs about
graphs take an operation apart by these laws.
-/

namespace ReachableCode

namespace Address

variable {β : Type}

theorem getElem?_insert (t : Std.ExtTreeMap Address β) (k a : Address) (v : β) :
    (t.insert k v)[a]? = if k = a then some v else t[a]? := by
  rw [Std.ExtTreeMap.getElem?_insert]
  simp only [Std.compare_eq_iff_eq]

theorem mem_insert {t : Std.ExtTreeSet Address} {k a : Address} :
    a ∈ t.insert k ↔ k = a ∨ a ∈ t := by
  rw [Std.ExtTreeSet.mem_insert, Std.compare_eq_iff_eq]

@[simp] theorem mem_singleton {k a : Address} : a ∈ ({k} : Std.ExtTreeSet Address) ↔ a = k := by
  rw [Std.ExtTreeSet.singleton_eq_insert, mem_insert]
  simp [eq_comm]

end Address

namespace BlockGraph

variable {g h : BlockGraph} {a block old new s t target : Address} {b : Block} {d : Decoded}
  {origin : Option Address} {targets : List Address}

@[simp] theorem block?_empty : empty.block? s = none := by
  simp [block?, empty]

@[simp] theorem owner?_empty : empty.owner? a = none := by
  simp [owner?, empty]

theorem isBlockStart_iff : g.isBlockStart s = true ↔ ∃ b, g.block? s = some b := by
  rw [isBlockStart, Std.ExtTreeMap.contains_eq_isSome_getElem?, Option.isSome_iff_exists]
  rfl

theorem isBlockStart_eq_false : g.isBlockStart s = false ↔ g.block? s = none := by
  rw [← Bool.not_eq_true, isBlockStart_iff, Option.eq_none_iff_forall_ne_some]
  simp

theorem isDecoded_iff : g.isDecoded a = true ↔ ∃ s, g.owner? a = some s := by
  rw [isDecoded, Std.ExtTreeMap.contains_eq_isSome_getElem?, Option.isSome_iff_exists]
  rfl

theorem isDecoded_eq_false : g.isDecoded a = false ↔ g.owner? a = none := by
  rw [← Bool.not_eq_true, isDecoded_iff, Option.eq_none_iff_forall_ne_some]
  simp

theorem isVisited_eq_false :
    g.isVisited a = false ↔ g.owner? a = none ∧ g.block? a = none := by
  rw [isVisited, Bool.or_eq_false_iff, isDecoded_eq_false, isBlockStart_eq_false]

theorem isVisited_iff :
    g.isVisited a = true ↔ (∃ s, g.owner? a = some s) ∨ ∃ b, g.block? a = some b := by
  rw [isVisited, Bool.or_eq_true, isDecoded_iff, isBlockStart_iff]

theorem blockOf?_eq_some : g.blockOf? a = some b ↔ ∃ s, g.owner? a = some s ∧ g.block? s = some b := by
  rw [blockOf?, Option.bind_eq_some_iff]

/-! ### Opening and extending a block -/

/-- A block just opened. -/
def opened (a : Address) (origin : Option Address) : Block :=
  { Block.openedAt a with predecessors := origin.elim ∅ (Std.ExtTreeSet.insert ∅) }

theorem block?_openAt (hv : g.block? a = none) :
    (g.openAt a origin).block? s = if a = s then some (opened a origin) else g.block? s := by
  rw [openAt, hv]
  exact Address.getElem?_insert ..

@[simp] theorem owner?_openAt : (g.openAt a origin).owner? s = g.owner? s := rfl

theorem isBlockStart_openAt (hv : g.block? a = none) :
    (g.openAt a origin).isBlockStart s = true ↔ g.isBlockStart s = true ∨ s = a := by
  simp only [isBlockStart_iff, block?_openAt hv]
  by_cases e : a = s
  · simp [e]
  · simp [e, Ne.symm e]

theorem append_eq_ok (hp : g.append block a d = .ok h) :
    ∃ b, g.block? block = some b ∧
      (∀ s, h.block? s =
        if block = s then some { b with instructions := b.instructions ++ [d] } else g.block? s) ∧
      ∀ t, h.owner? t = if a = t then some block else g.owner? t := by
  rw [append] at hp
  split at hp
  · cases hp
  next b hb =>
    cases hp
    exact ⟨b, hb, fun _ => Address.getElem?_insert .., fun _ => Address.getElem?_insert ..⟩

theorem isBlockStart_append (hp : g.append block a d = .ok h) : h.isBlockStart s = g.isBlockStart s := by
  obtain ⟨b, hb, look, -⟩ := append_eq_ok hp
  rw [Bool.eq_iff_iff, isBlockStart_iff, isBlockStart_iff, look]
  by_cases e : block = s
  · subst e
    simp [hb]
  · simp [e]

/-! ### Adding edges -/

/-- The graph with one block changed. -/
def modify (g : BlockGraph) (block : Address) (f : Block → Block) : BlockGraph :=
  { g with blocks := g.blocks.modify block f }

theorem block?_modify {f : Block → Block} :
    (g.modify block f).block? s = (g.block? s).map fun b => if block = s then f b else b := by
  rw [modify, block?, Std.ExtTreeMap.getElem?_modify]
  simp only [Std.compare_eq_iff_eq]
  split
  next e => simp [e, block?]
  · simp [block?]

theorem exists_block_modify {f : Block → Block} {P : Block → Prop} :
    (∃ b, (g.modify block f).block? s = some b ∧ P b) ↔
      ∃ b, g.block? s = some b ∧ P (if block = s then f b else b) := by
  simp only [block?_modify, Option.map_eq_some_iff]
  constructor
  · rintro ⟨_, ⟨b, hb, rfl⟩, hp⟩
    exact ⟨b, hb, hp⟩
  · rintro ⟨b, hb, hp⟩
    exact ⟨_, ⟨b, hb, rfl⟩, hp⟩

theorem addSuccessor_eq : g.addSuccessor block target =
    g.modify block fun b => { b with successors := b.successors.insert target } := rfl

theorem addPredecessor_eq : g.addPredecessor block t =
    g.modify block fun b => { b with predecessors := b.predecessors.insert t } := rfl

/-- Adds addresses that control may go to from a block. -/
def addSuccessors (g : BlockGraph) (block : Address) (targets : List Address) : BlockGraph :=
  targets.foldl (·.addSuccessor block ·) g

@[simp] theorem addSuccessors_nil : g.addSuccessors block [] = g := rfl

@[simp] theorem addSuccessors_cons :
    g.addSuccessors block (target :: targets) = (g.addSuccessor block target).addSuccessors block targets :=
  rfl

theorem addSuccessors_append {more : List Address} : g.addSuccessors block (targets ++ more) =
    (g.addSuccessors block targets).addSuccessors block more :=
  List.foldl_append

/-! ### Splits -/

/-- The block that a split makes of the instructions from `new` on. -/
def tail (old new : Address) (b : Block) (after : List Decoded) : Block :=
  { start := new, instructions := after, predecessors := {old}, successors := b.successors }

/-- The block that a split leaves at the start of the block it cuts. -/
def head (new : Address) (b : Block) (before : List Decoded) : Block :=
  { b with instructions := before, successors := {new} }

/-- `h` is `g` with the block `b` at `old` cut at `new`, into the instructions `before` and `after`. -/
structure Cuts (g : BlockGraph) (old new : Address) (b : Block) (before after : List Decoded)
    (h : BlockGraph) : Prop where
  block : g.block? old = some b
  instructions : b.instructions = before ++ after
  spans : Block.Spans old before new
  before_ne : before ≠ []
  after_ne : after ≠ []
  block?_eq : ∀ s, h.block? s =
    if new = s then some (tail old new b after)
    else if old = s then some (head new b before) else g.block? s
  owned : ∀ {a d}, (tail old new b after).Has a d → h.owner? a = some new
  kept : ∀ {a}, (∀ d, ¬(tail old new b after).Has a d) → h.owner? a = g.owner? a

theorem getElem?_foldl_insert (placed : List (Address × Decoded)) :
    ∀ index : Std.ExtTreeMap Address Address,
      (placed.foldl (fun index (a, _) => index.insert a new) index)[t]? =
        if t ∈ placed.map (·.1) then some new else index[t]? := by
  induction placed with
  | nil => simp
  | cons x rest ih =>
    intro index
    rw [List.foldl_cons, ih, Address.getElem?_insert, List.map_cons]
    by_cases hx : x.1 = t
    · simp [hx]
    · rw [if_neg hx]
      simp only [List.mem_cons, Ne.symm hx, false_or]

theorem cuts_of_split (hs : g.split old new = .ok h) :
    ∃ b before after, g.Cuts old new b before after h := by
  rw [split] at hs
  split at hs
  · cases hs
  next b hb =>
    obtain ⟨cut, hc, hs⟩ := bind_eq_ok.1 hs
    split at hs
    next first before after =>
      obtain ⟨moved, hm, hs⟩ := bind_eq_ok.1 hs
      cases hs
      obtain ⟨hi, hspan, hne⟩ := Block.cutFrom_eq_some hc
      have mem : ∀ {a}, a ∈ moved.map (·.1) ↔ ∃ d, (tail old new b after).Has a d := by
        intro a
        simp only [List.mem_map, Prod.exists, exists_and_right, exists_eq_right,
          Block.mem_placed (b := tail old new b after) hm]
      refine ⟨b, first :: before, after, hb, hi, hspan, by simp, hne, fun s => ?_, fun h => ?_,
        fun h => ?_⟩
      · simp only [block?, Address.getElem?_insert]
        rfl
      · simp only [owner?, getElem?_foldl_insert]
        exact if_pos (mem.2 ⟨_, h⟩)
      · simp only [owner?, getElem?_foldl_insert]
        exact if_neg fun hm => by
          obtain ⟨d, hd⟩ := mem.1 hm
          exact h d hd
    · cases hs

theorem makeStart_cases (hs : g.makeStart a = .ok h) :
    g.isBlockStart a = true ∧ h = g ∨
      ∃ s, g.isBlockStart a = false ∧ g.owner? a = some s ∧ g.split s a = .ok h := by
  rw [makeStart] at hs
  split at hs
  next started =>
    cases hs
    exact Or.inl ⟨started, rfl⟩
  next started =>
    split at hs
    · cases hs
    next s ho => exact Or.inr ⟨s, by simpa using started, ho, hs⟩

theorem makeStartIfDecoded_cases (hs : g.makeStartIfDecoded a = .ok h) :
    (g.isDecoded a = false ∨ g.isBlockStart a = true) ∧ h = g ∨
      ∃ s, g.isBlockStart a = false ∧ g.owner? a = some s ∧ g.split s a = .ok h := by
  rw [makeStartIfDecoded] at hs
  split at hs
  next inside =>
    rcases makeStart_cases hs with ⟨hb, -⟩ | cut
    · simp [hb] at inside
    · exact Or.inr cut
  next inside =>
    cases hs
    refine Or.inl ⟨?_, rfl⟩
    cases hd : g.isDecoded a
    · exact Or.inl rfl
    · exact Or.inr (by simpa [hd] using inside)

theorem Cuts.isBlockStart {before after : List Decoded} (hc : g.Cuts old new b before after h) :
    h.isBlockStart s = true ↔ g.isBlockStart s = true ∨ s = new := by
  rw [isBlockStart_iff, isBlockStart_iff, hc.block?_eq]
  by_cases hn : new = s
  · simp [hn]
  · by_cases ho : old = s
    · subst ho
      simp [hn, hc.block]
    · simp [hn, Ne.symm hn, ho]

theorem isBlockStart_makeStartIfDecoded_iff (hs : g.makeStartIfDecoded a = .ok h) :
    h.isBlockStart s = true ↔ g.isBlockStart s = true ∨ s = a ∧ g.isDecoded a = true := by
  rcases makeStartIfDecoded_cases hs with ⟨hd | hb, rfl⟩ | ⟨u, -, ho, hs⟩
  · simp [hd]
  · refine (or_iff_left_of_imp ?_).symm
    rintro ⟨rfl, -⟩
    exact hb
  · obtain ⟨b, before, after, hc⟩ := cuts_of_split hs
    simp [hc.isBlockStart, isDecoded_iff, ho]

theorem isBlockStart_makeStartIfDecoded (hv : g.isVisited a = true)
    (hs : g.makeStartIfDecoded a = .ok h) : h.isBlockStart a = true := by
  rw [isVisited, Bool.or_eq_true] at hv
  exact (isBlockStart_makeStartIfDecoded_iff hs).2 (hv.symm.imp_right fun hd => ⟨rfl, hd⟩)

end BlockGraph

end ReachableCode
