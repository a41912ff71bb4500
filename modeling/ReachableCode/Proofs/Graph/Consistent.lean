import ReachableCode.Proofs.Graph.Lookup

/-!
Graphs whose two indices agree: each block lies where the index of blocks has it, and the index of
decoded addresses has the places of the instructions of all blocks and nothing else. An address is in
that index once, so no two instructions lie at one place. Every operation of an exploration keeps
this.
-/

namespace ReachableCode.BlockGraph

/-- The two indices agree. -/
structure Consistent (g : BlockGraph) : Prop where
  start_eq : ∀ {s b}, g.block? s = some b → b.start = s
  spans : ∀ {s b}, g.block? s = some b → ∃ stop, Block.Spans s b.instructions stop
  runsOn : ∀ {s b}, g.block? s = some b → ∀ d ∈ b.instructions.dropLast, d.RunsOn
  owner_iff : ∀ {a s}, g.owner? a = some s ↔ ∃ b d, g.block? s = some b ∧ b.Has a d
  opened : ∀ {s b}, g.block? s = some b → b.instructions = [] → g.owner? s = none

/-- The instruction at `a` is `d`. -/
def Has (g : BlockGraph) (a : Address) (d : Decoded) : Prop :=
  ∃ s b, g.block? s = some b ∧ b.Has a d

/-- The block `b` at `block` takes an instruction at `a` next: `a` is new and lies behind the block, which
control does not leave yet. -/
structure Ready (g : BlockGraph) (block a : Address) (b : Block) : Prop where
  found : g.block? block = some b
  runsOn : ∀ d ∈ b.instructions, d.RunsOn
  spans : Block.Spans block b.instructions a
  fresh : g.owner? a = none
  only : ∀ {s c}, g.block? s = some c → s = a → s = block
  stays : ∀ t, t ∉ b.successors

/-- The graphs have the same blocks with the same instructions, so that only edges may differ. -/
structure SameCode (g h : BlockGraph) : Prop where
  owner?_eq : ∀ a, h.owner? a = g.owner? a
  code?_eq : ∀ s, (h.block? s).map (fun b => (b.start, b.instructions)) =
    (g.block? s).map fun b => (b.start, b.instructions)

variable {g h : BlockGraph} {a block old new s t target : Address} {b c : Block} {d e : Decoded}
  {before after : List Decoded} {origin : Option Address} {targets : List Address}

/-! ### Graphs with the same code -/

theorem SameCode.symm (hs : SameCode g h) : SameCode h g :=
  ⟨fun a => (hs.owner?_eq a).symm, fun s => (hs.code?_eq s).symm⟩

theorem SameCode.exists_block (hs : SameCode g h) (hb : g.block? s = some b) :
    ∃ c, h.block? s = some c ∧ c.start = b.start ∧ c.instructions = b.instructions := by
  have := hs.code?_eq s
  rw [hb] at this
  obtain ⟨c, hc, he⟩ := Option.map_eq_some_iff.1 this
  exact ⟨c, hc, congrArg Prod.fst he, congrArg Prod.snd he⟩

theorem sameCode_modify {f : Block → Block}
    (hf : ∀ b, ((f b).start, (f b).instructions) = (b.start, b.instructions)) :
    SameCode g (g.modify block f) where
  owner?_eq _ := rfl
  code?_eq s := by
    rw [block?_modify, Option.map_map]
    congr 1
    funext b
    simp only [Function.comp_apply]
    split
    · exact hf b
    · rfl

theorem sameCode_addSuccessor : SameCode g (g.addSuccessor block target) :=
  sameCode_modify fun _ => rfl

theorem sameCode_addPredecessor : SameCode g (g.addPredecessor block target) :=
  sameCode_modify fun _ => rfl

theorem SameCode.refl : SameCode g g :=
  ⟨fun _ => rfl, fun _ => rfl⟩

theorem SameCode.trans {k : BlockGraph} (hs : SameCode g h) (ht : SameCode h k) : SameCode g k :=
  ⟨fun a => (ht.owner?_eq a).trans (hs.owner?_eq a), fun s => (ht.code?_eq s).trans (hs.code?_eq s)⟩

theorem sameCode_addSuccessors : SameCode g (g.addSuccessors block targets) := by
  induction targets generalizing g with
  | nil => exact .refl
  | cons target rest ih => exact sameCode_addSuccessor.trans ih

theorem sameCode_leaveFor {current : Option Address} : SameCode g (g.leaveFor current target) := by
  cases current with
  | none => exact .refl
  | some block => exact sameCode_addSuccessor

theorem sameCode_comeFrom : SameCode g (g.comeFrom block origin) := by
  cases origin with
  | none => exact .refl
  | some origin => exact sameCode_addPredecessor

theorem SameCode.isBlockStart (hs : SameCode g h) : h.isBlockStart s = g.isBlockStart s := by
  rw [Bool.eq_iff_iff, isBlockStart_iff, isBlockStart_iff]
  constructor
  · rintro ⟨b, hb⟩
    obtain ⟨c, hc, -⟩ := hs.symm.exists_block hb
    exact ⟨c, hc⟩
  · rintro ⟨b, hb⟩
    obtain ⟨c, hc, -⟩ := hs.exists_block hb
    exact ⟨c, hc⟩

theorem SameCode.isDecoded (hs : SameCode g h) : h.isDecoded a = g.isDecoded a := by
  rw [Bool.eq_iff_iff]
  simp only [isDecoded_iff, hs.owner?_eq]

theorem SameCode.isVisited (hs : SameCode g h) : h.isVisited s = g.isVisited s := by
  rw [BlockGraph.isVisited, BlockGraph.isVisited, hs.isDecoded, hs.isBlockStart]

theorem Consistent.sameCode (hg : g.Consistent) (hs : SameCode g h) : h.Consistent where
  start_eq hb := by
    obtain ⟨c, hc, hstart, -⟩ := hs.symm.exists_block hb
    exact hstart.symm.trans (hg.start_eq hc)
  spans hb := by
    obtain ⟨c, hc, -, hi⟩ := hs.symm.exists_block hb
    exact hi ▸ hg.spans hc
  runsOn hb := by
    obtain ⟨c, hc, -, hi⟩ := hs.symm.exists_block hb
    exact hi ▸ hg.runsOn hc
  owner_iff := by
    intro a s
    rw [hs.owner?_eq, hg.owner_iff]
    constructor
    · rintro ⟨b, d, hb, hd⟩
      obtain ⟨c, hc, hstart, hi⟩ := hs.exists_block hb
      exact ⟨c, d, hc, (Block.has_congr hstart hi).2 hd⟩
    · rintro ⟨b, d, hb, hd⟩
      obtain ⟨c, hc, hstart, hi⟩ := hs.symm.exists_block hb
      exact ⟨c, d, hc, (Block.has_congr hstart hi).2 hd⟩
  opened hb hi := by
    obtain ⟨c, hc, -, hi'⟩ := hs.symm.exists_block hb
    exact (hs.owner?_eq _).trans (hg.opened hc (hi'.trans hi))

/-! ### What the two indices say of one address -/

namespace Consistent

theorem owner_of_has (hg : g.Consistent) (hb : g.block? s = some b) (hd : b.Has a d) :
    g.owner? a = some s :=
  hg.owner_iff.2 ⟨b, d, hb, hd⟩

theorem exists_has (hg : g.Consistent) (ho : g.owner? a = some s) :
    ∃ b d, g.block? s = some b ∧ b.Has a d :=
  hg.owner_iff.1 ho

theorem exists_spans (hg : g.Consistent) (hb : g.block? s = some b) :
    ∃ stop, Block.Spans b.start b.instructions stop := by
  rw [hg.start_eq hb]
  exact hg.spans hb

theorem exists_endAddress (hg : g.Consistent) (hb : g.block? s = some b) :
    ∃ stop, b.endAddress = .ok stop := by
  obtain ⟨stop, hs⟩ := hg.exists_spans hb
  exact ⟨stop, Block.endAddress_eq_ok.2 hs⟩

theorem indexOf_eq {i : Nat} (hg : g.Consistent) (hb : g.block? s = some b) (hi : b.Holds i a d) :
    b.indexOf a = .ok (some i) := by
  obtain ⟨stop, hs⟩ := hg.exists_spans hb
  exact Block.indexFrom_of_place hs (hg.runsOn hb) hi.1 hi.2

/-- An instruction has one place in a graph, and there is one instruction at a place. -/
theorem place_unique {s' : Address} {b' : Block} {i i' : Nat} {d' : Decoded} (hg : g.Consistent)
    (hb : g.block? s = some b) (hi : b.Holds i a d) (hb' : g.block? s' = some b')
    (hi' : b'.Holds i' a d') : s = s' ∧ i = i' ∧ d = d' := by
  obtain rfl : s = s' :=
    Option.some.inj ((hg.owner_of_has hb ⟨i, hi⟩).symm.trans (hg.owner_of_has hb' ⟨i', hi'⟩))
  obtain rfl : b = b' := Option.some.inj (hb.symm.trans hb')
  obtain rfl := hi.index_unique (hg.runsOn hb) hi'
  exact ⟨rfl, rfl, (hi.unique hi').2⟩

theorem owner_start (hg : g.Consistent) (hb : g.block? s = some b) (hne : b.instructions ≠ []) :
    g.owner? s = some s := by
  obtain ⟨d, hd⟩ := Block.has_start hne
  rw [hg.start_eq hb] at hd
  exact hg.owner_of_has hb hd

/-- An instruction behind another one of its block starts no block. -/
theorem isBlockStart_eq_false (hg : g.Consistent) {i : Nat} (hb : g.block? s = some b)
    (hi : b.Holds (i + 1) a d) : g.isBlockStart a = false := by
  rw [BlockGraph.isBlockStart_eq_false, Option.eq_none_iff_forall_ne_some]
  intro c hc
  have ho := hg.owner_of_has hb ⟨_, hi⟩
  have hne : c.instructions ≠ [] := fun e => by
    rw [hg.opened hc e] at ho
    cases ho
  obtain ⟨e, rest, hins⟩ := List.exists_cons_of_ne_nil hne
  have first : c.Holds 0 a e := ⟨by simp [hins], Block.spans_nil.2 (hg.start_eq hc)⟩
  obtain ⟨-, index, -⟩ := hg.place_unique hb hi hc first
  cases index

/-- An address that is decoded in one block starts no other. -/
theorem eq_of_owner_of_block (hg : g.Consistent) (ho : g.owner? a = some s) (hb : g.block? a = some b) :
    s = a := by
  by_cases hne : b.instructions = []
  · rw [hg.opened hb hne] at ho
    cases ho
  · exact Option.some.inj (ho.symm.trans (hg.owner_start hb hne))

/-- An address belongs to the block that holds it. -/
theorem sameCode_of_blocks (hg : g.Consistent) (hh : h.Consistent) (code : ∀ s,
    (h.block? s).map (fun b => (b.start, b.instructions)) =
      (g.block? s).map fun b => (b.start, b.instructions)) : SameCode g h := by
  have owner : ∀ {g h : BlockGraph}, g.Consistent → h.Consistent → (∀ s,
      (h.block? s).map (fun b => (b.start, b.instructions)) =
        (g.block? s).map fun b => (b.start, b.instructions)) →
      ∀ {a s}, g.owner? a = some s → h.owner? a = some s := by
    intro g h hg hh code a s ho
    obtain ⟨b, d, hb, hd⟩ := hg.exists_has ho
    have := code s
    rw [hb] at this
    obtain ⟨c, hc, he⟩ := Option.map_eq_some_iff.1 this
    obtain ⟨hs, hi⟩ := Prod.mk.inj he
    exact hh.owner_of_has hc ((Block.has_congr hs hi).2 hd)
  exact ⟨fun a => Option.ext fun s => ⟨owner hh hg fun s => (code s).symm, owner hg hh code⟩, code⟩

end Consistent

/-! ### Opening and extending a block -/

theorem Ready.append (hr : g.Ready block a b) (hp : g.append block a d = .ok h) :
    (∀ s, h.block? s =
      if block = s then some { b with instructions := b.instructions ++ [d] } else g.block? s) ∧
    ∀ t, h.owner? t = if a = t then some block else g.owner? t := by
  obtain ⟨b', hb', look⟩ := append_eq_ok hp
  obtain rfl : b = b' := Option.some.inj (hr.found.symm.trans hb')
  exact look

theorem Ready.spans_start (hr : g.Ready block a b) (hg : g.Consistent) :
    Block.Spans b.start b.instructions a := by
  rw [hg.start_eq hr.found]
  exact hr.spans

theorem Ready.has_concat (hr : g.Ready block a b) (hg : g.Consistent) :
    Block.Has { b with instructions := b.instructions ++ [d] } t e ↔ b.Has t e ∨ t = a ∧ e = d :=
  Block.has_concat rfl rfl (hr.spans_start hg)

theorem Ready.endsWith_concat (hr : g.Ready block a b) (hg : g.Consistent) :
    Block.EndsWith { b with instructions := b.instructions ++ [d] } a d :=
  ⟨b.instructions, rfl, hr.spans_start hg⟩

theorem Ready.isDecoded_append (hr : g.Ready block a b) (hp : g.append block a d = .ok h) :
    h.isDecoded t = true ↔ g.isDecoded t = true ∨ t = a := by
  rw [isDecoded_iff, isDecoded_iff, (hr.append hp).2]
  by_cases e : a = t
  · simp [e]
  · simp [e, Ne.symm e]

namespace Consistent

theorem empty : BlockGraph.empty.Consistent where
  start_eq hb := by simp at hb
  spans hb := by simp at hb
  runsOn hb := by simp at hb
  owner_iff := by simp
  opened hb := by simp at hb

theorem openAt (hg : g.Consistent) (ho : g.owner? a = none) (hv : g.block? a = none) :
    (g.openAt a origin).Consistent := by
  have look : ∀ s, (g.openAt a origin).block? s =
      if a = s then some (BlockGraph.opened a origin) else g.block? s := fun _ => block?_openAt hv
  have none_has : ∀ t d, ¬(BlockGraph.opened a origin).Has t d := fun t d hd => hd.ne_nil rfl
  have back : ∀ {s b}, (g.openAt a origin).block? s = some b →
      a = s ∧ b = BlockGraph.opened a origin ∨ g.block? s = some b := by
    intro s b hb
    rw [look] at hb
    split at hb
    next e => exact Or.inl ⟨e, (Option.some.inj hb).symm⟩
    · exact Or.inr hb
  constructor
  case start_eq =>
    intro s b hb
    rcases back hb with ⟨rfl, rfl⟩ | hb
    · rfl
    · exact hg.start_eq hb
  case spans =>
    intro s b hb
    rcases back hb with ⟨rfl, rfl⟩ | hb
    · exact ⟨a, Block.spans_nil.2 rfl⟩
    · exact hg.spans hb
  case runsOn =>
    intro s b hb
    rcases back hb with ⟨rfl, rfl⟩ | hb
    · simp [BlockGraph.opened, Block.openedAt]
    · exact hg.runsOn hb
  case owner_iff =>
    intro t s
    rw [owner?_openAt, hg.owner_iff]
    constructor
    · rintro ⟨b, d, hb, hd⟩
      refine ⟨b, d, ?_, hd⟩
      rw [look, if_neg, hb]
      rintro rfl
      rw [hv] at hb
      cases hb
    · rintro ⟨b, d, hb, hd⟩
      rcases back hb with ⟨rfl, rfl⟩ | hb
      · exact absurd hd (none_has _ _)
      · exact ⟨b, d, hb, hd⟩
  case opened =>
    intro s b hb hi
    rcases back hb with ⟨rfl, rfl⟩ | hb
    · exact ho
    · exact hg.opened hb hi

theorem append (hg : g.Consistent) (hr : g.Ready block a b) {next : Address}
    (hn : Address.plus a d.size = .ok next) (hp : g.append block a d = .ok h) : h.Consistent := by
  obtain ⟨look, own⟩ := hr.append hp
  have hb := hr.found
  have hstart := hg.start_eq hb
  have back : ∀ {s c}, h.block? s = some c →
      block = s ∧ c = { b with instructions := b.instructions ++ [d] } ∨
        block ≠ s ∧ g.block? s = some c := by
    intro s c hc
    rw [look] at hc
    split at hc
    next e => exact Or.inl ⟨e, (Option.some.inj hc).symm⟩
    next e => exact Or.inr ⟨e, hc⟩
  constructor
  case start_eq =>
    intro s c hc
    rcases back hc with ⟨rfl, rfl⟩ | ⟨-, hc⟩
    · exact hstart
    · exact hg.start_eq hc
  case spans =>
    intro s c hc
    rcases back hc with ⟨rfl, rfl⟩ | ⟨-, hc⟩
    · refine ⟨next, Block.spans_append.2 ⟨a, hr.spans, ?_⟩⟩
      exact Block.spans_cons.2 ⟨next, hn, Block.spans_nil.2 rfl⟩
    · exact hg.spans hc
  case runsOn =>
    intro s c hc
    rcases back hc with ⟨rfl, rfl⟩ | ⟨-, hc⟩
    · simpa using hr.runsOn
    · exact hg.runsOn hc
  case owner_iff =>
    intro t s
    rw [own]
    constructor
    · intro ht
      split at ht
      next e =>
        cases ht
        exact ⟨_, d, by rw [look, if_pos rfl], (hr.has_concat hg).2 (Or.inr ⟨e.symm, rfl⟩)⟩
      · obtain ⟨c, e, hc, he⟩ := hg.exists_has ht
        by_cases hs : block = s
        · obtain rfl : b = c := Option.some.inj (hb.symm.trans (hs ▸ hc))
          exact ⟨_, e, by rw [look, if_pos hs], (hr.has_concat hg).2 (Or.inl he)⟩
        · exact ⟨c, e, by rw [look, if_neg hs, hc], he⟩
    · rintro ⟨c, e, hc, he⟩
      -- the place of the new instruction had no owner, so all others keep theirs
      have other : ∀ {u}, g.owner? t = some u → (if a = t then some block else g.owner? t) = some u := by
        intro u hu
        rw [if_neg, hu]
        rintro rfl
        rw [hr.fresh] at hu
        cases hu
      rcases back hc with ⟨rfl, rfl⟩ | ⟨-, hc⟩
      · rcases (hr.has_concat hg).1 he with he | ⟨rfl, -⟩
        · exact other (hg.owner_of_has hb he)
        · rw [if_pos rfl]
      · exact other (hg.owner_of_has hc he)
  case opened =>
    intro s c hc hi
    rcases back hc with ⟨-, rfl⟩ | ⟨hne, hc⟩
    · simp at hi
    · rw [own, if_neg (fun e => hne (hr.only hc e.symm).symm), hg.opened hc hi]

end Consistent

/-! ### Splits -/

namespace Cuts

theorem head_runsOn (hc : g.Cuts old new b before after h) (hg : g.Consistent) :
    ∀ d ∈ before, d.RunsOn := by
  intro d hd
  refine hg.runsOn hc.block d ?_
  rw [hc.instructions, List.dropLast_append_of_ne_nil hc.after_ne]
  exact List.mem_append_left _ hd

theorem spans_head (hc : g.Cuts old new b before after h) (hg : g.Consistent) :
    Block.Spans b.start before new := by
  rw [hg.start_eq hc.block]
  exact hc.spans

theorem lt (hc : g.Cuts old new b before after h) (hg : g.Consistent) : old.toNat < new.toNat := by
  have := Block.byteCount_pos (hc.head_runsOn hg) hc.before_ne
  have := hc.spans
  simp only [Block.Spans] at this
  omega

theorem has_iff (hc : g.Cuts old new b before after h) (hg : g.Consistent) :
    b.Has a d ↔ (head new b before).Has a d ∨ (tail old new b after).Has a d :=
  Block.has_append hc.instructions rfl (hc.spans_head hg)

/-- No instruction of the head lies where one of the tail lies. -/
theorem apart (hc : g.Cuts old new b before after h) (hg : g.Consistent)
    (hh : (head new b before).Has a d) (ht : (tail old new b after).Has a e) : False := by
  have : a.toNat < new.toNat := hh.lt (hc.head_runsOn hg) (hc.spans_head hg)
  have : new.toNat ≤ a.toNat := ht.le
  omega

theorem owner_of_tail (hc : g.Cuts old new b before after h) (hg : g.Consistent)
    (ht : (tail old new b after).Has a d) : g.owner? a = some old :=
  hg.owner_of_has hc.block ((hc.has_iff hg).2 (Or.inr ht))

theorem owner_new (hc : g.Cuts old new b before after h) (hg : g.Consistent) :
    g.owner? new = some old := by
  obtain ⟨d, hd⟩ := Block.has_start (b := tail old new b after) hc.after_ne
  exact hc.owner_of_tail hg hd

theorem block?_new (hc : g.Cuts old new b before after h) (hg : g.Consistent) :
    g.block? new = none := by
  cases hb : g.block? new with
  | none => rfl
  | some c =>
    have := hc.lt hg
    rw [hg.eq_of_owner_of_block (hc.owner_new hg) hb] at this
    omega

/-- What is in a graph after a split: the tail, the head, and the other blocks as they were. -/
theorem block?_cases (hc : g.Cuts old new b before after h) (hs : h.block? s = some c) :
    s = new ∧ c = tail old new b after ∨ s = old ∧ c = head new b before ∨
      s ≠ new ∧ s ≠ old ∧ g.block? s = some c := by
  rw [hc.block?_eq] at hs
  split at hs
  next e => exact Or.inl ⟨e.symm, (Option.some.inj hs).symm⟩
  next hn =>
    split at hs
    next e => exact Or.inr (Or.inl ⟨e.symm, (Option.some.inj hs).symm⟩)
    next ho => exact Or.inr (Or.inr ⟨Ne.symm hn, Ne.symm ho, hs⟩)

theorem block?_tail (hc : g.Cuts old new b before after h) :
    h.block? new = some (tail old new b after) := by
  rw [hc.block?_eq, if_pos rfl]

theorem block?_head (hc : g.Cuts old new b before after h) (hg : g.Consistent) :
    h.block? old = some (head new b before) := by
  have : new ≠ old := fun e => Nat.lt_irrefl _ (e ▸ hc.lt hg)
  rw [hc.block?_eq, if_neg this, if_pos rfl]

theorem block?_other (hc : g.Cuts old new b before after h) (hg : g.Consistent)
    (hs : g.block? s = some c) (ho : s ≠ old) : h.block? s = some c := by
  have : new ≠ s := by
    rintro rfl
    rw [hc.block?_new hg] at hs
    cases hs
  rw [hc.block?_eq, if_neg this, if_neg ho.symm, hs]

theorem owner_iff (hc : g.Cuts old new b before after h) (hg : g.Consistent) :
    h.owner? a = some s ↔ ∃ c d, h.block? s = some c ∧ c.Has a d := by
  constructor
  · intro ho
    -- the tail owns its places now; all others have the owner they had, and the head that of the block
    by_cases ht : ∃ d, (tail old new b after).Has a d
    · obtain ⟨d, hd⟩ := ht
      cases ho.symm.trans (hc.owned hd)
      exact ⟨_, d, hc.block?_tail, hd⟩
    · have ht : ∀ d, ¬(tail old new b after).Has a d := fun d hd => ht ⟨d, hd⟩
      rw [hc.kept ht] at ho
      obtain ⟨c, d, hb, hd⟩ := hg.exists_has ho
      by_cases hs : s = old
      · subst hs
        obtain rfl : b = c := Option.some.inj (hc.block.symm.trans hb)
        exact ⟨_, d, hc.block?_head hg, ((hc.has_iff hg).1 hd).resolve_right (ht d)⟩
      · exact ⟨c, d, hc.block?_other hg hb hs, hd⟩
  · rintro ⟨c, d, hb, hd⟩
    rcases hc.block?_cases hb with ⟨rfl, rfl⟩ | ⟨rfl, rfl⟩ | ⟨-, hs, hb⟩
    · exact hc.owned hd
    · rw [hc.kept fun e he => hc.apart hg hd he]
      exact hg.owner_of_has hc.block ((hc.has_iff hg).2 (Or.inl hd))
    · have ho := hg.owner_of_has hb hd
      rw [hc.kept fun e he => hs (Option.some.inj (ho.symm.trans (hc.owner_of_tail hg he))), ho]

/-- A split moves instructions, but decodes and forgets none. -/
theorem isDecoded (hc : g.Cuts old new b before after h) (hg : g.Consistent) :
    h.isDecoded a = g.isDecoded a := by
  rw [Bool.eq_iff_iff, isDecoded_iff, isDecoded_iff]
  by_cases ht : ∃ d, (tail old new b after).Has a d
  · obtain ⟨d, hd⟩ := ht
    rw [hc.owned hd, hc.owner_of_tail hg hd]
    simp
  · rw [hc.kept fun d hd => ht ⟨d, hd⟩]

theorem consistent (hc : g.Cuts old new b before after h) (hg : g.Consistent) : h.Consistent where
  start_eq hs := by
    rcases hc.block?_cases hs with ⟨rfl, rfl⟩ | ⟨rfl, rfl⟩ | ⟨-, -, hs⟩
    · rfl
    · show b.start = _
      exact hg.start_eq hc.block
    · exact hg.start_eq hs
  spans hs := by
    rcases hc.block?_cases hs with ⟨rfl, rfl⟩ | ⟨rfl, rfl⟩ | ⟨-, -, hs⟩
    · obtain ⟨stop, hb⟩ := hg.spans hc.block
      rw [hc.instructions, Block.spans_append] at hb
      obtain ⟨mid, hm, hb⟩ := hb
      exact ⟨stop, hc.spans.unique hm ▸ hb⟩
    · exact ⟨new, hc.spans⟩
    · exact hg.spans hs
  runsOn hs := by
    rcases hc.block?_cases hs with ⟨rfl, rfl⟩ | ⟨rfl, rfl⟩ | ⟨-, -, hs⟩
    · intro d hd
      refine hg.runsOn hc.block d ?_
      rw [hc.instructions, List.dropLast_append_of_ne_nil hc.after_ne]
      exact List.mem_append_right _ hd
    · exact fun d hd => hc.head_runsOn hg d (List.dropLast_subset _ hd)
    · exact hg.runsOn hs
  owner_iff := hc.owner_iff hg
  opened hs hi := by
    rcases hc.block?_cases hs with ⟨rfl, rfl⟩ | ⟨rfl, rfl⟩ | ⟨-, -, hs⟩
    · exact absurd hi hc.after_ne
    · exact absurd hi hc.before_ne
    · have ho := hg.opened hs hi
      rw [hc.kept fun e he => by simp [hc.owner_of_tail hg he] at ho, ho]

end Cuts

namespace Consistent

theorem split (hg : g.Consistent) (hs : g.split old new = .ok h) : h.Consistent := by
  obtain ⟨b, before, after, hc⟩ := cuts_of_split hs
  exact hc.consistent hg

theorem makeStart (hg : g.Consistent) (hs : g.makeStart a = .ok h) : h.Consistent := by
  rcases makeStart_cases hs with ⟨-, rfl⟩ | ⟨s, -, -, hs⟩
  · exact hg
  · exact hg.split hs

theorem makeStartIfDecoded (hg : g.Consistent) (hs : g.makeStartIfDecoded a = .ok h) :
    h.Consistent := by
  rcases makeStartIfDecoded_cases hs with ⟨-, rfl⟩ | ⟨s, -, -, hs⟩
  · exact hg
  · exact hg.split hs

/-- A block can be cut at each of its instructions but the first. -/
theorem exists_split (hg : g.Consistent) (ho : g.owner? a = some s) (hne : a ≠ s) :
    ∃ h, g.split s a = .ok h := by
  obtain ⟨b, d, hb, i, hi⟩ := hg.exists_has ho
  have cut : Block.cutFrom s a b.instructions = .ok (some (b.instructions.take i, b.instructions.drop i)) := by
    rw [← hg.start_eq hb]
    exact Block.cutFrom_of_indexFrom (hg.indexOf_eq hb hi)
  obtain ⟨-, hspan, -⟩ := Block.cutFrom_eq_some cut
  rw [BlockGraph.split, hb]
  refine exists_bind_eq_ok ⟨_, cut⟩ fun parts hp => ?_
  cases cut.symm.trans hp
  cases before : b.instructions.take i with
  | nil =>
    rw [before, Block.spans_nil] at hspan
    exact absurd hspan.symm hne
  | cons first more =>
    obtain ⟨stop, hs⟩ := hg.spans hb
    rw [← List.take_append_drop i b.instructions, Block.spans_append] at hs
    obtain ⟨mid, hm, hs⟩ := hs
    obtain rfl := hspan.unique hm
    exact exists_bind_eq_ok (Block.exists_place hs) fun moved _ => ⟨_, rfl⟩

theorem exists_makeStartIfDecoded (hg : g.Consistent) (a : Address) :
    ∃ h, g.makeStartIfDecoded a = .ok h := by
  rw [BlockGraph.makeStartIfDecoded]
  split
  next inside =>
    obtain ⟨decoded, fresh⟩ := inside
    have fresh : g.isBlockStart a = false := by simpa using fresh
    obtain ⟨s, ho⟩ := isDecoded_iff.1 decoded
    rw [BlockGraph.makeStart, fresh, ho]
    refine hg.exists_split ho ?_
    rintro rfl
    obtain ⟨b, d, hb, -⟩ := hg.exists_has ho
    rw [isBlockStart_iff.2 ⟨b, hb⟩] at fresh
    cases fresh
  · exact ⟨g, rfl⟩

end Consistent

end ReachableCode.BlockGraph
