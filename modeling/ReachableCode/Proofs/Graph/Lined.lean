import ReachableCode.Proofs.Graph.Edges

/-!
Blocks that lie behind one another, and what they hold together. A block that is split becomes two such
blocks, and so does each of them again, so that the parts of a block go on holding its instructions in
order while the graph grows.
-/

namespace ReachableCode

namespace Block

/-- A block that holds some instructions, without edges. -/
def holding (start : Address) (ds : List Decoded) : Block :=
  { openedAt start with instructions := ds }

/-- The block becomes `c` when edges are added. -/
structure Widens (b c : Block) : Prop where
  start : c.start = b.start
  instructions : c.instructions = b.instructions
  goes : ∀ {t}, t ∈ b.successors → t ∈ c.successors

theorem Widens.refl {b : Block} : b.Widens b :=
  ⟨rfl, rfl, id⟩

end Block

namespace BlockGraph

/-- The blocks at a list of places lie behind one another and hold the instructions `ds` in order. From
the last of them control may go to each of `exits`. -/
inductive Lined (g : BlockGraph) (exits : Std.ExtTreeSet Address) : List Address → List Decoded → Prop
  | last {s : Address} {b : Block} : g.block? s = some b → (∀ t ∈ exits, t ∈ b.successors) →
      Lined g exits [s] b.instructions
  | cons {s next : Address} {more : List Address} {b : Block} {ds : List Decoded} :
      g.block? s = some b → b.endAddress = .ok next → ds ≠ [] → Lined g exits (next :: more) ds →
      Lined g exits (s :: next :: more) (b.instructions ++ ds)

/-- The blocks of `g` are lined up in `h`, and what control came from to them is kept. The block at
`running`, which is not yet complete, is none of their parts. -/
structure RefinesBut (running : Option Address) (g h : BlockGraph) : Prop where
  comes : ∀ {p t}, g.Comes p t → h.Comes p t
  lined : ∀ {s b}, g.block? s = some b → ∃ more, h.Lined b.successors (s :: more) b.instructions ∧
    ∀ u ∈ s :: more, running ≠ some u

variable {g h k : BlockGraph} {exits : Std.ExtTreeSet Address} {a block old new s u : Address}
  {b c : Block} {d : Decoded} {ds before after : List Decoded} {places more : List Address}
  {origin running : Option Address}

/-! ### What lined up blocks hold -/

theorem Consistent.has_holding (hg : g.Consistent) (hb : g.block? s = some b) :
    (Block.holding s b.instructions).Has a d ↔ b.Has a d :=
  Block.has_congr (hg.start_eq hb).symm rfl

theorem Consistent.endsWith_holding (hg : g.Consistent) (hb : g.block? s = some b) :
    (Block.holding s b.instructions).EndsWith a d ↔ b.EndsWith a d :=
  Block.endsWith_congr (hg.start_eq hb).symm rfl

namespace Lined

theorem isBlockStart (hl : g.Lined exits places ds) (hu : u ∈ places) : g.isBlockStart u = true := by
  induction hl with
  | last hb => exact List.mem_singleton.1 hu ▸ isBlockStart_iff.2 ⟨_, hb⟩
  | cons hb _ _ _ ih =>
    rcases List.mem_cons.1 hu with rfl | hu
    · exact isBlockStart_iff.2 ⟨_, hb⟩
    · exact ih hu

theorem has (hl : g.Lined exits (s :: more) ds) (hg : g.Consistent)
    (hd : (Block.holding s ds).Has a d) : ∃ u c, g.block? u = some c ∧ c.Has a d := by
  generalize hp : s :: more = places at hl
  induction hl generalizing s more with
  | @last s b hb =>
    cases hp
    exact ⟨s, b, hb, (hg.has_holding hb).1 hd⟩
  | @cons s next more b ds hb hend _ _ ih =>
    cases hp
    have hs : Block.Spans s b.instructions next := hg.start_eq hb ▸ Block.endAddress_eq_ok.1 hend
    have parts : (Block.holding s (b.instructions ++ ds)).Has a d ↔ b.Has a d ∨ (Block.holding next ds).Has a d :=
      Block.has_append rfl (hg.start_eq hb) hs
    rcases parts.1 hd with hd | hd
    · exact ⟨s, b, hb, hd⟩
    · exact ih hd rfl

/-- The last instruction is that of the last block. -/
theorem ends (hl : g.Lined exits (s :: more) ds) (hg : g.Consistent)
    (hd : (Block.holding s ds).EndsWith a d) :
    ∃ u c, g.block? u = some c ∧ c.EndsWith a d ∧ ∀ t ∈ exits, t ∈ c.successors := by
  generalize hp : s :: more = places at hl
  induction hl generalizing s more with
  | @last s b hb goes =>
    cases hp
    exact ⟨s, b, hb, (hg.endsWith_holding hb).1 hd, goes⟩
  | @cons s next more b ds hb hend hne _ ih =>
    cases hp
    have hs : Block.Spans s b.instructions next := hg.start_eq hb ▸ Block.endAddress_eq_ok.1 hend
    exact ih ((Block.endsWith_append (b := .holding s (b.instructions ++ ds)) (c := .holding next ds)
      rfl hs hne).1 hd) rfl

/-! ### How they are kept -/

theorem widens (hl : g.Lined exits places ds) (kept : ∀ {u b}, u ∈ places → g.block? u = some b →
    ∃ c, h.block? u = some c ∧ b.Widens c) : h.Lined exits places ds := by
  induction hl with
  | last hb goes =>
    obtain ⟨c, hc, wide⟩ := kept (List.mem_singleton.2 rfl) hb
    exact wide.instructions ▸ .last hc fun t ht => wide.goes (goes t ht)
  | cons hb hend hne _ ih =>
    obtain ⟨c, hc, wide⟩ := kept List.mem_cons_self hb
    rw [Block.endAddress_eq_ok, ← wide.start, ← wide.instructions, ← Block.endAddress_eq_ok] at hend
    exact wide.instructions ▸ .cons hc hend hne (ih fun hu => kept (List.mem_cons_of_mem _ hu))

/-- A block among them that is cut gives way to its head and its tail. -/
theorem cuts (hl : g.Lined exits (s :: more) ds) (hg : g.Consistent)
    (hc : g.Cuts old new b before after h) : ∃ more', h.Lined exits (s :: more') ds := by
  have head_end : (head new b before).endAddress = .ok new :=
    Block.endAddress_eq_ok.2 (hc.spans_head hg)
  generalize hp : s :: more = places at hl
  induction hl generalizing s more with
  | @last s c hs goes =>
    cases hp
    by_cases e : s = old
    · subst e
      obtain rfl := Option.some.inj (hc.block.symm.trans hs)
      rw [hc.instructions]
      exact ⟨[new], .cons (hc.block?_head hg) head_end hc.after_ne (.last hc.block?_tail goes)⟩
    · exact ⟨[], .last (hc.block?_other hg hs e) goes⟩
  | @cons s next more c ds hs hend hne _ ih =>
    cases hp
    obtain ⟨more', hl⟩ := ih rfl
    by_cases e : s = old
    · subst e
      obtain rfl := Option.some.inj (hc.block.symm.trans hs)
      have tail_end : (tail s new b after).endAddress = .ok next := by
        rw [Block.endAddress_eq_ok, hc.instructions, Block.spans_append] at hend
        obtain ⟨mid, hm, hend⟩ := hend
        exact Block.endAddress_eq_ok.2 ((hc.spans_head hg).unique hm ▸ hend)
      rw [hc.instructions, List.append_assoc]
      exact ⟨new :: next :: more', .cons (hc.block?_head hg) head_end (by simp [hc.after_ne])
        (.cons hc.block?_tail tail_end hne hl)⟩
    · exact ⟨next :: more', .cons (hc.block?_other hg hs e) hend hne hl⟩

end Lined

/-! ### How a graph refines another one -/

namespace RefinesBut

theorem refl : RefinesBut none g g :=
  ⟨id, fun hb => ⟨[], .last hb fun _ => id, fun _ _ => nofun⟩⟩

theorem complete (hr : RefinesBut running g h) : RefinesBut none g h where
  comes := hr.comes
  lined hb := by
    obtain ⟨more, hl, -⟩ := hr.lined hb
    exact ⟨more, hl, fun _ _ => nofun⟩

/-- A block that is not there yet may be the one that control runs on from. -/
theorem opening (hr : RefinesBut running g h) (hv : h.block? a = none) : RefinesBut (some a) g h where
  comes := hr.comes
  lined hb := by
    obtain ⟨more, hl, -⟩ := hr.lined hb
    refine ⟨more, hl, fun u hu e => ?_⟩
    have start := hl.isBlockStart hu
    rw [← Option.some.inj e, isBlockStart_eq_false.2 hv] at start
    cases start

theorem widens (hr : RefinesBut running g h) (comes : ∀ {p t}, h.Comes p t → k.Comes p t)
    (kept : ∀ {u b}, running ≠ some u → h.block? u = some b → ∃ c, k.block? u = some c ∧ b.Widens c) :
    RefinesBut running g k where
  comes hp := comes (hr.comes hp)
  lined hb := by
    obtain ⟨more, hl, apart⟩ := hr.lined hb
    exact ⟨more, hl.widens fun hu => kept (apart _ hu), apart⟩

theorem sameCode (hr : RefinesBut running g h) (hs : h.SameCode k)
    (comes : ∀ {p t}, h.Comes p t → k.Comes p t) (goes : ∀ {s t}, h.Goes s t → k.Goes s t) :
    RefinesBut running g k := by
  refine hr.widens comes fun {u b} _ hb => ?_
  obtain ⟨c, hc, hstart, hi⟩ := hs.exists_block hb
  refine ⟨c, hc, hstart, hi, fun ht => ?_⟩
  obtain ⟨c', hc', ht⟩ := goes ⟨b, hb, ht⟩
  obtain rfl := Option.some.inj (hc.symm.trans hc')
  exact ht

theorem openAt (hr : RefinesBut running g h) (hv : h.block? a = none) :
    RefinesBut (some a) g (h.openAt a origin) := by
  refine (hr.opening hv).widens (keeps_openAt hv).comes fun {u b} hu hb => ⟨b, ?_, .refl⟩
  rw [block?_openAt hv, if_neg fun e => hu (congrArg some e), hb]

theorem append (hr : RefinesBut (some block) g h) (hready : h.Ready block a b)
    (hp : h.append block a d = .ok k) : RefinesBut (some block) g k := by
  refine hr.widens (hready.keeps hp).comes fun {u c} hu hc => ⟨c, ?_, .refl⟩
  rw [(hready.append hp).1, if_neg fun e => hu (congrArg some e), hc]

theorem addSuccessors {targets : List Address} (hr : RefinesBut running g h) :
    RefinesBut running g (h.addSuccessors block targets) :=
  hr.sameCode sameCode_addSuccessors comes_addSuccessors.2 fun hs => goes_addSuccessors.2 (Or.inl hs)

theorem leaveFor {current : Option Address} (hr : RefinesBut running g h) :
    RefinesBut running g (h.leaveFor current a) := by
  cases current with
  | none => exact hr
  | some block =>
    exact hr.sameCode sameCode_addSuccessor comes_addSuccessor.2 fun hs => goes_addSuccessor.2 (Or.inl hs)

theorem comeFrom (hr : RefinesBut running g h) : RefinesBut running g (h.comeFrom block origin) := by
  cases origin with
  | none => exact hr
  | some origin =>
    exact hr.sameCode sameCode_addPredecessor (fun hp => comes_addPredecessor.2 (Or.inl hp))
      goes_addPredecessor.2

theorem cuts (hr : RefinesBut running g h) (hh : h.Consistent) (hc : h.Cuts old new b before after k) :
    RefinesBut none g k where
  comes hp := (hc.comes_iff hh).2 (Or.inr (hr.comes hp))
  lined hb := by
    obtain ⟨more, hl, -⟩ := hr.lined hb
    obtain ⟨more', hl⟩ := hl.cuts hh hc
    exact ⟨more', hl, fun _ _ => nofun⟩

theorem makeStartIfDecoded (hr : RefinesBut running g h) (hh : h.Consistent)
    (hm : h.makeStartIfDecoded a = .ok k) : RefinesBut none g k := by
  rcases makeStartIfDecoded_cases hm with ⟨-, rfl⟩ | ⟨u, -, -, hs⟩
  · exact hr.complete
  · obtain ⟨b, before, after, hc⟩ := cuts_of_split hs
    exact hr.cuts hh hc

end RefinesBut

end BlockGraph

end ReachableCode
