import ReachableCode.Proofs.Exploration.Steady
import ReachableCode.Proofs.Graph.Lined

/-!
A further exploration only refines the graph it adds to. It may run into blocks that are there, split
them again and again and add edges to them, but each of its steps keeps every instruction, every start
with all that control came from, and the parts of every block behind one another; what control could go
to from a block it can go to from the last of its parts.
-/

namespace ReachableCode.Explorer

open BlockGraph (RefinesBut)

variable {x : Explorer} {s t : Exploration} {item : WorkItem} {rest : List WorkItem} {g h : BlockGraph}
  {a : Address} {entry : Target}

/-- Until the next target is decoded, the block that takes it is no part of a block that was there. -/
theorem refinesBut_room {origin : Option Address} (hr : RefinesBut s.current g s.graph)
    (hv : s.graph.isVisited a = false) :
    RefinesBut (some (s.room a origin).1) g (s.room a origin).2 := by
  obtain ⟨-, hb⟩ := BlockGraph.isVisited_eq_false.1 hv
  unfold Exploration.room
  split
  next block hc => exact hc ▸ hr
  next => exact hr.openAt hb

theorem refinesBut_step (hs : s.Steady) (hr : RefinesBut s.current g s.graph)
    (hw : s.work = item :: rest) (ht : x.Takes s item rest t) : RefinesBut t.current g t.graph := by
  cases ht with
  | unresolved => exact hr.complete
  | unmapped => exact hr.complete
  | revisited ha hv hm =>
    exact (hr.leaveFor.makeStartIfDecoded (hs.consistent.sameCode BlockGraph.sameCode_leaveFor) hm).comeFrom
  | invalid ha hv hd hf => exact (refinesBut_room hr hv).complete
  | plain ha hv hd hf htr hn hp =>
    obtain ⟨-, b, hready⟩ := hs.ready hw ha hv
    have added := (refinesBut_room hr hv).append hready hp
    dsimp only
    split
    · exact added.complete
    · exact added
  | transfer ha hv hd hf htr hn hp =>
    obtain ⟨-, b, hready⟩ := hs.ready hw ha hv
    exact ((refinesBut_room hr hv).append hready hp).addSuccessors.complete

theorem refinesBut_explore (hg : g.Consistent) (he : x.explore g entry = .ok h) :
    RefinesBut none g h := by
  obtain ⟨g', hr, he⟩ := bind_eq_ok.1 he
  obtain ⟨t, ⟨hs, ht⟩, -, rfl⟩ :=
    run_induction (I := fun s => s.Steady ∧ RefinesBut s.current g s.graph)
      (fun hs hw ht => ⟨hs.1.step hw (takes_of_step ht), refinesBut_step hs.1 hs.2 hw (takes_of_step ht)⟩)
      ⟨.starting hg entry, .refl⟩ hr
  split at he
  · obtain ⟨labels, -, he⟩ := bind_eq_ok.1 he
    exact (makeStarts_induction (P := fun h => h.Consistent ∧ RefinesBut none g h)
      (fun _ hh hm => ⟨hh.1.makeStartIfDecoded hm, hh.2.makeStartIfDecoded hh.1 hm⟩)
      ⟨hs.consistent, ht.complete⟩ he).2
  · cases he
    exact ht.complete

/-- Exploring further keeps every instruction and every start with its origins. Each block is now a run of
blocks behind one another that hold its instructions in order, and control may go to where it could from the
block of its last instruction. -/
theorem further_explorations_refine (hg : x.Attainable g) (he : x.explore g entry = .ok h) :
    (∀ a, g.isDecoded a = true → h.isDecoded a = true) ∧ (∀ a d, g.Has a d → h.Has a d) ∧
    (∀ s, g.isBlockStart s = true → h.isBlockStart s = true) ∧ (∀ p t, g.Comes p t → h.Comes p t) ∧
    (∀ s b, g.block? s = some b → ∃ more, h.Lined b.successors (s :: more) b.instructions) ∧
    (∀ s b a d, g.block? s = some b → b.EndsWith a d →
      ∃ c, h.blockOf? a = some c ∧ ∀ t ∈ b.successors, t ∈ c.successors) := by
  have hg := hg.consistent
  have hr := refinesBut_explore hg he
  have hh := consistent_of_explore hg he
  have has : ∀ a d, g.Has a d → h.Has a d := by
    rintro a d ⟨s, b, hb, hd⟩
    obtain ⟨more, hl, -⟩ := hr.lined hb
    exact hl.has hh ((hg.has_holding hb).2 hd)
  refine ⟨fun a ha => ?_, has, fun s hs => ?_, fun p t => hr.comes, fun s b hb => ?_, ?_⟩
  · obtain ⟨s, ho⟩ := BlockGraph.isDecoded_iff.1 ha
    obtain ⟨b, d, hb, hd⟩ := hg.exists_has ho
    obtain ⟨u, c, hc, hd⟩ := has a d ⟨s, b, hb, hd⟩
    exact BlockGraph.isDecoded_iff.2 ⟨u, hh.owner_of_has hc hd⟩
  · obtain ⟨b, hb⟩ := BlockGraph.isBlockStart_iff.1 hs
    obtain ⟨more, hl, -⟩ := hr.lined hb
    exact hl.isBlockStart List.mem_cons_self
  · obtain ⟨more, hl, -⟩ := hr.lined hb
    exact ⟨more, hl⟩
  · intro s b a d hb hd
    obtain ⟨more, hl, -⟩ := hr.lined hb
    obtain ⟨u, c, hc, hd, goes⟩ := hl.ends hh ((hg.endsWith_holding hb).2 hd)
    exact ⟨c, BlockGraph.blockOf?_eq_some.2 ⟨u, hh.owner_of_has hc hd.has, hc⟩, goes⟩

/-- A second entry into the middle of a block splits it, and the two parts hold what the block held. -/
theorem entered_again_in_the_middle :
    let x := Toy.explorer [0x00, 0x00, 0x00, 0xc3]
    ∃ g h b more, x.explore .empty (.address 0x1000) = .ok g ∧ x.explore g (.address 0x1002) = .ok h ∧
      g.isBlockStart 0x1002 = false ∧ h.isBlockStart 0x1002 = true ∧ g.block? 0x1000 = some b ∧
      h.Lined b.successors (0x1000 :: more) b.instructions := by
  intro x
  have run : (do
      let g : BlockGraph ← x.explore .empty (.address 0x1000)
      let h : BlockGraph ← x.explore g (.address 0x1002)
      return (g.isBlockStart 0x1000, g.isBlockStart 0x1002, h.isBlockStart 0x1002)) =
        .ok (true, false, true) := by
    cbv
  obtain ⟨g, hg, run⟩ := bind_eq_ok.1 run
  obtain ⟨h, hh, run⟩ := bind_eq_ok.1 run
  simp only [pure_eq_ok, Prod.mk.injEq] at run
  obtain ⟨start, within, cut⟩ := run
  obtain ⟨b, hb⟩ := BlockGraph.isBlockStart_iff.1 start
  obtain ⟨-, -, -, -, lined, -⟩ := further_explorations_refine (attainable_of_explore .empty hg) hh
  obtain ⟨more, hl⟩ := lined 0x1000 b hb
  exact ⟨g, h, b, more, hg, hh, within, cut, hb, hl⟩

end ReachableCode.Explorer
