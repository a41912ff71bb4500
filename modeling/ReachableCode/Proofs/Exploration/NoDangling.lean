import ReachableCode.Proofs.Exploration.Answers
import ReachableCode.Proofs.Exploration.Starts

/-!
No edge of a finished graph dangles. What control comes from is decoded, and where control goes a block
starts unless nothing is mapped there: the target waited until it was taken, and if it lay inside a block
then, that one was cut. Cutting blocks later moves edges, but leaves both ends in the graph.
-/

namespace ReachableCode

open Relation (ReflTransGen)

namespace BlockGraph

variable {g : BlockGraph} {p s t : Address}

theorem Edge.isDecoded (he : g.Edge p s t) (hg : g.Consistent) : g.isDecoded p = true := by
  rcases he with ⟨-, d, hd⟩ | ⟨hf, hr⟩
  · exact isDecoded_iff.2 ⟨s, hd.owner hg⟩
  · rcases ReflTransGen.cases_head hr with rfl | ⟨u, hu, -⟩
    · exact isDecoded_iff.2 ⟨p, hf.ownsStart hg⟩
    · exact isDecoded_iff.2 ⟨p, hu.ownsStart hg⟩

end BlockGraph

namespace Explorer

/-- All edges lead somewhere: the ends of each are decoded, or no section maps where it goes. -/
structure NoDanglingEdges (x : Explorer) (entries : List Target) (g : BlockGraph) : Prop where
  comes : ∀ {p t}, g.Comes p t → g.isDecoded p = true
  goes : ∀ {s t}, g.Goes s t → g.isBlockStart t = true ∨ x.program.sectionAt t = .ok none
  entry : ∀ {e a place}, e ∈ entries → e.addressIn x.program = .ok (some a) →
    x.program.sectionAt a = .ok (some place) → g.isBlockStart a = true
  /-- Control comes from a transfer to the blocks that it goes to. -/
  transfer : ∀ {s a d f t}, g.Ends s a d → d.flow = some f → f.transfers = true → g.Goes s t →
    g.isBlockStart t = true → g.Comes a t

variable {x : Explorer} {entries : List Target} {g h : BlockGraph} {a s t old new : Address} {b : Block}
  {d : Decoded} {c : Target} {before after : List Decoded}

/-! ### What is mapped -/

theorem decodeAt_ne_none {place : Section} (ht : x.program.sectionAt t = .ok (some place)) :
    x.decodeAt t ≠ .ok none := by
  rw [decodeAt, Program.cursorAt, ht]
  intro h
  obtain ⟨c?, hc, h⟩ := bind_eq_ok.1 h
  cases hc
  obtain ⟨r, -, h⟩ := bind_eq_ok.1 h
  cases h

/-- The decoder gave an answer for what is mapped. -/
theorem Answers.maps {place : Section} (hc : x.Answers c) (ha : c.addressIn x.program = .ok (some a))
    (hp : x.program.sectionAt a = .ok (some place)) : x.Maps a := by
  obtain ⟨a?, ha', hd⟩ := hc
  cases ha.symm.trans ha'
  obtain ⟨d?, hd⟩ := hd a rfl
  cases d? with
  | none => exact absurd hd (decodeAt_ne_none hp)
  | some d => exact ⟨d, hd⟩

/-- Where a target was answered for, something is decoded or nothing is mapped. -/
theorem Answers.maps_or (hc : x.Answers c)
    (ha : c.addressIn x.program = .ok (some t) ∨ c = .address t) :
    x.Maps t ∨ x.program.sectionAt t = .ok none := by
  rcases ha with ha | rfl
  · obtain ⟨a?, ha', hd⟩ := id hc
    cases ha.symm.trans ha'
    obtain ⟨d?, hd⟩ := hd t rfl
    cases hp : x.program.sectionAt t with
    | error fault =>
      rw [decodeAt, Program.cursorAt, hp] at hd
      cases hd
    | ok place? =>
      cases place? with
      | none => exact Or.inr rfl
      | some place => exact Or.inl (hc.maps ha hp)
  · obtain ⟨a?, ha, -⟩ := id hc
    obtain ⟨place?, hp, ha⟩ := bind_eq_ok.1 ha
    cases place? with
    | none => exact Or.inr hp
    | some place => exact Or.inl (hc.maps (bind_eq_ok.2 ⟨_, hp, rfl⟩) hp)

/-! ### However blocks are cut -/

/-- What holds of finished graphs and is kept by cuts. -/
structure Finished (x : Explorer) (entries : List Target) (g : BlockGraph) : Prop where
  consistent : g.Consistent
  faithful : x.Faithful g
  linked : x.Linked g fun _ _ => False
  answered : x.Answered entries g []
  settled : x.Settled entries g none
  entry : ∀ {e u}, e ∈ entries → e.addressIn x.program = .ok (some u) → x.Maps u → g.isBlockStart u = true

namespace Finished

theorem exploreAll (he : x.exploreAll .empty entries = .ok g) : x.Finished entries g where
  consistent := (sound_invariant.exploreAll he).1
  faithful := (sound_invariant.exploreAll he).2
  linked := (linked_invariant.exploreAll he).2
  answered := (answered_invariant.exploreAll he).2
  settled := (settled_invariant.exploreAll he).2
  entry hm hu hmap := ((starts_invariant.exploreAll he).2.entry hm hu hmap).resolve_right not_waits_nil

theorem cuts (hf : x.Finished entries g) (hc : g.Cuts old new b before after h) :
    x.Finished entries h where
  consistent := hc.consistent hf.consistent
  faithful := hf.faithful.cuts hf.consistent hc
  linked := hf.linked.cuts hf.consistent hc
  answered := hf.answered.congr (fun _ => hc.isDecoded hf.consistent) fun _ _ => hc.leads hf.consistent
  settled := hf.settled.cuts hf.consistent hc
  entry hm hu hmap := hc.isBlockStart.2 (Or.inl (hf.entry hm hu hmap))

/-- Control goes elsewhere only from the last instruction of a block. -/
theorem exists_ends (hf : x.Finished entries g) (hs : g.Goes s t) : ∃ a d, g.Ends s a d := by
  obtain ⟨b, hb, -⟩ := id hs
  obtain ⟨stop, hspan⟩ := hf.consistent.exists_spans hb
  obtain ⟨a, d, hd⟩ := Block.exists_endsWith (fun hi => hf.settled.empty hb hi hs) hspan
  exact ⟨a, d, b, hb, hd⟩

/-- Something was asked for at every address that control goes to. -/
theorem answers (hf : x.Finished entries g) (hs : g.Goes s t) :
    ∃ c, x.Answers c ∧ (c.addressIn x.program = .ok (some t) ∨ c = .address t) := by
  obtain ⟨a, d, ends⟩ := hf.exists_ends hs
  cases hf.settled.exits ends nofun with
  | stop _ _ _ none => exact absurd hs (none t)
  | plain hflow _ hstop hn only _ =>
    obtain rfl := only t hs
    have decoded := BlockGraph.isDecoded_iff.2 ⟨s, ends.owner hf.consistent⟩
    obtain ⟨b, hb, hd⟩ := ends
    exact ⟨_, (hf.answered.next decoded (hf.faithful.decoded hb hd.has).1 hflow hstop hn).answers, Or.inr rfl⟩
  | transfer hflow ht _ _ _ _ =>
    obtain ⟨c, hc, at?⟩ := hf.answered.exit ((goes_iff_leads hf.consistent ends hflow ht).1 hs)
    exact ⟨c, hc.answers, at?⟩

theorem noDanglingEdges (hf : x.Finished entries g) : x.NoDanglingEdges entries g where
  comes hp := by
    obtain ⟨s, he⟩ := hf.linked.comes hp
    exact he.isDecoded hf.consistent
  goes hs := by
    obtain ⟨c, hc, at?⟩ := hf.answers hs
    exact (hc.maps_or at?).imp_left (hf.linked.isBlockStart hs)
  entry hm ha hp := hf.entry hm ha ((hf.answered.entry hm).answers.maps ha hp)
  transfer {s a d f t} ends hflow ht hs hstart := by
    obtain ⟨b, hb⟩ := BlockGraph.isBlockStart_iff.1 hstart
    rcases hf.linked.goes hs with ⟨p, hp, edge⟩ | ⟨_, _, _, none⟩ | hn
    · -- a block that a transfer ends falls into no other, so the edge comes from the transfer
      rcases edge with ⟨-, d', ends'⟩ | ⟨falls, -⟩
      · obtain ⟨rfl, -⟩ := ends.unique ends'
        exact hp
      · obtain ⟨a', d', ends', runs⟩ := falls.runsOn
        obtain ⟨-, rfl⟩ := ends.unique ends'
        obtain ⟨f', hf', ht', -⟩ := runs.flow
        simp [Option.some.inj (hf'.symm.trans hflow), ht] at ht'
    · exact none.elim
    · exact absurd (hf.faithful.maps hf.consistent hb) hn

end Finished

/-- In the graphs that explorations make, however blocks are cut then, no edge dangles: control comes to
blocks from decoded addresses only, it goes to where blocks start or nothing is mapped, a block starts at
each mapped entry, and control comes from a transfer to all blocks that it goes to. -/
theorem no_dangling_edges (he : x.exploreAll .empty entries = .ok g)
    (hc : ReflTransGen BlockGraph.CutInto g h) : x.NoDanglingEdges entries h :=
  (BlockGraph.cut_induction (fun hf hc => Finished.cuts hf hc) (Finished.exploreAll he) hc).noDanglingEdges

/-- Two plain instructions and a branch back to the first at the end of the section, cut at the second. -/
theorem last_branch_does_not_dangle :
    let x := Toy.explorer [0x00, 0x00, 0x11, 0xfc]
    ∃ g h, x.exploreAll .empty [.address 0x1000] = .ok g ∧ g.split 0x1000 0x1001 = .ok h ∧
      x.NoDanglingEdges [.address 0x1000] h ∧ h.Goes 0x1001 0x1000 ∧ h.isBlockStart 0x1000 = true ∧
      h.Comes 0x1002 0x1000 ∧ h.Goes 0x1001 0x1004 ∧ h.isBlockStart 0x1004 = false := by
  intro x
  have run : (do
      let g ← x.exploreAll .empty [.address 0x1000]
      let h ← Interruption.during g (g.split 0x1000 0x1001)
      let goes (s : Address) := (h.block? s).map fun b : Block => b.successors.toList
      let comes (t : Address) := (h.block? t).map fun b : Block => b.predecessors.toList
      return (goes 0x1001, comes 0x1000, h.isBlockStart 0x1000, h.isBlockStart 0x1004)) =
      .ok (some [0x1000, 0x1004], some [0x1002], true, false) := by cbv
  obtain ⟨g, hg, run⟩ := bind_eq_ok.1 run
  obtain ⟨h, hs, run⟩ := bind_eq_ok.1 run
  rw [during_eq_ok] at hs
  simp only [pure, Except.pure, Except.ok.injEq, Prod.mk.injEq] at run
  obtain ⟨goes, comes, first, last⟩ := run
  have cut : g.CutInto h := Or.inr ⟨_, _, hs⟩
  exact ⟨g, h, hg, hs, no_dangling_edges hg (.single cut), (BlockGraph.goes_iff_mem goes).2 (by simp), first,
    (BlockGraph.comes_iff_mem comes).2 (by simp), (BlockGraph.goes_iff_mem goes).2 (by simp), last⟩

end Explorer

end ReachableCode
