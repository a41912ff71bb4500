import ReachableCode.Proofs.Exploration.Sound
import ReachableCode.Proofs.Graph.Checked

/-!
The graphs that explorations make represent code: each decoded address is the place of one instruction
of one block, which is what the decoder finds there. This holds of the graph before each step and when
the targets of a transfer are looked for, and cutting blocks afterwards keeps it.
-/

namespace ReachableCode.Explorer

/-- The graphs that explorations make, and that cutting blocks makes of them. -/
inductive Refined (x : Explorer) : BlockGraph → Prop
  | produced {g : BlockGraph} : x.Produced g → Refined x g
  | makeStart {g h : BlockGraph} {a : Address} : Refined x g → g.makeStart a = .ok h → Refined x h
  | split {g h : BlockGraph} {old new : Address} : Refined x g → g.split old new = .ok h → Refined x h

/-- The graph represents code that the decoder finds. -/
structure Represents (x : Explorer) (g : BlockGraph) : Prop where
  /-- The check of the graph finds nothing wrong. -/
  checked : g.violation? = .ok none
  /-- A decoded address is the place of an instruction in the block that owns it, and of no other
  instruction in any block. -/
  placed : ∀ {a}, g.isDecoded a = true → ∃ s b i d, g.owner? a = some s ∧ g.block? s = some b ∧
    g.blockOf? a = some b ∧ b.indexOf a = .ok (some i) ∧ b.Holds i a d ∧
    ∀ {s' b' i' d'}, g.block? s' = some b' → b'.Holds i' a d' → s' = s ∧ i' = i
  /-- An instruction is what the decoder finds at its place. -/
  decoded : ∀ {s b i a d}, g.block? s = some b → b.Holds i a d →
    x.decodeAt a = .ok (some d) ∧ d.isValid = true
  /-- A block has no instructions only at a mapped address where the decoder finds none. -/
  invalid : ∀ {s b}, g.block? s = some b → b.instructions = [] →
    ∃ d, x.decodeAt s = .ok (some d) ∧ d.isValid = false

variable {x : Explorer} {g : BlockGraph}

theorem Faithful.represents (hf : x.Faithful g) (hg : g.Consistent) : x.Represents g where
  checked := hg.violation?_eq
  placed := by
    intro a ha
    obtain ⟨s, ho⟩ := BlockGraph.isDecoded_iff.1 ha
    obtain ⟨b, d, hb, i, hi⟩ := hg.exists_has ho
    refine ⟨s, b, i, d, ho, hb, BlockGraph.blockOf?_eq_some.2 ⟨s, ho, hb⟩, hg.indexOf_eq hb hi, hi, ?_⟩
    intro s' b' i' d' hb' hi'
    obtain rfl : s' = s := Option.some.inj ((hg.owner_of_has hb' ⟨i', hi'⟩).symm.trans ho)
    obtain rfl : b' = b := Option.some.inj (hb'.symm.trans hb)
    exact ⟨rfl, hi'.index_unique (hg.runsOn hb) hi⟩
  decoded hb hi := hf.decoded hb ⟨_, hi⟩
  invalid hb hi := hf.invalid hb hi

theorem Refined.consistent (hr : x.Refined g) : g.Consistent ∧ x.Faithful g := by
  induction hr with
  | produced hp =>
    obtain ⟨entries, he⟩ := hp
    exact sound_invariant.exploreAll he
  | makeStart _ hs ih => exact ⟨ih.1.makeStart hs, ih.2.makeStart ih.1 hs⟩
  | split _ hs ih => exact ⟨ih.1.split hs, ih.2.split ih.1 hs⟩

/-- Graphs represent code once explorations are over, however blocks are cut then, before each step of
an exploration, and when the targets of a transfer are looked for. -/
theorem graphs_represent_code (x : Explorer) :
    (∀ {g}, x.Refined g → x.Represents g) ∧
    (∀ {entries s}, x.Running entries s → x.Represents s.graph) ∧
    ∀ {a g}, x.Consults a g → x.Represents g := by
  refine ⟨fun hr => ?_, fun hr => ?_, fun hc => ?_⟩
  · obtain ⟨hg, hf⟩ := hr.consistent
    exact hf.represents hg
  · have hs : x.Sound _ := sound_invariant.running hr
    exact hs.faithful.represents hs.consistent
  · obtain ⟨hr, hw, ha, hv, hd, hval, hn, hp⟩ := hc
    have hs : x.Sound _ := sound_invariant.running hr
    obtain ⟨hg, hf⟩ := hs.append hw ha hv hd hval hn hp
    exact hf.represents hg

/-- Two plain instructions and a jump back to the first, with a block opened where there is no
instruction, are cut at the second. -/
theorem loop_represents_code :
    let x := Toy.explorer [0x00, 0x00, 0x10, 0xfc, 0xff]
    (∃ g h, x.exploreAll .empty [.address 0x1000, .address 0x1004] = .ok g ∧
      g.split 0x1000 0x1001 = .ok h ∧ h.isDecoded 0x1002 = true ∧ x.Represents h) ∧
    (∃ s, x.Running [.address 0x1000] s ∧ x.Represents s.graph) ∧
    ∃ g, x.Consults 0x1000 g ∧ g.isDecoded 0x1000 = true ∧ x.Represents g := by
  intro x
  have hr : x.Running ([] ++ [.address 0x1000]) (.starting .empty (.address 0x1000)) := .start _ rfl
  refine ⟨?_, ?_, ?_⟩
  · have run : (do
        let g ← x.exploreAll .empty [.address 0x1000, .address 0x1004]
        let h ← Interruption.during g (g.split 0x1000 0x1001)
        return h.isDecoded 0x1002) = .ok true := by cbv
    obtain ⟨g, hg, run⟩ := bind_eq_ok.1 run
    obtain ⟨h, hs, run⟩ := bind_eq_ok.1 run
    rw [during_eq_ok] at hs
    exact ⟨g, h, hg, hs, Except.ok.inj run, (graphs_represent_code x).1 (.split (.produced ⟨_, hg⟩) hs)⟩
  · exact ⟨_, hr, (graphs_represent_code x).2.1 hr⟩
  · have run : (do
        let d ← (← x.decodeAt 0x1000).elim (.error (Fault.undecodedSplit 0x1000)) .ok
        let next ← Address.plus 0x1000 d.size
        let g ← (BlockGraph.empty.openAt 0x1000 none).append 0x1000 0x1000 d
        return (d.isValid, g.isDecoded 0x1000)) = .ok (true, true) := by cbv
    obtain ⟨d?, hd, run⟩ := bind_eq_ok.1 run
    obtain ⟨d, he, run⟩ := bind_eq_ok.1 run
    obtain ⟨next, hn, run⟩ := bind_eq_ok.1 run
    obtain ⟨g, hp, run⟩ := bind_eq_ok.1 run
    obtain ⟨hval, hdec⟩ := Prod.mk.inj (Except.ok.inj run)
    rw [elim_eq_ok.1 he] at hd
    have hc : x.Consults 0x1000 g := .intro hr rfl (by cbv) (by cbv) hd hval hn hp
    exact ⟨g, hc, hdec, (graphs_represent_code x).2.2 hc⟩

end ReachableCode.Explorer
