import Mathlib
import ReachableCode.Proofs.Exploration.Explorable
import ReachableCode.Proofs.Exploration.NoDangling

/-!
The order of the entries does not matter, if no search is needed. What is decoded, where transfers lead and
where blocks start is told without it, and so is the rest: a block goes on from its start by plain
instructions up to the first that is not plain or has the start of a block behind it.
-/

namespace ReachableCode

namespace BlockGraph

/-- The graphs have the same index of decoded addresses, blocks at the same places with the same
instructions, and edges to the same decoded addresses. -/
structure SameBlocks (g h : BlockGraph) : Prop where
  decoded : h.decoded = g.decoded
  starts : ∀ s, h.isBlockStart s = g.isBlockStart s
  instructions : ∀ s, (h.block? s).map (·.instructions) = (g.block? s).map (·.instructions)
  goes : ∀ {s t}, g.isDecoded t = true → (h.Goes s t ↔ g.Goes s t)

/-- The same is decoded in the graphs, transfers lead to the same places, and blocks start there. -/
structure Alike (g h : BlockGraph) : Prop where
  isDecoded : ∀ a, h.isDecoded a = g.isDecoded a
  leads : ∀ a t, h.Leads a t ↔ g.Leads a t
  starts : ∀ s, h.isBlockStart s = g.isBlockStart s

variable {g h : BlockGraph}

theorem Alike.symm (ha : g.Alike h) : h.Alike g where
  isDecoded a := (ha.isDecoded a).symm
  leads a t := (ha.leads a t).symm
  starts s := (ha.starts s).symm

theorem SameCode.sameBlocks (hc : g.SameCode h)
    (goes : ∀ {s t}, g.isDecoded t = true → (h.Goes s t ↔ g.Goes s t)) : g.SameBlocks h where
  decoded := Std.ExtTreeMap.ext_getElem? fun {a} => hc.owner?_eq a
  starts _ := hc.isBlockStart
  instructions s := by
    have code := congrArg (Option.map Prod.snd) (hc.code?_eq s)
    simpa only [Option.map_map, Function.comp_def] using code
  goes := goes

end BlockGraph

namespace Explorer

variable {x : Explorer} {entries more : List Target} {g h : BlockGraph} {a s t : Address} {b c : Block}
  {d : Decoded} {i : Nat}

/-! ### What is told without the order -/

theorem LeadsToTargets.leads (hl : x.LeadsToTargets g) (hl' : x.LeadsToTargets h) (hi : x.Immediate)
    (hg : g.Consistent) (hf : x.Faithful g) (decoded : g.isDecoded a = true → h.isDecoded a = true)
    (ha : g.Leads a t) : h.Leads a t := by
  obtain ⟨s, d, f, ⟨b, hb, hend⟩, hflow, ht, -⟩ := id ha
  have hd := (hf.decoded hb hend.has).1
  have ha' := ha.isDecoded hg
  exact (hl'.leads_iff hi (decoded ha') hd hflow ht).2 ((hl.leads_iff hi ha' hd hflow ht).1 ha)

theorem alike (hi : x.Immediate) (same : ∀ e, e ∈ more ↔ e ∈ entries)
    (he : x.exploreAll .empty entries = .ok g) (hm : x.exploreAll .empty more = .ok h) : g.Alike h := by
  obtain ⟨⟨hg, hf⟩, hc, hl⟩ := covers_invariant.exploreAll he
  obtain ⟨⟨hg', hf'⟩, hc', hl'⟩ := covers_invariant.exploreAll hm
  have decoded : ∀ {a}, h.isDecoded a = true ↔ g.isDecoded a = true := by
    intro a
    rw [hl.isDecoded_iff hi hg hf hc, hl'.isDecoded_iff hi hg' hf' hc']
    exact ⟨fun hr => hr.mono (fun e => (same e).1) fun _ _ => id,
      fun hr => hr.mono (fun e => (same e).2) fun _ _ => id⟩
  have leads : ∀ {a t}, h.Leads a t ↔ g.Leads a t := fun {a t} =>
    ⟨hl'.leads hl hi hg' hf' decoded.1, hl.leads hl' hi hg hf decoded.2⟩
  refine ⟨fun a => Bool.eq_iff_iff.2 decoded, fun _ _ => leads, fun s => Bool.eq_iff_iff.2 ?_⟩
  rw [isBlockStart_iff he, isBlockStart_iff hm]
  exact and_congr_right fun _ =>
    ⟨fun hs => hs.mono (fun e => (same e).1) leads.1 decoded.1,
      fun hs => hs.mono (fun e => (same e).2) leads.2 decoded.2⟩

/-! ### What follows from it -/

/-- Blocks that start at one place hold the same instructions. -/
theorem Finished.holds (hg : x.Finished entries g) (hh : x.Finished more h) (alike : g.Alike h)
    (hb : g.block? s = some b) (hc : h.block? s = some c) (hi : b.Holds i a d) : c.Holds i a d := by
  have hdec : ∀ {i a d}, b.Holds i a d → x.decodeAt a = .ok (some d) ∧ h.isDecoded a = true := by
    intro i a d hi
    have ho := hg.consistent.owner_of_has hb ⟨i, hi⟩
    exact ⟨(hg.faithful.decoded hb ⟨i, hi⟩).1, alike.isDecoded a ▸ BlockGraph.isDecoded_iff.2 ⟨s, ho⟩⟩
  -- from the start on, what lies behind an instruction in the one block does so in the other
  induction i generalizing a d with
  | zero =>
    obtain ⟨hd, ha⟩ := hdec hi
    obtain rfl : s = a := (hg.consistent.start_eq hb).symm.trans (Block.spans_nil.1 hi.2)
    obtain ⟨u, ho⟩ := BlockGraph.isDecoded_iff.1 ha
    obtain rfl := hh.consistent.eq_of_owner_of_block ho hc
    obtain ⟨c', d', hc', hd'⟩ := hh.consistent.exists_has ho
    cases hc.symm.trans hc'
    obtain ⟨e, rest, hins⟩ := List.exists_cons_of_ne_nil hd'.ne_nil
    have first : c.Holds 0 u e := ⟨by simp [hins], Block.spans_nil.2 (hh.consistent.start_eq hc)⟩
    cases hd.symm.trans (hh.faithful.decoded hc ⟨0, first⟩).1
    exact first
  | succ i ih =>
    obtain ⟨p, e, hp, he, hn⟩ := hi.exists_before
    obtain ⟨hd, ha⟩ := hdec hi
    rcases hh.consistent.ends_or_follows hc ⟨i, ih hp⟩ hn with ends | follows
    · -- else a block would start at `a` in both graphs
      obtain ⟨f, hflow, ht, hs⟩ := (hg.consistent.runsOn hb e he).flow
      have decodes := hh.faithful.decodes hh.consistent ha
      have goes := (hh.settled.exits ends nofun).goes_next hflow ht hs hn decodes
      have start := hh.linked.isBlockStart goes ⟨d, hd⟩
      rw [alike.starts, hg.consistent.isBlockStart_eq_false hb hi] at start
      cases start
    · obtain ⟨u, c', j, e', d', hc', hj, hj'⟩ := follows
      obtain ⟨rfl, rfl, -⟩ := hh.consistent.place_unique hc (ih hp) hc' hj
      cases hc.symm.trans hc'
      cases hd.symm.trans (hh.faithful.decoded hc ⟨_, hj'⟩).1
      exact hj'

theorem Finished.instructions (hg : x.Finished entries g) (hh : x.Finished more h) (alike : g.Alike h)
    (hb : g.block? s = some b) (hc : h.block? s = some c) : c.instructions = b.instructions := by
  obtain ⟨stop, hs⟩ := hg.consistent.exists_spans hb
  obtain ⟨stop', hs'⟩ := hh.consistent.exists_spans hc
  refine List.ext_getElem? fun i => Option.ext fun d => ⟨fun hd => ?_, fun hd => ?_⟩
  · obtain ⟨a, ha⟩ := Block.exists_holds hs' hd
    exact (hh.holds hg alike.symm hc hb ha).1
  · obtain ⟨a, ha⟩ := Block.exists_holds hs hd
    exact (hg.holds hh alike hb hc ha).1

theorem Finished.sameCode (hg : x.Finished entries g) (hh : x.Finished more h) (alike : g.Alike h) :
    g.SameCode h := by
  have code : ∀ s, (h.block? s).map (fun b => (b.start, b.instructions)) =
      (g.block? s).map fun b => (b.start, b.instructions) := by
    intro s
    have start := alike.starts s
    cases hb : g.block? s with
    | none => rw [BlockGraph.isBlockStart_eq_false.1 (start.trans (BlockGraph.isBlockStart_eq_false.2 hb))]
    | some b =>
      obtain ⟨c, hc⟩ := BlockGraph.isBlockStart_iff.1 (start.trans (BlockGraph.isBlockStart_iff.2 ⟨b, hb⟩))
      rw [hc, Option.map_some, Option.map_some, hg.instructions hh alike hb hc, hg.consistent.start_eq hb,
        hh.consistent.start_eq hc]
  exact hg.consistent.sameCode_of_blocks hh.consistent code

theorem Finished.goes (hg : x.Finished entries g) (hh : x.Finished more h) (alike : g.Alike h)
    (hd : g.isDecoded t = true) (hs : g.Goes s t) : h.Goes s t := by
  obtain ⟨a, d, ends⟩ := hg.exists_ends hs
  have ends' := (hg.sameCode hh alike).ends.2 ends
  cases hg.settled.exits ends nofun with
  | stop _ _ _ none => exact absurd hs (none t)
  | plain hflow ht hstop hn only _ =>
    obtain rfl := only t hs
    have decodes := hg.faithful.decodes hg.consistent hd
    exact (hh.settled.exits ends' nofun).goes_next hflow ht hstop hn decodes
  | transfer hflow ht _ _ _ _ =>
    rw [goes_iff_leads hh.consistent ends' hflow ht, alike.leads]
    exact (goes_iff_leads hg.consistent ends hflow ht).1 hs

/-- If every candidate resolves at once, explorations from the same entries, in any order and however often
each is given, come to a result together, and then to the same blocks. -/
theorem entry_order_is_immaterial (hi : x.Immediate) (same : ∀ e, e ∈ more ↔ e ∈ entries)
    (he : x.exploreAll .empty entries = .ok g) :
    ∃ h, x.exploreAll .empty more = .ok h ∧ g.SameBlocks h := by
  have explorable := (explorable_of_exploreAll hi he).mono fun e => (same e).1
  obtain ⟨h, hm⟩ := explorable.exists_exploreAll hi
  have alike := alike hi same he hm
  have hg := Finished.exploreAll he
  have hh := Finished.exploreAll hm
  refine ⟨h, hm, (hg.sameCode hh alike).sameBlocks fun {s t} hd => ⟨?_, hg.goes hh alike hd⟩⟩
  exact hh.goes hg alike.symm ((alike.isDecoded t).trans hd)

/-- Two streams of instructions that meet at a return, entered in the one order and in the other. -/
theorem meeting_streams_entered_in_both_orders :
    let x : Explorer :=
      { Toy.explorer [0x20, 0x00, 0x00, 0x00, 0x00, 0x00, 0xc3] with
        decoder := { Toy.decoder with jumpTargets := fun _ _ => .ok [.const 0x1000] } }
    ∃ g h, x.exploreAll .empty [.address 0x1000, .address 0x1002] = .ok g ∧
      x.exploreAll .empty [.address 0x1002, .address 0x1000, .address 0x1002] = .ok h ∧
      x.Immediate ∧ g.SameBlocks h ∧ g.isBlockStart 0x1006 = true := by
  intro x
  have immediate : x.Immediate := by
    intro a d f candidates e _ _ _ hc he
    cases hc
    cases List.mem_singleton.1 he
    exact ⟨.address 0x1000, by cbv⟩
  have run : (do
      let g : BlockGraph ← x.exploreAll .empty [.address 0x1000, .address 0x1002]
      return g.isBlockStart 0x1006) = .ok true := by
    cbv
  obtain ⟨g, hg, run⟩ := bind_eq_ok.1 run
  have same : ∀ e, e ∈ [Target.address 0x1002, .address 0x1000, .address 0x1002] ↔
      e ∈ [Target.address 0x1000, .address 0x1002] := by
    intro e
    simp only [List.mem_cons, List.not_mem_nil, or_false]
    tauto
  obtain ⟨h, hh, blocks⟩ := entry_order_is_immaterial immediate same hg
  exact ⟨g, h, hg, hh, immediate, blocks, Except.ok.inj run⟩

end Explorer

end ReachableCode
