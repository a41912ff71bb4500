import ReachableCode.Proofs.Exploration.Answers
import ReachableCode.Proofs.Exploration.Starts

/-!
Entries that are explored again. An entry was answered for when it was explored, a block starts in the end
wherever one of them is mapped, and every decoded label was made a start. So an entry that is taken again is
dropped or starts a block already, it is in no block that runs, and it has no origin to add.
-/

namespace ReachableCode

/-- What starts a block, or is not decoded, need not be made a start. -/
theorem BlockGraph.makeStartIfDecoded_eq_self {g : BlockGraph} {a : Address}
    (h : g.isDecoded a = true → g.isBlockStart a = true) : g.makeStartIfDecoded a = .ok g := by
  rw [makeStartIfDecoded, if_neg]
  rintro ⟨hd, hs⟩
  simp [h hd] at hs

namespace Explorer

/-- Taking the target adds nothing to the graph: it has no address, nothing is decoded there, or a block
starts there. -/
inductive Known (x : Explorer) (g : BlockGraph) (c : Target) : Prop
  | unresolved : c.addressIn x.program = .ok none → Known x g c
  | unmapped {a : Address} : c.addressIn x.program = .ok (some a) → g.isVisited a = false →
      x.decodeAt a = .ok none → Known x g c
  | start {a : Address} : c.addressIn x.program = .ok (some a) → g.isBlockStart a = true → Known x g c

variable {x : Explorer} {s : Exploration} {g : BlockGraph} {c entry : Target} {entries again : List Target}
  {rest : List WorkItem} {labels : List Address}

/-- Nothing changes when a known entry is taken. -/
theorem Known.step (hk : x.Known s.graph c) (hc : s.current = none) :
    x.step s { target := c, origin := none } rest = .ok { s with work := rest } := by
  obtain ⟨work, current, g⟩ := s
  cases hc
  cases hk with
  | unresolved ha => exact bind_eq_ok.2 ⟨none, during_eq_ok.2 ha, rfl⟩
  | @unmapped a ha hv hd =>
    refine bind_eq_ok.2 ⟨some a, during_eq_ok.2 ha, ?_⟩
    dsimp only at hv ⊢
    rw [if_neg (by simp [hv])]
    exact bind_eq_ok.2 ⟨none, during_eq_ok.2 hd, rfl⟩
  | @start a ha hs =>
    refine bind_eq_ok.2 ⟨some a, during_eq_ok.2 ha, ?_⟩
    dsimp only at hs ⊢
    rw [if_pos (by simp [BlockGraph.isVisited, hs])]
    -- no block runs on to the entry, and control comes to it from nowhere
    have stays : revisit g none a none = .ok g :=
      bind_eq_ok.2 ⟨g, during_eq_ok.2 (BlockGraph.makeStartIfDecoded_eq_self fun _ => hs), rfl⟩
    exact bind_eq_ok.2 ⟨g, stays, rfl⟩

theorem Known.run (hk : x.Known g c) : x.run (.starting g c) = .ok g := by
  rw [run_of_step rfl (hk.step rfl)]
  exact run_of_nil rfl

/-- No block is cut where each decoded label starts one. -/
theorem makeStarts_eq_self (h : ∀ a ∈ labels, g.isDecoded a = true → g.isBlockStart a = true) :
    makeStarts g labels = .ok g := by
  induction labels with
  | nil => rfl
  | cons a rest ih =>
    have stays := BlockGraph.makeStartIfDecoded_eq_self (h a List.mem_cons_self)
    exact bind_eq_ok.2 ⟨g, during_eq_ok.2 stays, ih fun b hb => h b (List.mem_cons_of_mem _ hb)⟩

section

variable (he : x.exploreAll .empty entries = .ok g)

include he

/-- What was explored from is known. -/
theorem known_of_entry (hm : entry ∈ entries) : x.Known g entry := by
  obtain ⟨⟨hg, hf⟩, hst⟩ := starts_invariant.exploreAll he
  obtain ⟨a?, ha, hd⟩ := ((answered_invariant.exploreAll he).2.entry hm).answers
  cases a? with
  | none => exact .unresolved ha
  | some a =>
    obtain ⟨d?, hd⟩ := hd a rfl
    cases d? with
    | some d => exact .start ha ((hst.entry hm ha ⟨d, hd⟩).resolve_right not_waits_nil)
    | none =>
      -- in a graph there are only addresses where something is decoded
      refine .unmapped ha (Bool.eq_false_iff.2 fun hv => ?_) hd
      obtain ⟨d, hd'⟩ := hf.maps_of_isVisited hg hv
      cases hd.symm.trans hd'

/-- The labels were looked for, and no block is to be cut at them. -/
theorem makeStarts_again (hne : entries ≠ []) (hl : x.options.startAtLabels = true) :
    ∃ labels, x.program.labelAddresses = .ok labels ∧ makeStarts g labels = .ok g := by
  cases entries using List.reverseRecOn with
  | nil => exact absurd rfl hne
  | append_singleton entries entry =>
    obtain ⟨g', -, hlast⟩ := exploreAll_concat.1 he
    obtain ⟨-, labels, -, hlabels, -⟩ := makeStarts_of_explore hl hlast
    exact ⟨labels, hlabels, makeStarts_eq_self fun a ha =>
      isBlockStart_of_label he ⟨hl, labels, hlabels, ha⟩⟩

theorem explore_again (hm : entry ∈ entries) : x.explore g entry = .ok g := by
  refine bind_eq_ok.2 ⟨g, (known_of_entry he hm).run, ?_⟩
  split
  next hl =>
    obtain ⟨labels, hlabels, stays⟩ := makeStarts_again he (List.ne_nil_of_mem hm) hl
    exact bind_eq_ok.2 ⟨labels, during_eq_ok.2 hlabels, stays⟩
  · rfl

end

/-- Exploring again from an entry that was explored comes to a result and changes nothing of the graph, be the
entry an address or a label, whatever is there and however often and in whatever order it is repeated. -/
theorem repeated_entries_change_nothing (he : x.exploreAll .empty entries = .ok g) :
    (∀ entry ∈ entries, x.explore g entry = .ok g) ∧
    ∀ again, (∀ entry ∈ again, entry ∈ entries) → x.exploreAll g again = .ok g := by
  have once : ∀ entry ∈ entries, x.explore g entry = .ok g := fun _ => explore_again he
  refine ⟨once, fun again => ?_⟩
  induction again with
  | nil => exact fun _ => rfl
  | cons entry rest ih =>
    intro known
    obtain ⟨hentry, hrest⟩ := List.forall_mem_cons.1 known
    exact bind_eq_ok.2 ⟨g, once entry hentry, ih hrest⟩

/-- A loop with a label inside, explored from its start, the label, an invalid instruction, outside the program
and from a label that there is not, and from all of them again the other way round. -/
theorem loop_explored_again :
    let x : Explorer :=
      { Toy.explorer [] with
        program :=
          { architecture := .unknown
            entryPoint := none
            sections := [(Section.ofData ".text" 0x1000 #[0x00, 0x10, 0xfd]).withLabel "m" 1] } }
    let entries := [.address 0x1000, .label "m", .address 0x1002, .address 0x2000, .label "n"]
    ∃ g, x.exploreAll .empty entries = .ok g ∧ g.isBlockStart 0x1001 = true ∧
      x.exploreAll g entries.reverse = .ok g := by
  intro x entries
  have run : (do
      let g : BlockGraph ← x.exploreAll .empty entries
      return g.isBlockStart 0x1001) = .ok true := by
    cbv
  obtain ⟨g, he, run⟩ := bind_eq_ok.1 run
  rw [pure_eq_ok] at run
  exact ⟨g, he, run, (repeated_entries_change_nothing he).2 _ fun _ => List.mem_reverse.1⟩

end Explorer

end ReachableCode
