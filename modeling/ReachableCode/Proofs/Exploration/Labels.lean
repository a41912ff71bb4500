import ReachableCode.Proofs.Exploration.Starts
import ReachableCode.Proofs.Graph.Checked
import ReachableCode.Proofs.Memory.Labels

/-!
Blocks cut at labels. When the work of an exploration is done, each label is looked for and the block that
has an instruction there is cut at it. Labels may share an address, lie outside of their section or in the
code of another, and lie in a block that was just cut at an earlier one; every cut leaves a sound graph to the
next, so in the end blocks start where they did and at the decoded labels, and nowhere else.
-/

namespace ReachableCode.Explorer

variable {x : Explorer} {g h k : BlockGraph} {a : Address} {entry : Target}

/-- Every label has an address, and a block starts there if it is decoded; the graph passes its check. The cuts
at labels leave what is decoded as it was when the work was done, and make nothing a start but labels. -/
theorem labels_start_blocks (hg : x.Attainable g) (on : x.options.startAtLabels = true)
    (he : x.explore g entry = .ok h) :
    (∀ s ∈ x.program.sections, ∀ (label : String) (offset : Offset), s.exports[label]? = some offset →
      ∃ a, Address.plus s.base offset = .ok a ∧ (h.isDecoded a = true → h.isBlockStart a = true)) ∧
    h.violation? = .ok none ∧
    ∃ k, x.run (.starting g entry) = .ok k ∧ (∀ a, h.isDecoded a = k.isDecoded a) ∧
      ∀ a, h.isBlockStart a = true ↔
        k.isBlockStart a = true ∨ x.program.HasLabelAt a ∧ k.isDecoded a = true := by
  obtain ⟨k, labels, hr, hl, hm⟩ := makeStarts_of_explore on he
  obtain ⟨t, ht, rfl⟩ := steady_run (.starting hg.consistent entry) hr
  obtain ⟨hh, decoded⟩ := same_makeStarts ht.consistent hm
  have starts : ∀ a, h.isBlockStart a = true ↔
      t.graph.isBlockStart a = true ∨ x.program.HasLabelAt a ∧ t.graph.isDecoded a = true := fun a => by
    rw [isBlockStart_makeStarts_iff ht.consistent hm, Program.mem_labelAddresses hl]
  refine ⟨fun s hs label offset ho => ?_, hh.violation?_eq, t.graph, hr, decoded, starts⟩
  obtain ⟨a, ha, hp⟩ := Program.exists_address_of_label hl hs ho
  exact ⟨a, hp, fun hd =>
    (starts a).2 (Or.inr ⟨(Program.mem_labelAddresses hl).1 ha, decoded a ▸ hd⟩)⟩

/-- Two labels at one address in a block, and one of another section, behind its end, that lies further on in
the same block. -/
theorem labels_cut_a_block_twice :
    let x : Explorer :=
      { Toy.explorer [] with
        program :=
          { architecture := .unknown
            entryPoint := none
            sections :=
              [((Section.ofData ".text" 0x1000 #[0x00, 0x00, 0x00, 0xc3]).withLabel "a" 1).withLabel "b" 1,
                (Section.ofData ".data" 0x0ff0 #[0x00]).withLabel "c" 0x12] } }
    ∃ h k, x.explore .empty (.address 0x1000) = .ok h ∧ h.violation? = .ok none ∧
      x.run (.starting .empty (.address 0x1000)) = .ok k ∧
      (k.isBlockStart 0x1001 = false ∧ k.isBlockStart 0x1002 = false ∧ k.isBlockStart 0x1003 = false) ∧
      h.isBlockStart 0x1001 = true ∧ h.isBlockStart 0x1002 = true ∧ h.isBlockStart 0x1003 = false := by
  intro x
  have run : (do
      let h : BlockGraph ← x.explore .empty (.address 0x1000)
      let k : BlockGraph ← x.run (.starting .empty (.address 0x1000))
      return ([0x1001, 0x1002, 0x1003].map k.isBlockStart, [0x1001, 0x1002, 0x1003].map h.isBlockStart)) =
        .ok ([false, false, false], [true, true, false]) := by
    cbv
  obtain ⟨h, hh, run⟩ := bind_eq_ok.1 run
  obtain ⟨k, hk, run⟩ := bind_eq_ok.1 run
  simp only [pure_eq_ok, List.map_cons, List.map_nil, Prod.mk.injEq, List.cons.injEq, and_true] at run
  obtain ⟨-, checked, -⟩ := labels_start_blocks .empty rfl hh
  exact ⟨h, k, hh, checked, hk, run.1, run.2⟩

end ReachableCode.Explorer
