import ReachableCode.Proofs.Exploration.Mapped
import ReachableCode.Proofs.Exploration.Overlap
import ReachableCode.Proofs.Listing.Data

/-!
What a source-like listing shows of the instructions of a graph. If no two sections have a byte in common, each
instruction is on one line. Its bytes are shown as data too just if they lie behind the end of the section in which
their block starts, and in one where the listing looks at other blocks only.
-/

namespace ReachableCode

/-- The bytes of an instruction are bytes of its block. -/
theorem Block.Has.extent_covers {b : Block} {a u : Address} {d : Decoded} (hd : b.Has a d) (hu : d.Covers a u) :
    b.extent.Covers u.toNat := by
  obtain ⟨before, after, code, before_a⟩ := Block.has_iff.1 hd
  obtain ⟨stop, hstop, low, high⟩ := hu
  simp only [Block.Spans, Address.plus_eq_ok] at before_a hstop
  rw [UInt64.le_iff_toNat_le] at low
  rw [UInt64.lt_iff_toNat_lt] at high
  simp only [Block.extent, Extent.Covers, code, Block.byteCount_append, Block.byteCount_cons]
  omega

namespace BlockGraph

variable {g : BlockGraph} {ss : List Section} {s t : Address} {a : Address} {i : Instruction} {b c : Block}
  {d e : Decoded} {blocks : List Block}

theorem Consistent.block_unique (hg : g.Consistent) (hb : g.block? s = some b) (hd : b.Has a d)
    (hc : g.block? t = some c) (he : c.Has a e) : b = c := by
  obtain ⟨i, hd⟩ := hd
  obtain ⟨j, he⟩ := he
  obtain ⟨rfl, -, -⟩ := hg.place_unique hb hd hc he
  exact Option.some.inj (hb.symm.trans hc)

theorem Consistent.mem_listed (hg : g.Consistent) (hb : g.block? s = some b) :
    (a, i) ∈ b.listed ↔ ∃ d, b.Has a d ∧ d.instruction = i := by
  have code := hg.listsBlocks.mem_code_iff b (mem_values.2 ⟨s, hb⟩)
  simp [Block.listed, code]

/-- If no two sections have a byte in common, no block is listed twice. -/
theorem Consistent.nodup_blocks (hg : g.Consistent)
    (apart : ss.Pairwise fun s t => ∀ u, s.extent.Covers u → ¬t.extent.Covers u) : (ss.flatMap g.blocksIn).Nodup := by
  refine List.nodup_flatMap.2 ⟨fun s _ => ?_, apart.imp fun apart b hs ht => ?_⟩
  · exact (hg.values_ascending.filter _).imp fun lt same => UInt64.ne_of_lt lt (congrArg Block.start same)
  · exact apart _ (mem_blocksIn.1 hs).2 (mem_blocksIn.1 ht).2

/-- Of blocks that are listed once each, no two instructions lie at one place. -/
theorem Consistent.nodup_listed (hg : g.Consistent) (hb : ∀ b ∈ blocks, ∃ s, g.block? s = some b)
    (nodup : blocks.Nodup) : ((blocks.flatMap Block.listed).map Prod.fst).Nodup := by
  rw [List.map_flatMap]
  refine List.nodup_flatMap.2 ⟨fun b mem => ?_, nodup.imp_of_mem fun {b c} mem mem' ne a ha ha' => ?_⟩
  · obtain ⟨s, hb⟩ := hb b mem
    have ascending := hg.listsBlocks.code_ascending b (mem_values.2 ⟨s, hb⟩)
    rw [Block.listed, List.map_map]
    exact List.pairwise_map.2 (ascending.imp fun lt => UInt64.ne_of_lt lt)
  · obtain ⟨s, hs⟩ := hb b mem
    obtain ⟨t, ht⟩ := hb c mem'
    obtain ⟨⟨a, i⟩, hi, rfl⟩ := List.mem_map.1 ha
    obtain ⟨⟨a', j⟩, hj, rfl⟩ := List.mem_map.1 ha'
    obtain ⟨d, hd, -⟩ := (hg.mem_listed hs).1 hi
    obtain ⟨e, he, -⟩ := (hg.mem_listed ht).1 hj
    exact ne (hg.block_unique hs hd ht he)

end BlockGraph

namespace Explorer

variable {x : Explorer} {g : BlockGraph}

/-- Some section lists a block. -/
theorem Attainable.mem_blocksIn (hg : x.Attainable g) {s : Address} {b : Block} (hb : g.block? s = some b) :
    b ∈ x.program.sections.flatMap g.blocksIn := by
  obtain ⟨place, found⟩ := hg.exists_sectionAt hb
  obtain ⟨before, after, split, -, covered, -⟩ := Program.split_of_firstMapping found
  rw [← hg.consistent.start_eq hb] at covered
  refine List.mem_flatMap.2 ⟨place, ?_, BlockGraph.mem_blocksIn.2 ⟨⟨s, hb⟩, covered⟩⟩
  rw [split]
  simp

/-- If no two sections have a byte in common, each instruction is on one line. A byte of it is shown as data too just
if it lies in a section where its block does not start but other blocks do, and none of these has it. -/
theorem listing_shows_code_once (hg : x.Attainable g) (hs : ∀ s ∈ x.program.sections, s.Fits)
    (apart : x.program.sections.Pairwise fun s t => ∀ u, s.extent.Covers u → ¬t.extent.Covers u) :
    ∃ lines : List Line, g.textListing x.program = .ok (String.join (lines.map fun line => line.text ++ "\n")) ∧
      ((lines.filterMap Line.code?).map Prod.fst).Nodup ∧
      (∀ a i, (a, i) ∈ lines.filterMap Line.code? ↔ ∃ d, g.Has a d ∧ d.instruction = i) ∧
      ∀ t b a d u, g.block? t = some b → b.Has a d → d.Covers a u →
        ((∃ v, (u.toNat, v) ∈ lines.flatMap Line.shows) ↔ ∃ s ∈ x.program.sections, s.extent.Covers u.toNat ∧
          ¬s.extent.Covers b.start.toNat ∧ g.blocksIn s ≠ [] ∧ Free (g.blocksIn s) u.toNat) := by
  obtain ⟨parts, sections, text, listed⟩ := hg.exists_parts hs
  have code : (parts.flatMap Prod.snd).filterMap Line.code? =
      (x.program.sections.flatMap g.blocksIn).flatMap Block.listed := by
    rw [← sections, List.filterMap_flatMap, List.flatMap_map, List.flatMap_assoc]
    exact List.flatMap_congr fun part h => (listed part h).placed
  have blocks : ∀ b ∈ x.program.sections.flatMap g.blocksIn, ∃ s, g.block? s = some b := fun b mem => by
    obtain ⟨s, -, mem⟩ := List.mem_flatMap.1 mem
    exact (BlockGraph.mem_blocksIn.1 mem).1
  refine ⟨_, text, ?_, fun a i => ?_, fun t b a d u hb hd covered => ⟨?_, ?_⟩⟩
  · rw [code]
    exact hg.consistent.nodup_listed blocks (hg.consistent.nodup_blocks apart)
  · rw [code, List.mem_flatMap]
    constructor
    · rintro ⟨b, mem, hi⟩
      obtain ⟨s, hb⟩ := blocks b mem
      obtain ⟨d, hd, same⟩ := (hg.consistent.mem_listed hb).1 hi
      exact ⟨d, ⟨s, b, hb, hd⟩, same⟩
    · rintro ⟨d, ⟨s, b, hb, hd⟩, same⟩
      exact ⟨b, hg.mem_blocksIn hb, (hg.consistent.mem_listed hb).2 ⟨d, hd, same⟩⟩
  · rintro ⟨v, h⟩
    obtain ⟨line, hl, h⟩ := List.mem_flatMap.1 h
    obtain ⟨⟨s, lines⟩, part, hl⟩ := List.mem_flatMap.1 hl
    obtain ⟨some, inside, free, -⟩ := (listed _ part).mem_shown.1 (List.mem_flatMap.2 ⟨line, hl, h⟩)
    refine ⟨s, sections ▸ List.mem_map_of_mem part, inside, fun here => ?_, some, free⟩
    exact free b (BlockGraph.mem_blocksIn.2 ⟨⟨t, hb⟩, here⟩) (hd.extent_covers covered)
  · rintro ⟨s, mem, inside, -, some, free⟩
    rw [← sections] at mem
    obtain ⟨⟨s, lines⟩, part, rfl⟩ := List.mem_map.1 mem
    have shown := (listed _ part).mem_shown.2 ⟨some, inside, free, rfl⟩
    obtain ⟨line, hl, h⟩ := List.mem_flatMap.1 shown
    exact ⟨_, List.mem_flatMap.2 ⟨line, List.mem_flatMap.2 ⟨_, part, hl⟩, h⟩⟩

/-- A section that is all code. -/
def codeSection : Section :=
  Section.ofData ".a" 0x1000 #[0x00, 0x00]

/-- The section behind it. Control runs into it, and a return starts a block of its own behind one byte of data. -/
def nextSection : Section :=
  Section.ofData ".b" 0x1002 #[0x00, 0xc3, 0xaa, 0xc3]

def adjacentSections : Explorer where
  program := { architecture := .unknown, entryPoint := none, sections := [codeSection, nextSection] }
  decoder := Toy.decoder

/-- The first block goes on behind the end of its section, and the second one is the return. -/
theorem adjacentSections_run : ∃ g h b c d lines, adjacentSections.explore .empty (.address 0x1000) = .ok g ∧
    adjacentSections.explore g (.address 0x1005) = .ok h ∧ h.blocks.values = [b, c] ∧
    b.extent = { start := 0x1000, size := 4 } ∧ c.extent = { start := 0x1005, size := 1 } ∧
    b.Has 0x1002 d ∧ d.Covers 0x1002 0x1002 ∧ Line.ofProgram adjacentSections.program h = .ok lines ∧
    lines.flatMap Line.shows = [(0x1002, some 0x00), (0x1003, some 0xc3), (0x1004, some 0xaa)] := by
  have run : (do
      let g : BlockGraph ← adjacentSections.explore .empty (.address 0x1000)
      let h : BlockGraph ← adjacentSections.explore g (.address 0x1005)
      let lines ← Interruption.during h (Line.ofProgram adjacentSections.program h)
      return (h.blocks.values.map fun b : Block => (b.start, b.instructions.map Decoded.size),
        lines.flatMap Line.shows)) =
        .ok ([(0x1000, [1, 1, 1, 1]), (0x1005, [1])],
          [(0x1002, some 0x00), (0x1003, some 0xc3), (0x1004, some 0xaa)]) := by
    cbv
  obtain ⟨g, hg, run⟩ := bind_eq_ok.1 run
  obtain ⟨h, hh, run⟩ := bind_eq_ok.1 run
  obtain ⟨lines, hl, run⟩ := bind_eq_ok.1 run
  rw [during_eq_ok] at hl
  simp only [pure_eq_ok, Prod.mk.injEq, List.map_eq_cons_iff, List.map_eq_nil_iff] at run
  obtain ⟨⟨b, _, values, ⟨start, d₀, _, code, one₀, d₁, _, rfl, one₁, d₂, _, rfl, one₂, d₃, _, rfl, one₃, rfl⟩, c, _,
    rfl, ⟨start', e, _, code', size, rfl⟩, rfl⟩, shown⟩ := run
  have place : Block.Spans b.start [d₀, d₁] 0x1002 := by
    simp [Block.Spans, start, one₀, one₁]
  have behind : Address.plus 0x1002 d₂.size = .ok 0x1003 := by
    rw [one₂]
    rfl
  refine ⟨g, h, b, c, d₂, lines, hg, hh, values, ?_, ?_, Block.has_iff.2 ⟨[d₀, d₁], [d₃], code, place⟩,
    ⟨0x1003, behind, by decide, by decide⟩, hl, shown⟩
  · simp [Block.extent, start, code, one₀, one₁, one₂, one₃]
  · simp [Block.extent, start', code', size]

theorem adjacentSections_fits : ∀ s ∈ adjacentSections.program.sections, s.Fits :=
  List.forall_mem_cons.2 ⟨⟨by decide, by decide⟩, List.forall_mem_singleton.2 ⟨by decide, by decide⟩⟩

theorem adjacentSections_apart :
    adjacentSections.program.sections.Pairwise fun s t => ∀ u, s.extent.Covers u → ¬t.extent.Covers u :=
  List.pairwise_pair.2 fun u low high => by
    have before : u < 0x1002 := low.2
    have behind : 0x1002 ≤ u := high.1
    omega

/-- What runs over the end of a section is shown as code, and as data in the next section. -/
theorem adjacent_code_shown_as_data : (∀ s ∈ adjacentSections.program.sections, s.Fits) ∧
    (adjacentSections.program.sections.Pairwise fun s t => ∀ u, s.extent.Covers u → ¬t.extent.Covers u) ∧
    ∃ (g h : BlockGraph) (lines : List Line) (d : Decoded),
      adjacentSections.explore .empty (.address 0x1000) = .ok g ∧
      adjacentSections.explore g (.address 0x1005) = .ok h ∧
      h.textListing adjacentSections.program = .ok (String.join (lines.map fun line => line.text ++ "\n")) ∧
      h.Has 0x1002 d ∧ d.Covers 0x1002 0x1002 ∧ (0x1002, some 0x00) ∈ lines.flatMap Line.shows := by
  obtain ⟨g, h, b, c, d, lines, hg, hh, values, -, -, hd, covered, hl, shown⟩ := adjacentSections_run
  obtain ⟨s, hb⟩ := BlockGraph.mem_values.1 (values ▸ List.mem_cons_self)
  refine ⟨adjacentSections_fits, adjacentSections_apart, g, h, lines, d, hg, hh, bind_eq_ok.2 ⟨lines, hl, rfl⟩,
    ⟨s, b, hb, hd⟩, covered, ?_⟩
  rw [shown]
  exact List.mem_cons_self

theorem adjacent_byte_shown_twice : ∃ (g h : BlockGraph) (lines : List Line),
    adjacentSections.explore .empty (.address 0x1000) = .ok g ∧
    adjacentSections.explore g (.address 0x1005) = .ok h ∧
    h.textListing adjacentSections.program = .ok (String.join (lines.map fun line => line.text ++ "\n")) ∧
    ((lines.filterMap Line.code?).map Prod.fst).Nodup ∧ (∃ i, (0x1002, i) ∈ lines.filterMap Line.code?) ∧
    ∃ v, (0x1002, v) ∈ lines.flatMap Line.shows := by
  obtain ⟨g, h, b, c, d, -, hg, hh, values, first, second, hd, covered, -, -⟩ := adjacentSections_run
  obtain ⟨s, hb⟩ := BlockGraph.mem_values.1 (values ▸ List.mem_cons_self)
  have attainable : adjacentSections.Attainable h := attainable_of_explore (attainable_of_explore .empty hg) hh
  obtain ⟨lines, text, once, code, data⟩ :=
    listing_shows_code_once attainable adjacentSections_fits adjacentSections_apart
  refine ⟨g, h, lines, hg, hh, text, once, ⟨_, (code _ _).2 ⟨d, ⟨s, b, hb, hd⟩, rfl⟩⟩, ?_⟩
  have start : b.start.toNat = 0x1000 := congrArg Extent.start first
  have start' : c.start.toNat = 0x1005 := congrArg Extent.start second
  have outside : ¬nextSection.extent.Covers b.start.toNat := by
    rw [start]
    decide
  have inside : nextSection.extent.Covers c.start.toNat := by
    rw [start']
    decide
  have listed : h.blocksIn nextSection = [c] := by
    rw [BlockGraph.blocksIn, values, List.filter_cons_of_neg (by simpa using outside),
      List.filter_cons_of_pos (by simpa using inside), List.filter_nil]
  have free : Free (h.blocksIn nextSection) 0x1002 := by
    rw [listed]
    refine List.forall_mem_singleton.2 ?_
    rw [second]
    decide
  exact (data s b _ d 0x1002 hb hd covered).2
    ⟨nextSection, List.mem_cons_of_mem _ List.mem_cons_self, by decide, outside, by simp [listed], free⟩

end Explorer

end ReachableCode
