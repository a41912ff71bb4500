import Mathlib
import ReachableCode.Listing.Line
import ReachableCode.Proofs.Exploration.Steady
import ReachableCode.Proofs.Graph.Sites
import ReachableCode.Proofs.Memory.Mapping

/-!
What a source-like listing shows as data. In a section in which a block starts, these are in order the mapped bytes
that are in no block that starts there, each with its value if the image has one.
-/

namespace ReachableCode

/-- The section ends within the address range, and its data in the section. -/
structure Section.Fits (s : Section) : Prop where
  ends : ¬s.extent.Wraps
  data : s.data.size ≤ s.mappedSize.toNat

/-- The bytes of an address range, each with its value if the image has one. -/
def Section.dump (s : Section) (addresses : List Nat) : List (Nat × Option UInt8) :=
  addresses.map fun u => (u, s.data[u - s.base.toNat]?)

namespace Section

variable {s : Section} {low mid high : Nat}

theorem Fits.exists_dataEnd (hs : s.Fits) : ∃ stop, Address.plus s.base (UInt64.ofNat s.data.size) = .ok stop ∧
    stop.toNat = s.base.toNat + s.data.size := by
  have size : (UInt64.ofNat s.data.size).toNat = s.data.size :=
    UInt64.toNat_ofNat_of_lt' (Nat.lt_of_le_of_lt hs.data s.mappedSize.toNat_lt)
  have fits : s.base.toNat + s.mappedSize.toNat < Address.count := Nat.not_le.1 hs.ends
  have data := hs.data
  obtain ⟨stop, hd⟩ := Address.exists_plus (a := s.base) (n := UInt64.ofNat s.data.size) (by omega)
  exact ⟨stop, hd, size ▸ (Address.plus_eq_ok.1 hd).symm⟩

theorem mem_dump {addresses : List Nat} {u : Nat} {v : Option UInt8} :
    (u, v) ∈ s.dump addresses ↔ u ∈ addresses ∧ v = s.data[u - s.base.toNat]? := by
  simp [dump, eq_comm]

theorem dump_append (hl : low ≤ mid) (hh : mid ≤ high) :
    s.dump (List.Ico low mid) ++ s.dump (List.Ico mid high) = s.dump (List.Ico low high) := by
  rw [dump, dump, ← List.map_append, List.Ico.append_consecutive hl hh]
  rfl

/-- As far as the data goes, each byte has a value. -/
theorem dump_data (above : s.base.toNat ≤ low) (inside : low < high → high ≤ s.base.toNat + s.data.size) :
    s.dump (List.Ico low high) =
      (s.data.extract (low - s.base.toNat) (high - s.base.toNat)).toList.mapIdx fun i byte => (low + i, some byte) := by
  refine List.ext_getElem (by simp [dump]; omega) fun i hi hi' => ?_
  have place : low + i - s.base.toNat = low - s.base.toNat + i := by omega
  simp only [dump, List.length_map, List.Ico.length] at hi
  have value : s.data[low + i - s.base.toNat]? = some (s.data[low - s.base.toNat + i]) := by
    rw [place]
    exact Array.getElem?_eq_getElem (by omega)
  simp [dump, List.Ico, value]

/-- Behind the data, no byte has a value. -/
theorem dump_rest (behind : s.base.toNat + s.data.size ≤ low) :
    s.dump (List.Ico low high) = (List.range (high - low)).map fun i => (low + i, none) := by
  rw [List.Ico, List.range'_eq_map_range, dump, List.map_map]
  refine List.map_congr_left fun i _ => ?_
  simp
  omega

end Section

/-- The addresses of the bytes of a block. -/
def Block.extent (b : Block) : Extent where
  start := b.start.toNat
  size := Block.byteCount b.instructions

/-- The instructions of a block as they are listed, with their addresses. -/
def Block.listed (b : Block) : List (Address × Instruction) :=
  b.code.map fun (a, d) => (a, d.instruction)

/-- No block has the byte. -/
def Free (blocks : List Block) (u : Nat) : Prop :=
  ∀ b ∈ blocks, ¬b.extent.Covers u

instance (blocks : List Block) (u : Nat) : Decidable (Free blocks u) :=
  inferInstanceAs (Decidable (∀ b ∈ blocks, ¬b.extent.Covers u))

theorem free_cons {b : Block} {blocks : List Block} {u : Nat} :
    Free (b :: blocks) u ↔ ¬b.extent.Covers u ∧ Free blocks u :=
  List.forall_mem_cons

namespace Line

/-- The addresses of the bytes that a line shows as data, each with its value if it has one. -/
def shows : Line → List (Nat × Option UInt8)
  | data a bytes => bytes.mapIdx fun i byte => (a.toNat + i, some byte)
  | uninitialised a count => (List.range count.toNat).map fun i => (a.toNat + i, none)
  | _ => []

/-- The instruction that a line shows, and where it lies. -/
def code? : Line → Option (Address × Instruction)
  | code a i => some (a, i)
  | _ => none

/-- A line of data has a byte, and sixteen bytes at most. -/
def Sized : Line → Prop
  | data _ bytes => bytes ≠ [] ∧ bytes.length ≤ 16
  | uninitialised _ count => count ≠ 0
  | _ => True

/-- What lines show in order, as data and as instructions. -/
structure Show (lines : List Line) (bytes : List (Nat × Option UInt8)) (placed : List (Address × Instruction)) :
    Prop where
  bytes : lines.flatMap shows = bytes
  placed : lines.filterMap code? = placed
  sized : ∀ line ∈ lines, line.Sized

variable {lines lines' : List Line} {bytes bytes' : List (Nat × Option UInt8)}
  {placed placed' : List (Address × Instruction)} {s : Section} {a start stop : Address} {b : Block}

theorem show_nil : Show [] [] [] :=
  ⟨rfl, rfl, by simp⟩

theorem show_blank : Show [blank] [] [] :=
  ⟨rfl, rfl, by simp [Sized]⟩

theorem Show.append (h : Show lines bytes placed) (h' : Show lines' bytes' placed') :
    Show (lines ++ lines') (bytes ++ bytes') (placed ++ placed') where
  bytes := by rw [List.flatMap_append, h.bytes, h'.bytes]
  placed := by rw [List.filterMap_append, h.placed, h'.placed]
  sized := List.forall_mem_append.2 ⟨h.sized, h'.sized⟩

theorem Show.cons (line : Line) (hl : line.Sized) (h : Show lines bytes placed) :
    Show (line :: lines) (line.shows ++ bytes) (line.code?.toList ++ placed) where
  bytes := by rw [List.flatMap_cons, h.bytes]
  placed := by cases hc : line.code? <;> simp [hc, h.placed]
  sized := List.forall_mem_cons.2 ⟨hl, h.sized⟩

/-! ### Gaps -/

theorem show_data {bs : List UInt8} (hne : bs ≠ []) (few : bs.length ≤ dataWidth) :
    Show [data a bs] (bs.mapIdx fun i byte => (a.toNat + i, some byte)) [] := by
  simpa [shows, code?] using show_nil.cons (data a bs) ⟨hne, few⟩

/-- Lines of sixteen bytes each show the bytes in order. -/
theorem show_ofBytes {bs : List UInt8} (h : a.toNat + bs.length < Address.count) :
    Show (ofBytes a bs) (bs.mapIdx fun i byte => (a.toNat + i, some byte)) [] := by
  induction a, bs using ofBytes.induct with
  | case1 a bs empty =>
    obtain rfl := List.isEmpty_iff.1 empty
    rw [ofBytes]
    exact show_nil
  | case2 a bs some ih =>
    rw [List.isEmpty_iff] at some
    rw [ofBytes, if_neg (by simpa using some)]
    by_cases few : bs.length ≤ dataWidth
    · rw [List.take_of_length_le few, List.drop_eq_nil_of_le few, ofBytes]
      exact show_data some few
    · have length : (bs.take dataWidth).length = dataWidth := by
        simp only [List.length_take]
        omega
      have next : (a + UInt64.ofNat dataWidth).toNat = a.toNat + dataWidth := by
        have room : a.toNat + dataWidth < Address.count := by omega
        rw [UInt64.toNat_add]
        exact Nat.mod_eq_of_lt room
      have first : Show [data a (bs.take dataWidth)] _ [] :=
        show_data (List.ne_nil_of_length_pos (by rw [length]; decide)) length.le
      have rest := ih (by simp only [next, List.length_drop]; omega)
      have split : (bs.mapIdx fun i byte => (a.toNat + i, Option.some byte)) =
          ((bs.take dataWidth).mapIdx fun i byte => (a.toNat + i, Option.some byte)) ++
          (bs.drop dataWidth).mapIdx fun i byte =>
            ((a + UInt64.ofNat dataWidth).toNat + i, Option.some byte) := by
        conv_lhs => rw [← List.take_append_drop dataWidth bs, List.mapIdx_append]
        simp only [length, next, Nat.add_assoc, Nat.add_comm dataWidth]
      rw [split]
      exact first.append rest

theorem show_uninitialised {count : UInt64} (hne : count ≠ 0) :
    Show [uninitialised a count] ((List.range count.toNat).map fun i => (a.toNat + i, none)) [] := by
  simpa [shows, code?] using show_nil.cons (uninitialised a count) hne

/-- The bytes from one place of a section to another: first those of the data, then those that have no value. -/
theorem exists_ofGap (hs : s.Fits) (above : s.base ≤ start) (order : start ≤ stop) :
    ∃ lines, ofGap s start stop = .ok lines ∧ Show lines (s.dump (List.Ico start.toNat stop.toNat)) [] := by
  obtain ⟨dataEnd, hd, hm⟩ := hs.exists_dataEnd
  refine ⟨_, bind_eq_ok.2 ⟨dataEnd, hd, rfl⟩, ?_⟩
  have place : (max start (min stop dataEnd)).toNat = max start.toNat (min stop.toNat dataEnd.toNat) := by
    rw [Address.toNat_max, Address.toNat_min]
  generalize max start (min stop dataEnd) = middle at *
  have behind : s.base ≤ middle := by
    rw [UInt64.le_iff_toNat_le] at *
    omega
  have first : Show (ofBytes start (s.data.extract (start - s.base).toNat (middle - s.base).toNat).toList)
      (s.dump (List.Ico start.toNat middle.toNat)) [] := by
    have low := UInt64.le_iff_toNat_le.1 above
    rw [UInt64.toNat_sub_of_le _ _ above, UInt64.toNat_sub_of_le _ _ behind, Section.dump_data low (by omega)]
    refine show_ofBytes ?_
    have fits : s.base.toNat + s.mappedSize.toNat < Address.count := Nat.not_le.1 hs.ends
    have data := hs.data
    have small : start.toNat < Address.count := start.toNat_lt
    simp only [Array.length_toList, Array.size_extract]
    omega
  have rest : Show (if middle < stop then [uninitialised middle (stop - middle)] else [])
      (s.dump (List.Ico middle.toNat stop.toNat)) [] := by
    split
    next some =>
      have order := UInt64.lt_iff_toNat_lt.1 some
      have count := UInt64.toNat_sub_of_le _ _ (UInt64.le_of_lt some)
      rw [Section.dump_rest (by omega), ← count]
      refine show_uninitialised fun none => ?_
      rw [none] at count
      have : (0 : UInt64).toNat = 0 := rfl
      omega
    next none =>
      rw [UInt64.not_lt, UInt64.le_iff_toNat_le] at none
      rw [List.Ico.eq_nil_of_le none]
      exact show_nil
  rw [UInt64.le_iff_toNat_le] at order
  have low : start.toNat ≤ middle.toNat := by omega
  have high : middle.toNat ≤ stop.toNat := by omega
  rw [← Section.dump_append low high]
  exact first.append rest

/-- What is listed before a block or before the end of a section. -/
def gapBefore (s : Section) (a stop : Address) : Except Fault (List Line) :=
  if a < stop then (· ++ [blank]) <$> ofGap s a stop else .ok []

theorem exists_gapBefore (hs : s.Fits) (above : s.base ≤ a) (stop : Address) :
    ∃ lines, gapBefore s a stop = .ok lines ∧ Show lines (s.dump (List.Ico a.toNat stop.toNat)) [] := by
  rw [gapBefore]
  split
  next order =>
    obtain ⟨lines, hl, shown⟩ := exists_ofGap hs above (UInt64.le_of_lt order)
    refine ⟨lines ++ [blank], by rw [hl]; rfl, ?_⟩
    simpa using shown.append show_blank
  next order =>
    rw [UInt64.not_lt, UInt64.le_iff_toNat_le] at order
    rw [List.Ico.eq_nil_of_le order]
    exact ⟨[], rfl, show_nil⟩

/-! ### Blocks -/

theorem show_labels (names : List String) : Show (names.map label) [] [] := by
  constructor <;> simp [shows, code?, Sized]

theorem show_code (is : List (Address × Decoded)) : Show (is.map fun (a, d) => code a d.instruction) []
    (is.map fun (a, d) => (a, d.instruction)) := by
  induction is with
  | nil => exact show_nil
  | cons x rest ih => exact ih.cons (code x.1 x.2.instruction) trivial

theorem exists_ofBlock (hb : Block.Spans b.start b.instructions stop) :
    ∃ lines, ofBlock s b = .ok lines ∧ Show lines [] b.listed := by
  refine ⟨_, bind_eq_ok.2 ⟨b.code, Block.placed_eq hb, rfl⟩, ?_⟩
  have ending : Show [successors b.successors.toList, blank] [] [] :=
    show_blank.cons (successors _) trivial
  simpa [Block.listed] using ((show_labels (s.labelsAt (b.start - s.base))).append (show_code b.code)).append ending

/-- Up to the first of some blocks everything is free. From the end of what is listed with it on, what is free of
the others is so of all. -/
theorem filter_free {blocks : List Block} {high : Nat} (low : Nat) (hb : b.start.toNat < high)
    (later : ∀ c ∈ blocks, b.start < c.start) :
    (List.Ico low high).filter (Free (b :: blocks)) = List.Ico low b.start.toNat ++
      (List.Ico (max low (b.start.toNat + Block.byteCount b.instructions)) high).filter (Free blocks) := by
  have earlier : ∀ u, u < b.start.toNat → Free blocks u := fun u hu c hc covered => by
    have := UInt64.lt_iff_toNat_lt.1 (later c hc)
    have : c.start.toNat ≤ u := covered.1
    omega
  -- Both sides are ascending, so it is enough that they have the same members.
  refine List.Pairwise.eq_of_mem_iff (r := (· < ·)) ?_ ?_ ?_
  · exact (List.Ico.pairwise_lt low high).filter _
  · refine List.pairwise_append.2 ⟨List.Ico.pairwise_lt _ _, (List.Ico.pairwise_lt _ _).filter _, ?_⟩
    simp
    omega
  · intro u
    have free := earlier u
    simp only [List.mem_filter, List.mem_append, List.Ico.mem, decide_eq_true_eq, free_cons, Extent.Covers,
      Block.extent]
    by_cases hf : Free blocks u
    · simp only [hf, and_true]
      omega
    · have behind : b.start.toNat ≤ u := Nat.not_lt.1 (mt free hf)
      simp only [hf, and_false, or_false, false_iff, not_and, Nat.not_lt]
      exact fun _ => behind

theorem ofBlocks_cons {blocks : List Block} : ofBlocks s a (b :: blocks) = do
    let gap ← gapBefore s a b.start
    let lines ← ofBlock s b
    let (more, stop) ← ofBlocks s (max a (← b.endAddress)) blocks
    return (gap ++ lines ++ more, stop) := by
  rw [ofBlocks, gapBefore]
  split <;> rfl

/-- What is listed of a section up to the end of some blocks that start there, and then as data up to the end of the
section, is what is free of the blocks. -/
theorem exists_ofBlocks (hs : s.Fits) {blocks : List Block}
    (hb : ∀ b ∈ blocks, s.extent.Covers b.start.toNat ∧ ∃ stop, Block.Spans b.start b.instructions stop)
    (sorted : blocks.Pairwise fun b c => b.start < c.start) (above : s.base ≤ a) :
    ∃ lines stop bytes, ofBlocks s a blocks = .ok (lines, stop) ∧ s.base ≤ stop ∧
      Show lines bytes (blocks.flatMap Block.listed) ∧
      bytes ++ s.dump (List.Ico stop.toNat (s.base.toNat + s.mappedSize.toNat)) =
        s.dump ((List.Ico a.toNat (s.base.toNat + s.mappedSize.toNat)).filter (Free blocks)) := by
  -- The place from which the rest is listed changes with each block: it is the greatest end so far, so that blocks
  -- that lie in an earlier one or run over the end of the section are met as well.
  induction blocks generalizing a with
  | nil => exact ⟨[], a, [], rfl, above, show_nil, by simp [Free]⟩
  | cons b rest ih =>
    obtain ⟨⟨covered, stop, hspan⟩, hb⟩ := List.forall_mem_cons.1 hb
    obtain ⟨later, sorted⟩ := List.pairwise_cons.1 sorted
    obtain ⟨gap, hg, shows_gap⟩ := exists_gapBefore hs above b.start
    obtain ⟨lines, hl, shows_lines⟩ := exists_ofBlock (s := s) hspan
    have further : s.base ≤ max a stop := by
      rw [UInt64.le_iff_toNat_le] at above ⊢
      exact Address.toNat_max a stop ▸ Nat.le_trans above (Nat.le_max_left _ _)
    obtain ⟨more, last, bytes, hm, inside, shows_more, total⟩ := ih hb sorted further
    refine ⟨gap ++ lines ++ more, last, s.dump (List.Ico a.toNat b.start.toNat) ++ bytes, ?_, inside, ?_, ?_⟩
    · rw [ofBlocks_cons]
      have hstop := Block.endAddress_eq_ok.2 hspan
      exact bind_eq_ok.2 ⟨gap, hg, bind_eq_ok.2 ⟨lines, hl, bind_eq_ok.2 ⟨stop, hstop, bind_eq_ok.2 ⟨_, hm, rfl⟩⟩⟩⟩
    · simpa using (shows_gap.append shows_lines).append shows_more
    · have free := filter_free a.toNat covered.2 later
      rw [Block.Spans] at hspan
      rw [hspan, ← Address.toNat_max] at free
      simp only [Section.extent] at free
      rw [free, List.append_assoc, total]
      simp [Section.dump]

end Line

/-! ### Sections -/

/-- The blocks of a graph that start in a section, in order. -/
def BlockGraph.blocksIn (g : BlockGraph) (s : Section) : List Block :=
  g.blocks.values.filter fun b => s.extent.Covers b.start.toNat

/-- The lines show what is free in a section as data, and the instructions of the blocks that start there. If none
does, there are no lines. -/
structure Section.Listed (s : Section) (g : BlockGraph) (lines : List Line) : Prop where
  skipped : g.blocksIn s = [] → lines = []
  bytes : g.blocksIn s ≠ [] → lines.flatMap Line.shows =
    s.dump ((List.Ico s.base.toNat (s.base.toNat + s.mappedSize.toNat)).filter (Free (g.blocksIn s)))
  placed : lines.filterMap Line.code? = (g.blocksIn s).flatMap Block.listed
  sized : ∀ line ∈ lines, line.Sized

namespace BlockGraph

variable {g : BlockGraph} {s : Section}

theorem mem_blocksIn {b : Block} :
    b ∈ g.blocksIn s ↔ (∃ a, g.block? a = some b) ∧ s.extent.Covers b.start.toNat := by
  rw [blocksIn, List.mem_filter, mem_values, decide_eq_true_eq]

theorem filterM_contains (hs : s.Fits) :
    (g.blocks.values.filterM fun b => s.contains b.start) = .ok (g.blocksIn s) := by
  refine filterM_eq_ok_filter fun b _ => ?_
  rw [Section.contains_eq, if_neg hs.ends]
  split <;> simp_all

end BlockGraph

namespace Section.Listed

variable {g : BlockGraph} {s : Section} {lines : List Line} {u : Nat} {v : Option UInt8}

theorem ascending (h : s.Listed g lines) : (lines.flatMap Line.shows).Pairwise fun p q => p.1 < q.1 := by
  by_cases none : g.blocksIn s = []
  · simp [h.skipped none]
  · rw [h.bytes none, dump, List.pairwise_map]
    exact (List.Ico.pairwise_lt _ _).filter _

theorem mem_shown (h : s.Listed g lines) : (u, v) ∈ lines.flatMap Line.shows ↔
    g.blocksIn s ≠ [] ∧ s.extent.Covers u ∧ Free (g.blocksIn s) u ∧ v = s.data[u - s.base.toNat]? := by
  by_cases none : g.blocksIn s = []
  · simp [h.skipped none, none]
  · rw [h.bytes none, mem_dump, List.mem_filter, List.Ico.mem, decide_eq_true_eq]
    exact (and_assoc.trans (and_iff_right none).symm)

end Section.Listed

namespace BlockGraph

variable {g : BlockGraph} {s : Section}

theorem ofSection_skip (hs : s.Fits) (none : g.blocksIn s = []) : Line.ofSection g s = .ok [] := by
  rw [Line.ofSection, filterM_contains hs, none]
  rfl

theorem ofSection_eq (hs : s.Fits) (some : g.blocksIn s ≠ []) : Line.ofSection g s = do
    let (lines, a) ← Line.ofBlocks s s.base (g.blocksIn s)
    let rest ← Line.gapBefore s a (← s.endAddress)
    return Line.heading s.name s.base :: Line.blank :: (lines ++ rest) := by
  rw [Line.ofSection, filterM_contains hs]
  refine (if_neg (by simpa using some)).trans (bind_congr fun (lines, a) => bind_congr fun stop => ?_)
  rw [Line.gapBefore]
  split <;> rfl

theorem Consistent.exists_ofSection (hg : g.Consistent) (hs : s.Fits) :
    ∃ lines, Line.ofSection g s = .ok lines ∧ s.Listed g lines := by
  by_cases none : g.blocksIn s = []
  · exact ⟨[], ofSection_skip hs none, fun _ => rfl, fun some => absurd none some, by simp [none], by simp⟩
  have each : ∀ b ∈ g.blocksIn s, s.extent.Covers b.start.toNat ∧
      ∃ stop, Block.Spans b.start b.instructions stop := fun b hb => by
    obtain ⟨⟨a, ha⟩, covered⟩ := mem_blocksIn.1 hb
    exact ⟨covered, hg.exists_spans ha⟩
  obtain ⟨lines, a, bytes, hl, above, shown, total⟩ :=
    Line.exists_ofBlocks hs each (hg.values_ascending.filter _) (UInt64.le_refl _)
  obtain ⟨stop, hstop⟩ := Address.exists_plus (Nat.not_le.1 hs.ends)
  obtain ⟨rest, hr, shown_rest⟩ := Line.exists_gapBefore hs above stop
  have all := ((shown.append shown_rest).cons .blank trivial).cons (.heading s.name s.base) trivial
  rw [← Address.plus_eq_ok.1 hstop] at all
  refine ⟨_, ?_, fun h => absurd h none, fun _ => all.bytes.trans total, ?_, all.sized⟩
  · rw [ofSection_eq hs none]
    exact bind_eq_ok.2 ⟨_, hl, bind_eq_ok.2 ⟨stop, hstop, bind_eq_ok.2 ⟨rest, hr, rfl⟩⟩⟩
  · simpa [Line.code?] using all.placed

end BlockGraph

namespace Explorer

variable {x : Explorer} {g : BlockGraph}

theorem Attainable.exists_parts (hg : x.Attainable g) (hs : ∀ s ∈ x.program.sections, s.Fits) :
    ∃ parts : List (Section × List Line), parts.map Prod.fst = x.program.sections ∧
      g.textListing x.program = .ok (String.join ((parts.flatMap Prod.snd).map fun line => line.text ++ "\n")) ∧
      ∀ part ∈ parts, part.1.Listed g part.2 := by
  obtain ⟨parts, sections, hl, listed⟩ := exists_mapM_pairs fun s h => hg.consistent.exists_ofSection (hs s h)
  refine ⟨parts, sections, bind_eq_ok.2 ⟨_, map_eq_ok.2 ⟨_, hl, rfl⟩, ?_⟩, listed⟩
  rw [List.flatMap_def]
  rfl

end Explorer

end ReachableCode
