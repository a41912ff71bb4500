import ReachableCode.Proofs.Graph.Consistent
import Mathlib.Tactic.ByContra

/-!
The pieces that splits make of the blocks of a graph. Whatever is split first, each piece is a run of the
instructions of one block, and it goes up to the end of that block or to where the next piece starts. So
the places where blocks start tell all about the pieces but what control comes from.
-/

namespace ReachableCode.BlockGraph

/-- The block `c` at `s` in `h` is the piece between `before` and `after` of a block `b` at `u`. -/
structure PieceOf (h : BlockGraph) (s : Address) (c : Block) (u : Address) (b : Block)
    (before after : List Decoded) : Prop where
  instructions : b.instructions = before ++ (c.instructions ++ after)
  spans : Block.Spans u before s
  whole : c.instructions = [] → before = [] ∧ after = []
  goes : after = [] ∧ c.successors = b.successors ∨
    after ≠ [] ∧ ∃ stop, Block.Spans s c.instructions stop ∧ h.isBlockStart stop = true ∧
      c.successors = {stop}

/-- The blocks of `h` are pieces of those of `g`. -/
structure Pieces (g h : BlockGraph) : Prop where
  piece : ∀ {s c}, h.block? s = some c → ∃ u b before after,
    g.block? u = some b ∧ h.PieceOf s c u b before after

/-- `h` is `g` with its blocks cut so that blocks start at `cuts` as well. -/
structure CutAt (g : BlockGraph) (cuts : List Address) (h : BlockGraph) : Prop where
  consistent : h.Consistent
  isDecoded : ∀ a, h.isDecoded a = g.isDecoded a
  pieces : g.Pieces h
  starts : ∀ s, h.isBlockStart s = true ↔ g.isBlockStart s = true ∨ s ∈ cuts

/-- The graphs differ at most in what control comes to their blocks from. -/
structure SameButOrigins (g h : BlockGraph) : Prop where
  decoded : h.decoded = g.decoded
  blocks : ∀ s, (h.block? s).map (fun b => { b with predecessors := ∅ }) =
    (g.block? s).map fun b => { b with predecessors := ∅ }

variable {g h h' k : BlockGraph} {a old new s u : Address} {b c c' : Block} {d : Decoded}
  {before after before' after' more : List Decoded} {places : List Address}

/-! ### Pieces of pieces -/

theorem PieceOf.mono (hp : h.PieceOf s c u b before after)
    (starts : ∀ t, h.isBlockStart t = true → k.isBlockStart t = true) :
    k.PieceOf s c u b before after where
  instructions := hp.instructions
  spans := hp.spans
  whole := hp.whole
  goes := hp.goes.imp_right fun ⟨hne, stop, hs, start, goes⟩ => ⟨hne, stop, hs, starts stop start, goes⟩

theorem Pieces.refl : g.Pieces g :=
  ⟨fun {s c} hc =>
    ⟨s, c, [], [], hc, by simp, Block.spans_nil.2 rfl, fun _ => ⟨rfl, rfl⟩, Or.inl ⟨rfl, rfl⟩⟩⟩

/-- A cut of a piece makes two: the head goes up to the tail, and the tail ends as the piece did. -/
theorem Pieces.cuts (hp : g.Pieces h) (hc : h.Cuts old new c before after k) :
    g.Pieces k := by
  have starts : ∀ t, h.isBlockStart t = true → k.isBlockStart t = true := fun t ht =>
    hc.isBlockStart.2 (Or.inl ht)
  refine ⟨fun {s c'} hs => ?_⟩
  rcases hc.block?_cases hs with ⟨rfl, rfl⟩ | ⟨rfl, rfl⟩ | ⟨-, -, hs⟩
  · obtain ⟨u, b, front, back, hb, piece⟩ := hp.piece hc.block
    have spans := Block.spans_append.2 ⟨_, piece.spans, hc.spans⟩
    refine ⟨u, b, front ++ before, back, hb, ?_, spans, fun e => absurd e hc.after_ne, ?_⟩
    · rw [piece.instructions, hc.instructions]
      simp [tail]
    · refine piece.goes.imp_right fun ⟨hne, stop, hstop, start, goes⟩ => ⟨hne, stop, ?_, starts stop start, goes⟩
      rw [hc.instructions, Block.spans_append] at hstop
      obtain ⟨mid, hm, hstop⟩ := hstop
      exact hc.spans.unique hm ▸ hstop
  · obtain ⟨u, b, front, back, hb, piece⟩ := hp.piece hc.block
    have new_start : k.isBlockStart new = true := hc.isBlockStart.2 (Or.inr rfl)
    refine ⟨u, b, front, after ++ back, hb, ?_, piece.spans, fun e => absurd e hc.before_ne, ?_⟩
    · rw [piece.instructions, hc.instructions, List.append_assoc]
      rfl
    · exact Or.inr ⟨by simp [hc.after_ne], new, hc.spans, new_start, rfl⟩
  · obtain ⟨u, b, front, back, hb, piece⟩ := hp.piece hs
    exact ⟨u, b, front, back, hb, piece.mono starts⟩

/-! ### Cutting at a list of addresses -/

theorem Consistent.exists_makeStart (hg : g.Consistent) (hd : g.isDecoded a = true) :
    ∃ h, g.makeStart a = .ok h := by
  cases hs : g.isBlockStart a with
  | true => exact ⟨g, if_pos hs⟩
  | false =>
    obtain ⟨h, hm⟩ := hg.exists_makeStartIfDecoded a
    rw [BlockGraph.makeStartIfDecoded, if_pos ⟨hd, by simp [hs]⟩] at hm
    exact ⟨h, hm⟩

namespace CutAt

theorem refl (hg : g.Consistent) : g.CutAt [] g where
  consistent := hg
  isDecoded _ := rfl
  pieces := .refl
  starts _ := by simp

theorem makeStart (hc : g.CutAt places h) (hm : h.makeStart a = .ok k) : g.CutAt (a :: places) k := by
  rcases makeStart_cases hm with ⟨start, rfl⟩ | ⟨u, -, -, hs⟩
  · refine ⟨hc.consistent, hc.isDecoded, hc.pieces, fun s => ?_⟩
    rw [hc.starts] at start
    rw [hc.starts, List.mem_cons, or_left_comm]
    refine (or_iff_right_of_imp ?_).symm
    rintro rfl
    exact start
  · obtain ⟨c, before, after, cut⟩ := cuts_of_split hs
    refine ⟨cut.consistent hc.consistent, fun b => (cut.isDecoded hc.consistent).trans (hc.isDecoded b),
      hc.pieces.cuts cut, fun s => ?_⟩
    rw [cut.isBlockStart, hc.starts, List.mem_cons, or_assoc, or_comm (a := s = a)]

/-- A graph can be cut at any addresses that are decoded. -/
theorem exists_foldlM {more : List Address} (hc : g.CutAt places h)
    (decoded : ∀ a ∈ more, g.isDecoded a = true) :
    ∃ k, more.foldlM BlockGraph.makeStart h = .ok k ∧ g.CutAt (more.reverse ++ places) k := by
  induction more generalizing places h with
  | nil => exact ⟨h, rfl, hc⟩
  | cons a rest ih =>
    obtain ⟨k, hk⟩ := hc.consistent.exists_makeStart
      ((hc.isDecoded a).trans (decoded a List.mem_cons_self))
    obtain ⟨m, hm, hcut⟩ := ih (hc.makeStart hk) fun b hb => decoded b (List.mem_cons_of_mem a hb)
    refine ⟨m, bind_eq_ok.2 ⟨k, hk, hm⟩, ?_⟩
    simpa using hcut

end CutAt

/-! ### What the starts tell -/

/-- The first instruction of a piece lies where the piece starts, in the block that it is a piece of. -/
theorem PieceOf.exists_holds (hp : h.PieceOf s c u b before after) (hg : g.Consistent)
    (hb : g.block? u = some b) (hne : c.instructions ≠ []) : ∃ d, b.Holds before.length s d := by
  obtain ⟨d, rest, hi⟩ := List.exists_cons_of_ne_nil hne
  have hins := hp.instructions
  rw [hi, List.cons_append] at hins
  exact ⟨d, Block.holds_iff.2 ⟨before, rest ++ after, hins, rfl, hg.start_eq hb ▸ hp.spans⟩⟩

/-- Where a piece without instructions starts, none has any: it is a whole block, and nothing was decoded
there. -/
theorem PieceOf.eq_nil_of_eq_nil {u' : Address} {b' : Block} (hp : h.PieceOf s c u b before after)
    (hp' : h'.PieceOf s c' u' b' before' after') (hg : g.Consistent) (hb : g.block? u = some b)
    (hb' : g.block? u' = some b') (hi : c.instructions = []) : c'.instructions = [] := by
  by_contra hne
  obtain ⟨d, hd⟩ := hp'.exists_holds hg hb' hne
  have ho := hg.owner_of_has hb' ⟨_, hd⟩
  obtain ⟨rfl, rfl⟩ := hp.whole hi
  obtain rfl := Block.spans_nil.1 hp.spans
  rw [hg.opened hb (by simpa [hi] using hp.instructions)] at ho
  cases ho

/-- Pieces that start at one place are pieces of one block, behind the same instructions. -/
theorem PieceOf.before_unique {u' : Address} {b' : Block} (hp : h.PieceOf s c u b before after)
    (hp' : h'.PieceOf s c' u' b' before' after') (hg : g.Consistent) (hb : g.block? u = some b)
    (hb' : g.block? u' = some b') : b = b' ∧ before = before' := by
  by_cases hi : c.instructions = []
  · obtain ⟨rfl, -⟩ := hp.whole hi
    obtain ⟨rfl, -⟩ := hp'.whole (hp.eq_nil_of_eq_nil hp' hg hb hb' hi)
    obtain rfl := (Block.spans_nil.1 hp.spans).trans (Block.spans_nil.1 hp'.spans).symm
    exact ⟨Option.some.inj (hb.symm.trans hb'), rfl⟩
  · obtain ⟨d, hd⟩ := hp.exists_holds hg hb hi
    obtain ⟨d', hd'⟩ := hp'.exists_holds hg hb' fun e => hi (hp'.eq_nil_of_eq_nil hp hg hb' hb e)
    obtain ⟨rfl, hlen, -⟩ := hg.place_unique hb hd hb' hd'
    obtain rfl := Option.some.inj (hb.symm.trans hb')
    exact ⟨rfl, (List.append_inj (hp.instructions.symm.trans hp'.instructions) hlen).1⟩

/-- No piece goes on where another one ends, since a block starts there. -/
theorem PieceOf.eq_nil (hp : h.PieceOf s c u b before (more ++ after')) (hh' : h'.Consistent)
    (starts : ∀ t, h.isBlockStart t = true → h'.isBlockStart t = true) (hc' : h'.block? s = some c')
    (hi : c'.instructions = c.instructions ++ more) : more = [] := by
  by_contra hne
  obtain ⟨d, rest, rfl⟩ := List.exists_cons_of_ne_nil hne
  rcases hp.goes with ⟨e, -⟩ | ⟨-, stop, hs, start, -⟩
  · simp at e
  · have hci : c.instructions ≠ [] := fun e => by simpa using (hp.whole e).2
    obtain ⟨i, hlen⟩ := Nat.exists_eq_add_one_of_ne_zero (mt List.length_eq_zero_iff.1 hci)
    have inside : c'.Holds (i + 1) stop d := by
      rw [Block.holds_iff, ← hlen]
      exact ⟨c.instructions, rest, hi, rfl, hh'.start_eq hc' ▸ hs⟩
    have := starts stop start
    rw [hh'.isBlockStart_eq_false hc' inside] at this
    cases this

/-- Pieces that start at one place are alike if blocks start at the same places in both graphs. -/
theorem Pieces.unique (hp : g.Pieces h) (hp' : g.Pieces h') (hg : g.Consistent) (hh : h.Consistent)
    (hh' : h'.Consistent) (starts : ∀ t, h.isBlockStart t = h'.isBlockStart t)
    (hc : h.block? s = some c) (hc' : h'.block? s = some c') :
    c'.instructions = c.instructions ∧ c'.successors = c.successors := by
  obtain ⟨u, b, before, after, hb, piece⟩ := hp.piece hc
  obtain ⟨u', b', before', after', hb', piece'⟩ := hp'.piece hc'
  obtain ⟨rfl, rfl⟩ := piece.before_unique piece' hg hb hb'
  have rest := List.append_cancel_left (piece.instructions.symm.trans piece'.instructions)
  -- one of the two is no longer than the other, and then as long
  have same : c.instructions = c'.instructions ∧ after = after' := by
    rcases List.append_eq_append_iff.1 rest with ⟨more, hi, rfl⟩ | ⟨more, hi, rfl⟩
    · obtain rfl := piece.eq_nil hh' (fun t => (starts t) ▸ id) hc' hi
      simpa using hi.symm
    · obtain rfl := piece'.eq_nil hh (fun t => (starts t) ▸ id) hc hi
      simpa using hi
  obtain ⟨hi, rfl⟩ := same
  refine ⟨hi.symm, ?_⟩
  rcases piece.goes with ⟨rfl, goes⟩ | ⟨hne, stop, hs, -, goes⟩
  · rcases piece'.goes with ⟨-, goes'⟩ | ⟨hne, -⟩
    · rw [goes, goes']
    · exact absurd rfl hne
  · rcases piece'.goes with ⟨e, -⟩ | ⟨-, stop', hs', -, goes'⟩
    · exact absurd e hne
    · rw [goes, goes', hs.unique (hi ▸ hs')]

/-- Where blocks start tells all but what control comes from. -/
theorem CutAt.same {more : List Address} (hc : g.CutAt places h) (hk : g.CutAt more k) (hg : g.Consistent)
    (same : ∀ a, a ∈ more ↔ a ∈ places) : h.SameButOrigins k := by
  have starts : ∀ s, h.isBlockStart s = k.isBlockStart s := fun s =>
    Bool.eq_iff_iff.2 (by rw [hc.starts, hk.starts, same])
  have blocks : ∀ s, (k.block? s).map (fun b => { b with predecessors := ∅ }) =
      (h.block? s).map fun b => { b with predecessors := ∅ } := by
    intro s
    have start := starts s
    cases hb : h.block? s with
    | none => rw [isBlockStart_eq_false.1 (start.symm.trans (isBlockStart_eq_false.2 hb))]
    | some b =>
      obtain ⟨c, hb'⟩ := isBlockStart_iff.1 (start.symm.trans (isBlockStart_iff.2 ⟨b, hb⟩))
      obtain ⟨hi, goes⟩ := hc.pieces.unique hk.pieces hg hc.consistent hk.consistent starts hb hb'
      rw [hb', Option.map_some, Option.map_some, hi, goes, hk.consistent.start_eq hb',
        hc.consistent.start_eq hb]
  have code := hc.consistent.sameCode_of_blocks hk.consistent fun s => by
    simpa only [Option.map_map, Function.comp_def] using
      congrArg (Option.map fun b => (b.start, b.instructions)) (blocks s)
  exact ⟨Std.ExtTreeMap.ext_getElem? fun {a} => code.owner?_eq a, blocks⟩

end ReachableCode.BlockGraph
