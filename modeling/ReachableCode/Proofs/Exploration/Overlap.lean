import Mathlib
import ReachableCode.Proofs.Code.Safe
import ReachableCode.Proofs.Exploration.Representation

/-!
When the bytes of two blocks overlap. No instruction is in two blocks, but what is decoded is told by where
it starts alone, so control may go into the middle of an instruction and what lies there is decoded too.
The bytes of two blocks have one in common just when an instruction of the one starts inside an instruction
of the other.
-/

namespace ReachableCode

/-- The byte at `u` is one of the instruction at `a`. -/
def Decoded.Covers (d : Decoded) (a u : Address) : Prop :=
  ∃ stop, Address.plus a d.size = .ok stop ∧ a ≤ u ∧ u < stop

namespace Block

/-- The byte at `u` is one of the block. -/
def Covers (b : Block) (u : Address) : Prop :=
  ∃ stop, b.endAddress = .ok stop ∧ b.start ≤ u ∧ u < stop

/-- The blocks have a byte in common. -/
def Overlaps (b c : Block) : Prop :=
  ∃ u, b.Covers u ∧ c.Covers u

/-- An instruction of `c` starts inside an instruction of `b`, behind its first byte. -/
def Straddles (b c : Block) : Prop :=
  ∃ a d u e, b.Has a d ∧ c.Has u e ∧ d.Covers a u ∧ a ≠ u

variable {b c : Block} {a start stop u : Address} {d e : Decoded} {ds : List Decoded}

/-- Of the bytes of instructions behind one another, each is one of an instruction. -/
theorem exists_covers_of_spans (hs : Spans start ds stop) (hu : start ≤ u) (hlt : u < stop) :
    ∃ before d after a, ds = before ++ d :: after ∧ Spans start before a ∧ d.Covers a u := by
  induction ds generalizing start with
  | nil =>
    cases spans_nil.1 hs
    exact absurd (UInt64.lt_of_le_of_lt hu hlt) (UInt64.lt_irrefl _)
  | cons d rest ih =>
    obtain ⟨next, hn, hs⟩ := spans_cons.1 hs
    rcases UInt64.lt_or_le u next with here | behind
    · exact ⟨[], d, rest, start, rfl, spans_nil.2 rfl, next, hn, hu, here⟩
    · obtain ⟨before, e, after, a, rfl, ha, he⟩ := ih hs behind
      exact ⟨d :: before, e, after, a, rfl, spans_cons.2 ⟨next, hn, ha⟩, he⟩

/-- The bytes of a block are those of its instructions. -/
theorem covers_iff (hs : Spans b.start b.instructions stop) :
    b.Covers u ↔ ∃ a d, b.Has a d ∧ d.Covers a u := by
  constructor
  · rintro ⟨stop', hend, hu, hlt⟩
    obtain ⟨before, d, after, a, hb, ha, hd⟩ := exists_covers_of_spans (endAddress_eq_ok.1 hend) hu hlt
    exact ⟨a, d, has_iff.2 ⟨before, after, hb, ha⟩, hd⟩
  · rintro ⟨a, d, hd, next, hn, hu, hlt⟩
    refine ⟨stop, endAddress_eq_ok.2 hs, ?_, ?_⟩
    · have := hd.le
      rw [UInt64.le_iff_toNat_le] at *
      omega
    · obtain ⟨before, after, hb, ha⟩ := has_iff.1 hd
      rw [hb] at hs
      simp only [Spans, byteCount_append, byteCount_cons, Address.plus_eq_ok] at *
      rw [UInt64.lt_iff_toNat_lt] at *
      omega

theorem Has.covers_start (hd : b.Has a d) (hs : Spans b.start b.instructions stop) (hsize : d.size ≠ 0) :
    b.Covers a := by
  obtain ⟨next, hn⟩ := hd.exists_behind hs
  refine (covers_iff hs).2 ⟨a, d, hd, next, hn, UInt64.le_refl _, ?_⟩
  have : d.size.toNat ≠ 0 := fun zero => hsize (UInt64.toNat_inj.1 zero)
  rw [Address.plus_eq_ok] at hn
  rw [UInt64.lt_iff_toNat_lt]
  omega

theorem Straddles.overlaps {stop' : Address} (h : b.Straddles c) (hb : Spans b.start b.instructions stop)
    (hc : Spans c.start c.instructions stop') (sized : ∀ {u e}, c.Has u e → e.size ≠ 0) : b.Overlaps c := by
  obtain ⟨a, d, u, e, hd, he, hu, -⟩ := h
  exact ⟨u, (covers_iff hb).2 ⟨a, d, hd, hu⟩, he.covers_start hc (sized he)⟩

/-- Of two instructions with a byte in common that do not start at one place, one starts inside the
other. -/
theorem straddles_or (hd : b.Has a d) {a' : Address} (he : c.Has a' e) (hu : d.Covers a u) (hu' : e.Covers a' u)
    (hne : a ≠ a') : b.Straddles c ∨ c.Straddles b := by
  obtain ⟨next, hn, hle, hlt⟩ := hu
  obtain ⟨next', hn', hle', hlt'⟩ := hu'
  rcases UInt64.le_total a a' with order | order
  · exact Or.inl ⟨a, d, a', e, hd, he, ⟨next, hn, order, UInt64.lt_of_le_of_lt hle' hlt⟩, hne⟩
  · exact Or.inr ⟨a', e, a, d, he, hd, ⟨next', hn', order, UInt64.lt_of_le_of_lt hle hlt'⟩, hne.symm⟩

end Block

namespace Explorer

variable {x : Explorer} {g : BlockGraph} {s t : Address} {b c : Block}

/-- If instructions have bytes, two blocks of a graph have no instruction at one place, and they have a byte
in common just when an instruction of one of them starts inside an instruction of the other. -/
theorem blocks_overlap_iff (hr : x.Refined g)
    (sized : ∀ {a d}, x.decodeAt a = .ok (some d) → d.isValid = true → d.size ≠ 0)
    (hb : g.block? s = some b) (hc : g.block? t = some c) (hne : s ≠ t) :
    (∃ stop, b.endAddress = .ok stop) ∧ (∀ {a d e}, b.Has a d → ¬c.Has a e) ∧
      (b.Overlaps c ↔ b.Straddles c ∨ c.Straddles b) := by
  obtain ⟨hg, hf⟩ := hr.consistent
  obtain ⟨stop, hspan⟩ := hg.exists_spans hb
  obtain ⟨stop', hspan'⟩ := hg.exists_spans hc
  have apart : ∀ {a d e}, b.Has a d → ¬c.Has a e := fun hd he =>
    hne (Option.some.inj ((hg.owner_of_has hb hd).symm.trans (hg.owner_of_has hc he)))
  have size : ∀ {s b a d}, g.block? s = some b → b.Has a d → d.size ≠ 0 := fun hb hd =>
    sized (hf.decoded hb hd).1 (hf.decoded hb hd).2
  refine ⟨⟨stop, Block.endAddress_eq_ok.2 hspan⟩, apart, ?_⟩
  constructor
  · rintro ⟨u, hu, hu'⟩
    obtain ⟨a, d, hd, hcov⟩ := (Block.covers_iff hspan).1 hu
    obtain ⟨a', e, he, hcov'⟩ := (Block.covers_iff hspan').1 hu'
    refine Block.straddles_or hd he hcov hcov' ?_
    rintro rfl
    exact apart hd he
  · intro h
    rcases h with h | h
    · exact h.overlaps hspan hspan' (size hc)
    · obtain ⟨u, hu, hu'⟩ := h.overlaps hspan' hspan (size hb)
      exact ⟨u, hu', hu⟩

/-- Code with a return inside an immediate value, which is entered too. -/
def returnInsideMove : Explorer :=
  Toy.explorer [0x20, 0x00, 0xc3, 0x00, 0x00, 0x00, 0xc3]

theorem returnInsideMove_sized {a : Address} {d : Decoded} (h : returnInsideMove.decodeAt a = .ok (some d))
    (hv : d.isValid = true) : d.size ≠ 0 :=
  Toy.size_ne_zero (meets_of_decodeAt h) hv

theorem returnInsideMove_overlaps : ∃ g b c,
    returnInsideMove.exploreAll .empty [.address 0x1000, .address 0x1002] = .ok g ∧
      g.block? 0x1000 = some b ∧ g.block? 0x1002 = some c ∧ b.Overlaps c := by
  have run : (do
      let g ← returnInsideMove.exploreAll .empty [.address 0x1000, .address 0x1002]
      let b ← Interruption.during g ((g.block? 0x1000).elim (.error (.undecodedSplit 0x1000)) .ok)
      let c ← Interruption.during g ((g.block? 0x1002).elim (.error (.undecodedSplit 0x1002)) .ok)
      let stop ← Interruption.during g b.endAddress
      let stop' ← Interruption.during g c.endAddress
      return (b.start, c.start, stop, stop')) = .ok (0x1000, 0x1002, 0x1007, 0x1003) := by
    cbv
  obtain ⟨g, hg, run⟩ := bind_eq_ok.1 run
  obtain ⟨b, hb, run⟩ := bind_eq_ok.1 run
  obtain ⟨c, hc, run⟩ := bind_eq_ok.1 run
  obtain ⟨stop, hs, run⟩ := bind_eq_ok.1 run
  obtain ⟨stop', hs', run⟩ := bind_eq_ok.1 run
  simp only [pure, Except.pure, Except.ok.injEq, Prod.mk.injEq] at run
  obtain ⟨start, start', rfl, rfl⟩ := run
  rw [during_eq_ok, elim_eq_ok] at hb hc
  rw [during_eq_ok] at hs hs'
  refine ⟨g, b, c, hg, hb, hc, 0x1002, ⟨_, hs, ?_, by decide⟩, _, hs', ?_, by decide⟩
  · rw [start]
    decide
  · rw [start']
    decide

/-- The bytes of two blocks may overlap, though every instruction has bytes. -/
theorem distinct_blocks_may_overlap : ∃ g,
    (∀ a d, returnInsideMove.decodeAt a = .ok (some d) → d.isValid = true → d.size ≠ 0) ∧
      returnInsideMove.exploreAll .empty [.address 0x1000, .address 0x1002] = .ok g ∧
      ¬∀ s t b c, s ≠ t → g.block? s = some b → g.block? t = some c → ¬b.Overlaps c := by
  obtain ⟨g, b, c, hg, hb, hc, overlap⟩ := returnInsideMove_overlaps
  exact ⟨g, fun _ _ => returnInsideMove_sized, hg, fun never => never _ _ b c (by decide) hb hc overlap⟩

theorem returnInsideMove_straddles : ∃ g b c,
    returnInsideMove.Refined g ∧ g.block? 0x1000 = some b ∧ g.block? 0x1002 = some c ∧
      (∀ {a d e}, b.Has a d → ¬c.Has a e) ∧ (b.Straddles c ∨ c.Straddles b) := by
  obtain ⟨g, b, c, hg, hb, hc, overlap⟩ := returnInsideMove_overlaps
  have hr : returnInsideMove.Refined g := .produced ⟨_, hg⟩
  obtain ⟨-, apart, iff⟩ := blocks_overlap_iff hr returnInsideMove_sized hb hc (by decide)
  exact ⟨g, b, c, hr, hb, hc, apart, iff.1 overlap⟩

end Explorer

end ReachableCode
