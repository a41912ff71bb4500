import ReachableCode.Proofs.Graph.Consistent
import Mathlib.Logic.Relation

/-!
The edges of a graph: where control may go from a block, where it comes to one from, and the blocks
that fall into the next one. Every operation but a split leaves the edges there are (`Keeps`); a split
hands those out of the block to the tail, and the head falls into it.
-/

namespace ReachableCode

open Relation (TransGen ReflTransGen)

/-- The block grows to `c`: once control leaves it, only what control comes from is added. -/
structure Block.Grows (b c : Block) : Prop where
  start : c.start = b.start
  comes : ∀ {p}, p ∈ b.predecessors → p ∈ c.predecessors
  code : ∀ {t}, t ∈ b.successors → c.instructions = b.instructions
  goes : ∀ {t}, t ∈ b.successors → ∀ u, u ∈ c.successors ↔ u ∈ b.successors

theorem Block.EndsWith.unique {b : Block} {a a' : Address} {d d' : Decoded} (h : b.EndsWith a d)
    (h' : b.EndsWith a' d') : a = a' ∧ d = d' := by
  obtain ⟨before, hb, hs⟩ := h
  obtain ⟨before', hb', hs'⟩ := h'
  obtain ⟨rfl, hd⟩ := List.append_inj' (hb.symm.trans hb') rfl
  exact ⟨hs.unique hs', List.singleton_inj.1 hd⟩

theorem Block.endsWith_congr {b c : Block} {a : Address} {d : Decoded} (hs : c.start = b.start)
    (hi : c.instructions = b.instructions) : c.EndsWith a d ↔ b.EndsWith a d := by
  simp only [EndsWith, hs, hi]

theorem Block.endsWith_append {b c : Block} {before : List Decoded} {a : Address} {d : Decoded}
    (hb : b.instructions = before ++ c.instructions) (hs : Spans b.start before c.start)
    (hne : c.instructions ≠ []) : b.EndsWith a d ↔ c.EndsWith a d := by
  constructor
  · rintro ⟨init, hi, ha⟩
    obtain ⟨a', d', init', hi', ha'⟩ : ∃ a' d', c.EndsWith a' d' := by
      have hc := (List.dropLast_concat_getLast hne).symm
      rw [hb, hc, ← List.append_assoc] at hi
      obtain ⟨rfl, -⟩ := List.append_inj' hi rfl
      obtain ⟨mid, hm, ha⟩ := spans_append.1 ha
      exact ⟨a, _, _, hc, hs.unique hm ▸ ha⟩
    have whole : b.EndsWith a' d' :=
      ⟨before ++ init', by rw [hb, hi', List.append_assoc], spans_append.2 ⟨_, hs, ha'⟩⟩
    obtain ⟨rfl, rfl⟩ := whole.unique ⟨init, hi, ha⟩
    exact ⟨init', hi', ha'⟩
  · rintro ⟨init, hi, ha⟩
    exact ⟨before ++ init, by rw [hb, hi, List.append_assoc], spans_append.2 ⟨_, hs, ha⟩⟩

namespace BlockGraph

/-- Control may go from the block at `s` to `t`. -/
def Goes (g : BlockGraph) (s t : Address) : Prop :=
  ∃ b, g.block? s = some b ∧ t ∈ b.successors

/-- Control comes to the block at `t` from `p`. -/
def Comes (g : BlockGraph) (p t : Address) : Prop :=
  ∃ b, g.block? t = some b ∧ p ∈ b.predecessors

/-- The last instruction of the block at `s` is `d` and lies at `a`. -/
def Ends (g : BlockGraph) (s a : Address) (d : Decoded) : Prop :=
  ∃ b, g.block? s = some b ∧ b.EndsWith a d

/-- The block at `s` ends where `t` lies, and control goes on there and nowhere else. -/
structure Falls (g : BlockGraph) (s t : Address) : Prop where
  stops : ∃ b, g.block? s = some b ∧ b.endAddress = .ok t
  runsOn : ∃ a d, g.Ends s a d ∧ d.RunsOn
  goes : ∀ u, g.Goes s u ↔ u = t

/-- The graph is kept while its blocks grow. -/
structure Keeps (g h : BlockGraph) : Prop where
  grows : ∀ {s b}, g.block? s = some b → ∃ c, h.block? s = some c ∧ b.Grows c

variable {g h : BlockGraph} {a block old new s t u p target : Address} {b c : Block} {d e : Decoded}
  {before after : List Decoded} {origin : Option Address}

theorem goes_iff_mem {targets : List Address}
    (hs : (g.block? s).map (·.successors.toList) = some targets) : g.Goes s t ↔ t ∈ targets := by
  obtain ⟨b, hb, rfl⟩ := Option.map_eq_some_iff.1 hs
  simp [Goes, hb]

theorem comes_iff_mem {origins : List Address}
    (ht : (g.block? t).map (·.predecessors.toList) = some origins) : g.Comes p t ↔ p ∈ origins := by
  obtain ⟨b, hb, rfl⟩ := Option.map_eq_some_iff.1 ht
  simp [Comes, hb]

theorem Ends.unique {a' : Address} (h : g.Ends s a d) (h' : g.Ends s a' e) : a = a' ∧ d = e := by
  obtain ⟨b, hb, hd⟩ := h
  obtain ⟨b', hb', hd'⟩ := h'
  obtain rfl : b = b' := Option.some.inj (hb.symm.trans hb')
  exact hd.unique hd'

theorem Ends.owner (h : g.Ends s a d) (hg : g.Consistent) : g.owner? a = some s := by
  obtain ⟨b, hb, hd⟩ := h
  exact hg.owner_of_has hb hd.has

theorem Ends.isBlockStart (h : g.Ends s a d) : g.isBlockStart s = true := by
  obtain ⟨b, hb, -⟩ := h
  exact isBlockStart_iff.2 ⟨b, hb⟩

theorem Falls.ownsStart (h : g.Falls s t) (hg : g.Consistent) : g.owner? s = some s := by
  obtain ⟨a, d, ⟨b, hb, hd⟩, -⟩ := h.runsOn
  exact hg.owner_start hb hd.has.ne_nil

theorem Falls.lt (h : g.Falls s t) (hg : g.Consistent) : s.toNat < t.toNat := by
  obtain ⟨b, hb, hs⟩ := h.stops
  obtain ⟨a, d, ⟨b', hb', hd⟩, hr⟩ := h.runsOn
  obtain rfl : b = b' := Option.some.inj (hb.symm.trans hb')
  have all : ∀ e ∈ b.instructions, e.RunsOn := by
    intro e he
    rcases hd.mem he with he | rfl
    · exact hg.runsOn hb e he
    · exact hr
  have := Block.byteCount_pos all hd.has.ne_nil
  rw [Block.endAddress_eq_ok, hg.start_eq hb] at hs
  simp only [Block.Spans] at hs
  omega

theorem lt_of_transGen (hr : TransGen g.Falls s t) (hg : g.Consistent) : s.toNat < t.toNat := by
  induction hr with
  | single h => exact h.lt hg
  | tail _ h ih => exact Nat.lt_trans ih (h.lt hg)

/-! ### Graphs that are kept -/

namespace Keeps

theorem refl : g.Keeps g :=
  ⟨fun {_ b} hb => ⟨b, hb, rfl, id, fun _ => rfl, fun _ _ => Iff.rfl⟩⟩

theorem goes (hk : g.Keeps h) (hs : g.Goes s t) : h.Goes s t := by
  obtain ⟨b, hb, ht⟩ := hs
  obtain ⟨c, hc, grows⟩ := hk.grows hb
  exact ⟨c, hc, (grows.goes ht t).2 ht⟩

theorem comes (hk : g.Keeps h) (hp : g.Comes p t) : h.Comes p t := by
  obtain ⟨b, hb, hp⟩ := hp
  obtain ⟨c, hc, grows⟩ := hk.grows hb
  exact ⟨c, hc, grows.comes hp⟩

theorem ends (hk : g.Keeps h) (hs : g.Goes s t) (he : g.Ends s a d) : h.Ends s a d := by
  obtain ⟨b, hb, ht⟩ := hs
  obtain ⟨b', hb', hd⟩ := he
  obtain rfl : b = b' := Option.some.inj (hb.symm.trans hb')
  obtain ⟨c, hc, grows⟩ := hk.grows hb
  exact ⟨c, hc, (Block.endsWith_congr grows.start (grows.code ht)).2 hd⟩

theorem falls (hk : g.Keeps h) (hf : g.Falls s t) : h.Falls s t := by
  have left : g.Goes s t := (hf.goes t).2 rfl
  obtain ⟨b, hb, ht⟩ := left
  obtain ⟨c, hc, grows⟩ := hk.grows hb
  constructor
  case stops =>
    obtain ⟨b', hb', hs⟩ := hf.stops
    obtain rfl : b = b' := Option.some.inj (hb.symm.trans hb')
    rw [Block.endAddress_eq_ok] at hs
    exact ⟨c, hc, Block.endAddress_eq_ok.2 (by rw [grows.start, grows.code ht]; exact hs)⟩
  case runsOn =>
    obtain ⟨a, d, he, hd⟩ := hf.runsOn
    exact ⟨a, d, hk.ends ⟨b, hb, ht⟩ he, hd⟩
  case goes =>
    intro u
    rw [← hf.goes u]
    constructor
    · rintro ⟨c', hc', hu⟩
      obtain rfl : c = c' := Option.some.inj (hc.symm.trans hc')
      exact ⟨b, hb, (grows.goes ht u).1 hu⟩
    · exact hk.goes

end Keeps

/-! ### Opening and extending a block -/

theorem keeps_openAt (hv : g.block? a = none) : g.Keeps (g.openAt a origin) := by
  refine ⟨fun {s b} hb => ?_⟩
  refine ⟨b, ?_, rfl, id, fun _ => rfl, fun _ _ => Iff.rfl⟩
  rw [block?_openAt hv, if_neg, hb]
  rintro rfl
  rw [hv] at hb
  cases hb

theorem goes_openAt (hv : g.block? a = none) : (g.openAt a origin).Goes s t ↔ g.Goes s t := by
  refine ⟨?_, (keeps_openAt hv).goes⟩
  rintro ⟨b, hb, ht⟩
  rw [block?_openAt hv] at hb
  split at hb
  · cases hb
    simp [opened, Block.openedAt] at ht
  · exact ⟨b, hb, ht⟩

theorem comes_openAt (hv : g.block? a = none) :
    (g.openAt a origin).Comes p t ↔ g.Comes p t ∨ t = a ∧ origin = some p := by
  constructor
  · rintro ⟨b, hb, hp⟩
    rw [block?_openAt hv] at hb
    split at hb
    next e =>
      cases hb
      cases origin with
      | none => simp [opened] at hp
      | some o =>
        have : o = p := by simpa [opened, Address.mem_insert] using hp
        exact Or.inr ⟨e.symm, congrArg some this⟩
    · exact Or.inl ⟨b, hb, hp⟩
  · intro hp
    rcases hp with hp | ⟨rfl, rfl⟩
    · exact (keeps_openAt hv).comes hp
    · exact ⟨opened t (some p), by rw [block?_openAt hv, if_pos rfl], by simp [opened]⟩

theorem ends_openAt (hv : g.block? a = none) : (g.openAt a origin).Ends s u d ↔ g.Ends s u d := by
  constructor
  · rintro ⟨b, hb, hd⟩
    rw [block?_openAt hv] at hb
    split at hb
    · cases hb
      exact absurd rfl hd.has.ne_nil
    · exact ⟨b, hb, hd⟩
  · rintro ⟨b, hb, hd⟩
    refine ⟨b, ?_, hd⟩
    rw [block?_openAt hv, if_neg, hb]
    rintro rfl
    rw [hv] at hb
    cases hb

namespace Ready

theorem keeps (hr : g.Ready block a b) (hp : g.append block a d = .ok h) : g.Keeps h := by
  obtain ⟨look, -⟩ := hr.append hp
  refine ⟨fun {s c} hc => ?_⟩
  rw [look]
  split
  next e =>
    obtain rfl : b = c := Option.some.inj (hr.found.symm.trans (e ▸ hc))
    exact ⟨_, rfl, rfl, id, fun ht => absurd ht (hr.stays _), fun ht => absurd ht (hr.stays _)⟩
  · exact ⟨c, hc, rfl, id, fun _ => rfl, fun _ _ => Iff.rfl⟩

theorem goes_append (hr : g.Ready block a b) (hp : g.append block a d = .ok h) :
    h.Goes s t ↔ g.Goes s t := by
  refine ⟨?_, (hr.keeps hp).goes⟩
  rintro ⟨c, hc, ht⟩
  rw [(hr.append hp).1] at hc
  split at hc
  · cases hc
    exact absurd ht (hr.stays t)
  · exact ⟨c, hc, ht⟩

theorem comes_append (hr : g.Ready block a b) (hp : g.append block a d = .ok h) :
    h.Comes p t ↔ g.Comes p t := by
  refine ⟨?_, (hr.keeps hp).comes⟩
  rintro ⟨c, hc, ht⟩
  rw [(hr.append hp).1] at hc
  split at hc
  next e =>
    cases hc
    exact ⟨b, e ▸ hr.found, ht⟩
  · exact ⟨c, hc, ht⟩

theorem ends_append (hr : g.Ready block a b) (hg : g.Consistent) (hp : g.append block a d = .ok h) :
    h.Ends s u e ↔ s = block ∧ u = a ∧ e = d ∨ s ≠ block ∧ g.Ends s u e := by
  have last : Block.EndsWith { b with instructions := b.instructions ++ [d] } a d :=
    hr.endsWith_concat hg
  constructor
  · rintro ⟨c, hc, he⟩
    rw [(hr.append hp).1] at hc
    split at hc
    next eq =>
      cases hc
      obtain ⟨rfl, rfl⟩ := he.unique last
      exact Or.inl ⟨eq.symm, rfl, rfl⟩
    next ne => exact Or.inr ⟨Ne.symm ne, c, hc, he⟩
  · intro he
    rcases he with ⟨rfl, rfl, rfl⟩ | ⟨hs, c, hc, he⟩
    · exact ⟨_, by rw [(hr.append hp).1, if_pos rfl], last⟩
    · exact ⟨c, by rw [(hr.append hp).1, if_neg hs.symm, hc], he⟩

end Ready

/-! ### Adding edges -/

theorem goes_addSuccessor : (g.addSuccessor block target).Goes s t ↔
    g.Goes s t ∨ g.isBlockStart block = true ∧ s = block ∧ t = target := by
  rw [addSuccessor_eq, Goes, exists_block_modify, isBlockStart_iff]
  by_cases e : block = s
  · subst e
    simp only [if_true, Address.mem_insert, true_and, Goes, eq_comm (a := t)]
    rw [← exists_and_right, ← exists_or]
    simp only [and_or_left, or_comm]
  · simp [e, Ne.symm e, Goes]

theorem comes_addSuccessor : (g.addSuccessor block target).Comes p t ↔ g.Comes p t := by
  rw [addSuccessor_eq, Comes, exists_block_modify]
  by_cases e : block = t
  · simp [e, Comes]
  · simp [e, Comes]

theorem goes_addSuccessors {targets : List Address} : (g.addSuccessors block targets).Goes s t ↔
    g.Goes s t ∨ g.isBlockStart block = true ∧ s = block ∧ t ∈ targets := by
  induction targets generalizing g with
  | nil => simp
  | cons target rest ih =>
    have start : (g.addSuccessor block target).isBlockStart block = g.isBlockStart block :=
      sameCode_addSuccessor.isBlockStart
    rw [addSuccessors_cons, ih, goes_addSuccessor, start, List.mem_cons, or_assoc, ← and_or_left,
      ← and_or_left]

theorem comes_addSuccessors {targets : List Address} :
    (g.addSuccessors block targets).Comes p t ↔ g.Comes p t := by
  induction targets generalizing g with
  | nil => rfl
  | cons target rest ih => rw [addSuccessors_cons, ih, comes_addSuccessor]

theorem goes_addPredecessor : (g.addPredecessor block p).Goes s t ↔ g.Goes s t := by
  rw [addPredecessor_eq, Goes, exists_block_modify]
  by_cases e : block = s
  · simp [e, Goes]
  · simp [e, Goes]

theorem comes_addPredecessor : (g.addPredecessor block u).Comes p t ↔
    g.Comes p t ∨ g.isBlockStart block = true ∧ t = block ∧ p = u := by
  rw [addPredecessor_eq, Comes, exists_block_modify, isBlockStart_iff]
  by_cases e : block = t
  · subst e
    simp only [if_true, Address.mem_insert, true_and, Comes, eq_comm (a := p)]
    rw [← exists_and_right, ← exists_or]
    simp only [and_or_left, or_comm]
  · simp [e, Ne.symm e, Comes]

theorem SameCode.ends (hs : g.SameCode h) : h.Ends s a d ↔ g.Ends s a d := by
  constructor
  · rintro ⟨b, hb, hd⟩
    obtain ⟨c, hc, hstart, hi⟩ := hs.symm.exists_block hb
    exact ⟨c, hc, (Block.endsWith_congr hstart hi).2 hd⟩
  · rintro ⟨b, hb, hd⟩
    obtain ⟨c, hc, hstart, hi⟩ := hs.exists_block hb
    exact ⟨c, hc, (Block.endsWith_congr hstart hi).2 hd⟩

/-- Adding edges keeps a graph unless it adds ways out of a block that control leaves already. -/
theorem SameCode.keeps (hs : g.SameCode h) (comes : ∀ {p t}, g.Comes p t → h.Comes p t)
    (goes : ∀ {s t}, g.Goes s t → ∀ u, h.Goes s u ↔ g.Goes s u) : g.Keeps h := by
  refine ⟨fun {s b} hb => ?_⟩
  obtain ⟨c, hc, hstart, hi⟩ := hs.exists_block hb
  refine ⟨c, hc, hstart, fun hp => ?_, fun _ => hi, fun ht u => ?_⟩
  · obtain ⟨c', hc', hp⟩ := comes ⟨b, hb, hp⟩
    obtain rfl : c = c' := Option.some.inj (hc.symm.trans hc')
    exact hp
  · have := goes ⟨b, hb, ht⟩ u
    simpa [Goes, hb, hc] using this

theorem keeps_addPredecessor : g.Keeps (g.addPredecessor block u) :=
  sameCode_addPredecessor.keeps (fun hp => comes_addPredecessor.2 (Or.inl hp))
    fun _ _ => goes_addPredecessor

/-! ### Splits -/

/-- The part of the block at `s` that control leaves after a split: the tail if the block is cut. -/
def rear (old new s : Address) : Address :=
  if s = old then new else s

namespace Cuts

theorem ne (hc : g.Cuts old new b before after h) (hg : g.Consistent) : new ≠ old :=
  fun e => Nat.lt_irrefl _ (e ▸ hc.lt hg)

theorem ne_new (hc : g.Cuts old new b before after h) (hg : g.Consistent) (hs : g.Goes s t) :
    s ≠ new := by
  rintro rfl
  obtain ⟨c, hb, -⟩ := hs
  rw [hc.block?_new hg] at hb
  cases hb

theorem goes_iff (hc : g.Cuts old new b before after h) (hg : g.Consistent) : h.Goes s t ↔
    s = new ∧ g.Goes old t ∨ s = old ∧ t = new ∨ s ≠ old ∧ g.Goes s t := by
  constructor
  · rintro ⟨c, hs, ht⟩
    rcases hc.block?_cases hs with ⟨rfl, rfl⟩ | ⟨rfl, rfl⟩ | ⟨-, ho, hs⟩
    · exact Or.inl ⟨rfl, b, hc.block, ht⟩
    · exact Or.inr (Or.inl ⟨rfl, Address.mem_singleton.1 ht⟩)
    · exact Or.inr (Or.inr ⟨ho, c, hs, ht⟩)
  · intro hs
    rcases hs with ⟨rfl, c, hb, ht⟩ | ⟨rfl, rfl⟩ | ⟨ho, c, hs, ht⟩
    · obtain rfl : b = c := Option.some.inj (hc.block.symm.trans hb)
      exact ⟨_, hc.block?_tail, ht⟩
    · exact ⟨_, hc.block?_head hg, Address.mem_singleton.2 rfl⟩
    · exact ⟨c, hc.block?_other hg hs ho, ht⟩

theorem comes_iff (hc : g.Cuts old new b before after h) (hg : g.Consistent) :
    h.Comes p t ↔ t = new ∧ p = old ∨ g.Comes p t := by
  constructor
  · rintro ⟨c, ht, hp⟩
    rcases hc.block?_cases ht with ⟨rfl, rfl⟩ | ⟨rfl, rfl⟩ | ⟨-, -, ht⟩
    · exact Or.inl ⟨rfl, Address.mem_singleton.1 hp⟩
    · exact Or.inr ⟨b, hc.block, hp⟩
    · exact Or.inr ⟨c, ht, hp⟩
  · intro hp
    rcases hp with ⟨rfl, rfl⟩ | ⟨c, ht, hp⟩
    · exact ⟨_, hc.block?_tail, Address.mem_singleton.2 rfl⟩
    · by_cases ho : t = old
      · subst ho
        obtain rfl : b = c := Option.some.inj (hc.block.symm.trans ht)
        exact ⟨_, hc.block?_head hg, hp⟩
      · exact ⟨c, hc.block?_other hg ht ho, hp⟩

theorem ends_tail (hc : g.Cuts old new b before after h) (hg : g.Consistent) :
    h.Ends new a d ↔ g.Ends old a d := by
  have ends : b.EndsWith a d ↔ (tail old new b after).EndsWith a d :=
    Block.endsWith_append hc.instructions (hc.spans_head hg) hc.after_ne
  simp only [Ends, hc.block?_tail, hc.block, Option.some.injEq, exists_eq_left', ends]

theorem ends_other (hc : g.Cuts old new b before after h) (hg : g.Consistent) (hn : s ≠ new)
    (ho : s ≠ old) : h.Ends s a d ↔ g.Ends s a d := by
  constructor
  · rintro ⟨c, hs, hd⟩
    rcases hc.block?_cases hs with ⟨rfl, -⟩ | ⟨rfl, -⟩ | ⟨-, -, hs⟩
    · exact absurd rfl hn
    · exact absurd rfl ho
    · exact ⟨c, hs, hd⟩
  · rintro ⟨c, hs, hd⟩
    exact ⟨c, hc.block?_other hg hs ho, hd⟩

theorem falls_head (hc : g.Cuts old new b before after h) (hg : g.Consistent) : h.Falls old new := by
  have hspan : Block.Spans (head new b before).start (head new b before).instructions new :=
    hc.spans_head hg
  constructor
  case stops => exact ⟨_, hc.block?_head hg, Block.endAddress_eq_ok.2 hspan⟩
  case runsOn =>
    obtain ⟨a, d, hd⟩ := Block.exists_endsWith (b := head new b before) hc.before_ne hspan
    exact ⟨a, d, ⟨_, hc.block?_head hg, hd⟩, hc.head_runsOn hg d hd.has.mem⟩
  case goes =>
    intro u
    rw [hc.goes_iff hg]
    simp [(hc.ne hg).symm]

theorem falls_tail (hc : g.Cuts old new b before after h) (hg : g.Consistent)
    (hf : g.Falls old t) : h.Falls new t := by
  constructor
  case stops =>
    obtain ⟨c, hb, hs⟩ := hf.stops
    obtain rfl : b = c := Option.some.inj (hc.block.symm.trans hb)
    rw [Block.endAddress_eq_ok, hg.start_eq hc.block, hc.instructions, Block.spans_append] at hs
    obtain ⟨mid, hm, hs⟩ := hs
    exact ⟨_, hc.block?_tail, Block.endAddress_eq_ok.2 (hc.spans.unique hm ▸ hs)⟩
  case runsOn =>
    obtain ⟨a, d, hd, hr⟩ := hf.runsOn
    exact ⟨a, d, (hc.ends_tail hg).2 hd, hr⟩
  case goes =>
    intro u
    rw [← hf.goes u, hc.goes_iff hg]
    have none : ¬g.Goes new u := fun hs => hc.ne_new hg hs rfl
    simp [hc.ne hg, none]

theorem falls_other (hc : g.Cuts old new b before after h) (hg : g.Consistent) (ho : s ≠ old)
    (hf : g.Falls s t) : h.Falls s t := by
  have hn : s ≠ new := hc.ne_new hg ((hf.goes t).2 rfl)
  constructor
  case stops =>
    obtain ⟨c, hb, hs⟩ := hf.stops
    exact ⟨c, hc.block?_other hg hb ho, hs⟩
  case runsOn =>
    obtain ⟨a, d, hd, hr⟩ := hf.runsOn
    exact ⟨a, d, (hc.ends_other hg hn ho).2 hd, hr⟩
  case goes =>
    intro u
    rw [← hf.goes u, hc.goes_iff hg]
    simp [hn, ho]

/-- Control leaves the head for the tail, and goes on from the rear of each block as it did. -/
theorem goes_cases (hc : g.Cuts old new b before after h) (hg : g.Consistent) (hs : h.Goes s t) :
    s = old ∧ t = new ∨ ∃ u, s = rear old new u ∧ g.Goes u t := by
  rcases (hc.goes_iff hg).1 hs with ⟨rfl, hs⟩ | ⟨rfl, rfl⟩ | ⟨ho, hs⟩
  · exact Or.inr ⟨old, (if_pos rfl).symm, hs⟩
  · exact Or.inl ⟨rfl, rfl⟩
  · exact Or.inr ⟨s, (if_neg ho).symm, hs⟩

theorem goes_rear (hc : g.Cuts old new b before after h) (hg : g.Consistent) (hs : g.Goes s t) :
    h.Goes (rear old new s) t := by
  rw [hc.goes_iff hg, rear]
  split
  next e => exact Or.inl ⟨rfl, e ▸ hs⟩
  next ho => exact Or.inr (Or.inr ⟨ho, hs⟩)

theorem ends_rear (hc : g.Cuts old new b before after h) (hg : g.Consistent) (hs : g.Goes s t) :
    h.Ends (rear old new s) a d ↔ g.Ends s a d := by
  rw [rear]
  split
  next e =>
    subst e
    exact hc.ends_tail hg
  next ho => exact hc.ends_other hg (hc.ne_new hg hs) ho

theorem falls_rear (hc : g.Cuts old new b before after h) (hg : g.Consistent) (hf : g.Falls s t) :
    h.Falls (rear old new s) t := by
  rw [rear]
  split
  next e =>
    subst e
    exact hc.falls_tail hg hf
  next ho => exact hc.falls_other hg ho hf

end Cuts

end BlockGraph

end ReachableCode
