import ReachableCode.Proofs.Exploration.Exits
import ReachableCode.Proofs.Exploration.Linked
import ReachableCode.Proofs.Exploration.Reachability

/-!
Where blocks start. One starts at each entry and wherever a transfer leads, at a decoded address that
control runs on to from two places, and at a decoded label. Which of the two places is in the block
before, and when the block is cut, depends on the order in which the targets are taken; where blocks start
in the end does not.
-/

namespace ReachableCode

namespace BlockGraph

/-- The instruction at `u` lies right behind the one at `p` in a block. -/
def Follows (g : BlockGraph) (p u : Address) : Prop :=
  ∃ s b i d e, g.block? s = some b ∧ b.Holds i p d ∧ b.Holds (i + 1) u e

variable {g h : BlockGraph} {a p q s u : Address} {b : Block} {d : Decoded} {i : Nat}

/-- An instruction lies right behind one other at most. -/
theorem Follows.unique (hp : g.Follows p u) (hq : g.Follows q u) (hg : g.Consistent) : p = q := by
  obtain ⟨s, b, i, d, e, hb, hi, hu⟩ := hp
  obtain ⟨s', b', i', d', e', hb', hi', hu'⟩ := hq
  obtain ⟨rfl, hindex, -⟩ := hg.place_unique hb hu hb' hu'
  obtain rfl : i = i' := Nat.succ.inj hindex
  obtain rfl : b = b' := Option.some.inj (hb.symm.trans hb')
  exact (hi.unique hi').1

theorem Follows.not_ends (hp : g.Follows p u) (hg : g.Consistent) : ¬g.Ends s p d := by
  rintro ⟨b', hb', hend⟩
  obtain ⟨s', b, i, d', e, hb, hi, hu⟩ := hp
  obtain ⟨j, hj, hlen⟩ := hend.holds
  obtain ⟨rfl, rfl, -⟩ := hg.place_unique hb hi hb' hj
  obtain rfl : b = b' := Option.some.inj (hb.symm.trans hb')
  have := (List.getElem?_eq_some_iff.1 hu.1).1
  omega

namespace Consistent

/-- What is decoded inside a block lies behind an instruction that control passes. -/
theorem exists_follows (hg : g.Consistent) (hu : g.isDecoded u = true) (hn : g.isBlockStart u = false) :
    ∃ p s b d, g.Follows p u ∧ g.block? s = some b ∧ b.Has p d ∧ d.RunsOn ∧ Address.plus p d.size = .ok u := by
  obtain ⟨s, ho⟩ := isDecoded_iff.1 hu
  obtain ⟨b, e, hb, i, hi⟩ := hg.exists_has ho
  cases i with
  | zero =>
    have here : b.start = u := Block.spans_nil.1 hi.2
    rw [hg.start_eq hb] at here
    rw [← here, isBlockStart_iff.2 ⟨b, hb⟩] at hn
    cases hn
  | succ i =>
    obtain ⟨p, d, hp, hd, hnext⟩ := hi.exists_before
    exact ⟨p, s, b, d, ⟨s, b, i, d, e, hb, hp, hi⟩, hb, ⟨i, hp⟩, hg.runsOn hb d hd, hnext⟩

/-- Behind an instruction of a block lies the next one, unless it ends the block. -/
theorem ends_or_follows (hg : g.Consistent) (hb : g.block? s = some b) (hd : b.Has p d)
    (hn : Address.plus p d.size = .ok u) : g.Ends s p d ∨ g.Follows p u := by
  obtain ⟨i, hi⟩ := hd
  obtain ⟨stop, hs⟩ := hg.exists_spans hb
  cases he : b.instructions[i + 1]? with
  | none =>
    have := (List.getElem?_eq_some_iff.1 hi.1).1
    have := List.getElem?_eq_none_iff.1 he
    exact Or.inl ⟨b, hb, hi.endsWith (by omega)⟩
  | some e =>
    obtain ⟨v, next⟩ := Block.exists_holds hs he
    obtain ⟨p', d', hp', -, hn'⟩ := next.exists_before
    obtain ⟨rfl, rfl⟩ := hi.unique hp'
    cases hn.symm.trans hn'
    exact Or.inr ⟨s, b, i, d, e, hb, hi, next⟩

end Consistent

end BlockGraph

namespace Explorer

/-- An entry or a transfer sends control to `u`. -/
def Sent (x : Explorer) (entries : List Target) (g : BlockGraph) (u : Address) : Prop :=
  (∃ e ∈ entries, e.addressIn x.program = .ok (some u)) ∨ ∃ a, g.Leads a u

/-- Control runs on to `u` from the decoded instruction at `p`, which takes it nowhere else. -/
def RunsTo (x : Explorer) (g : BlockGraph) (p u : Address) : Prop :=
  g.isDecoded p = true ∧ ∃ d f, x.decodeAt p = .ok (some d) ∧ d.flow = some f ∧ f.transfers = false ∧
    f.stops = false ∧ Address.plus p d.size = .ok u

/-- Control runs on to `u` from two places. -/
def Joins (x : Explorer) (g : BlockGraph) (u : Address) : Prop :=
  ∃ p q, p ≠ q ∧ x.RunsTo g p u ∧ x.RunsTo g q u

/-- There is a reason for a block to start at `u`. -/
def StartsAt (x : Explorer) (entries : List Target) (g : BlockGraph) (u : Address) : Prop :=
  x.Sent entries g u ∨ g.isDecoded u = true ∧ (x.Joins g u ∨ x.StartsLabel u)

/-- Blocks start where there is a reason for it, and at each mapped entry unless it waits. -/
structure Starts (x : Explorer) (entries : List Target) (g : BlockGraph) (waiting : List WorkItem) :
    Prop where
  start : ∀ {u}, g.isBlockStart u = true → x.StartsAt entries g u
  sent : ∀ {u}, x.Waits waiting u → x.Sent entries g u
  entry : ∀ {e u}, e ∈ entries → e.addressIn x.program = .ok (some u) → x.Maps u →
    g.isBlockStart u = true ∨ x.Waits waiting u

variable {x : Explorer} {s t : Exploration} {item : WorkItem} {rest waiting : List WorkItem}
  {entries more labels : List Target} {g h : BlockGraph} {a p u : Address} {b : Block} {d : Decoded}
  {f : Flow} {origin : Option Address}

theorem Faithful.runsTo (hf : x.Faithful g) (hg : g.Consistent) {s : Address} (hb : g.block? s = some b)
    (hd : b.Has p d) (hr : d.RunsOn) (hn : Address.plus p d.size = .ok u) : x.RunsTo g p u := by
  obtain ⟨f, hflow, ht, hs⟩ := hr.flow
  exact ⟨BlockGraph.isDecoded_iff.2 ⟨s, hg.owner_of_has hb hd⟩, d, f, (hf.decoded hb hd).1, hflow, ht, hs, hn⟩

/-! ### Reasons stay -/

theorem Sent.mono (hs : x.Sent entries g u) (he : ∀ e ∈ entries, e ∈ more)
    (hl : ∀ {a v}, g.Leads a v → h.Leads a v) : x.Sent more h u := by
  rcases hs with ⟨e, hm, ha⟩ | ⟨a, ha⟩
  · exact Or.inl ⟨e, he e hm, ha⟩
  · exact Or.inr ⟨a, hl ha⟩

theorem Joins.mono (hj : x.Joins g u) (hd : ∀ {v}, g.isDecoded v = true → h.isDecoded v = true) :
    x.Joins h u := by
  obtain ⟨p, q, hne, ⟨hp, runs⟩, hq, runs'⟩ := hj
  exact ⟨p, q, hne, ⟨hd hp, runs⟩, hd hq, runs'⟩

theorem StartsAt.mono (hs : x.StartsAt entries g u) (he : ∀ e ∈ entries, e ∈ more)
    (hl : ∀ {a v}, g.Leads a v → h.Leads a v) (hd : ∀ {v}, g.isDecoded v = true → h.isDecoded v = true) :
    x.StartsAt more h u :=
  hs.imp (·.mono he hl) fun ⟨hu, why⟩ => ⟨hd hu, why.imp_left (·.mono hd)⟩

/-- What is decoded stays so, and transfers lead where they led. -/
theorem Visits.grows (hv : x.Visits s item rest t) :
    (∀ {v}, s.graph.isDecoded v = true → t.graph.isDecoded v = true) ∧
      ∀ {v w}, s.graph.Leads v w → t.graph.Leads v w := by
  cases hv with
  | drops _ _ decoded same => exact ⟨fun hd => (decoded _).trans hd, (same _ _).2⟩
  | decodes _ _ _ _ _ _ _ decoded exits =>
    exact ⟨fun hd => (decoded _).2 (Or.inl hd), fun hl => (exits _ _).2 (Or.inl hl)⟩

/-! ### What a step opens -/

theorem isBlockStart_room (hv : s.graph.isVisited a = false) : (s.room a origin).2.isBlockStart u = true ↔
    s.graph.isBlockStart u = true ∨ s.current = none ∧ u = a := by
  obtain ⟨-, hb⟩ := BlockGraph.isVisited_eq_false.1 hv
  cases hc : s.current with
  | none => simp [Exploration.room, hc, BlockGraph.isBlockStart_openAt hb]
  | some block => simp [Exploration.room, hc]

namespace Sound

/-- A step makes a mapped target the start of a block if no block runs on to it or it is decoded. -/
theorem isBlockStart_step (hs : x.Sound s) (ht : x.Takes s item rest t) :
    t.graph.isBlockStart u = true ↔ s.graph.isBlockStart u = true ∨
      item.target.addressIn x.program = .ok (some u) ∧ x.Maps u ∧
        (s.current = none ∨ s.graph.isDecoded u = true) := by
  have at? : ∀ {a}, item.target.addressIn x.program = .ok (some a) →
      (item.target.addressIn x.program = .ok (some u) ↔ u = a) := fun ha => by simp [ha, eq_comm]
  -- what was not visited is not decoded
  have opens : ∀ {a}, item.target.addressIn x.program = .ok (some a) → s.graph.isVisited a = false →
      x.Maps a → ((s.room a item.origin).2.isBlockStart u = true ↔ s.graph.isBlockStart u = true ∨
        item.target.addressIn x.program = .ok (some u) ∧ x.Maps u ∧
          (s.current = none ∨ s.graph.isDecoded u = true)) := by
    intro a ha hv hm
    rw [isBlockStart_room hv, at? ha]
    refine or_congr_right ⟨?_, ?_⟩
    · rintro ⟨hc, rfl⟩
      exact ⟨rfl, hm, Or.inl hc⟩
    · rintro ⟨rfl, -, hc⟩
      simp only [BlockGraph.isDecoded_eq_false.2 (BlockGraph.isVisited_eq_false.1 hv).1, Bool.false_eq_true,
        or_false] at hc
      exact ⟨hc, rfl⟩
  cases ht with
  | unresolved ha => simp [ha]
  | unmapped ha hv hd =>
    refine (or_iff_left ?_).symm
    rintro ⟨hu, ⟨e, he⟩, -⟩
    obtain rfl := (at? ha).1 hu
    cases hd.symm.trans he
  | @revisited a g ha hv hm =>
    have left : s.graph.SameCode (s.graph.leaveFor s.current a) := BlockGraph.sameCode_leaveFor
    rw [BlockGraph.sameCode_comeFrom.isBlockStart, BlockGraph.isBlockStart_makeStartIfDecoded_iff hm,
      left.isBlockStart, left.isDecoded, at? ha]
    constructor
    · intro hu
      rcases hu with hu | ⟨rfl, hd⟩
      · exact Or.inl hu
      · obtain ⟨s', ho⟩ := BlockGraph.isDecoded_iff.1 hd
        obtain ⟨b, d, hb, hb'⟩ := hs.consistent.exists_has ho
        exact Or.inr ⟨rfl, ⟨d, (hs.faithful.decoded hb hb').1⟩, Or.inr hd⟩
    · intro hu
      rcases hu with hu | ⟨rfl, -, -⟩
      · exact Or.inl hu
      · rw [BlockGraph.isVisited, Bool.or_eq_true] at hv
        exact hv.symm.imp_right fun hd => ⟨rfl, hd⟩
  | invalid ha hv hd => exact opens ha hv ⟨_, hd⟩
  | plain ha hv hd _ _ _ hp =>
    rw [BlockGraph.isBlockStart_append hp]
    exact opens ha hv ⟨_, hd⟩
  | transfer ha hv hd _ _ _ hp =>
    rw [BlockGraph.sameCode_addSuccessors.isBlockStart, BlockGraph.isBlockStart_append hp]
    exact opens ha hv ⟨_, hd⟩

/-- A step leaves what waited, and lets wait only what transfers lead to. -/
theorem waits_step (hs : x.Sound s) (hw : s.work = item :: rest) (ht : x.Takes s item rest t) :
    (x.Waits rest u → x.Waits t.waiting u) ∧
      (x.Waits t.waiting u → x.Waits rest u ∨ ∃ a, t.graph.Leads a u) := by
  have same : t.waiting = rest → (x.Waits rest u → x.Waits t.waiting u) ∧
      (x.Waits t.waiting u → x.Waits rest u ∨ ∃ a, t.graph.Leads a u) := fun e => by
    rw [e]
    exact ⟨id, Or.inl⟩
  cases id ht with
  | unresolved => exact same rfl
  | unmapped => exact same rfl
  | revisited => exact same rfl
  | invalid => exact same rfl
  | @plain a next d flow g =>
    refine same ?_
    cases hstop : flow.stops <;> simp [Exploration.waiting, workBehind, hstop]
  | @transfer a next d flow g targets exits ha hv hd hf htr hn hp hj hx =>
    obtain ⟨hg, b, hr⟩ := hs.steady.ready hw ha hv
    have ends := (hr.ends_append hg hp).2 (Or.inl ⟨rfl, rfl, rfl⟩)
    have leads : x.IsExit targets flow next u →
        (g.addSuccessors (s.room a item.origin).1 exits).Leads a u := fun he =>
      (BlockGraph.leads_addSuccessors ends hf).2 (Or.inr ⟨rfl, htr, (hx u).2 he⟩)
    have waits := @waits_behind x rest a u next flow targets
    simp only [htr, if_true, true_and] at waits
    refine ⟨fun hu => waits.2 (Or.inr (Or.inl hu)), fun hu => ?_⟩
    rcases waits.1 hu with ⟨hstop, hu⟩ | hu | hu
    · exact Or.inr ⟨a, leads (Or.inr ⟨hstop, eq_of_addressIn_address hu⟩)⟩
    · exact Or.inl hu
    · exact Or.inr ⟨a, leads (Or.inl hu)⟩

/-- Control that runs on into the middle of a block joins what runs on to there within it. -/
theorem joins (hs : x.Sound s) (hw : s.work = item :: rest) {block : Address} (hc : s.current = some block)
    (ha : item.target.addressIn x.program = .ok (some u)) (hd : s.graph.isDecoded u = true)
    (hn : s.graph.isBlockStart u = false) : x.Joins s.graph u := by
  obtain ⟨last, d, f, next, htarget, ends, hflow, ht, hstop, hnext, -⟩ := hs.runsOnTo hw hc
  rw [htarget] at ha
  obtain rfl := eq_of_addressIn_address ha
  obtain ⟨p, s', b, e, follows, hb, he, hr, hp⟩ := hs.consistent.exists_follows hd hn
  refine ⟨p, last, ?_, hs.faithful.runsTo hs.consistent hb he hr hp, ?_⟩
  · rintro rfl
    exact follows.not_ends hs.consistent ends
  · obtain ⟨b', hb', hend⟩ := id ends
    exact ⟨BlockGraph.isDecoded_iff.2 ⟨block, ends.owner hs.consistent⟩, d, f,
      (hs.faithful.decoded hb' hend.has).1, hflow, ht, hstop, hnext⟩

end Sound

/-! ### Every step -/

namespace Starts

theorem empty : x.Starts [] .empty [] where
  start hu := by
    obtain ⟨b, hb⟩ := BlockGraph.isBlockStart_iff.1 hu
    simp at hb
  sent hu := absurd hu not_waits_nil
  entry he := by cases he

theorem starting (hs : x.Starts entries g []) (entry : Target) :
    x.Starts (entries ++ [entry]) g [{ target := entry, origin := none }] where
  start hu := (hs.start hu).mono (fun _ => List.mem_append_left _) id id
  sent := by
    rintro u ⟨item, hi, hu⟩
    cases List.mem_singleton.1 hi
    exact Or.inl ⟨entry, by simp, hu⟩
  entry he hu hm := by
    rcases List.mem_append.1 he with he | he
    · exact Or.inl ((hs.entry he hu hm).resolve_right not_waits_nil)
    · cases List.mem_singleton.1 he
      exact Or.inr ⟨_, List.mem_singleton.2 rfl, hu⟩

theorem step (hst : x.Starts entries s.graph s.waiting) (hs : x.Sound s) (hw : s.work = item :: rest)
    (ht : x.Takes s item rest t) : x.Starts entries t.graph t.waiting := by
  obtain ⟨decoded, leads⟩ := (hs.visits hw ht).grows
  have sent : ∀ {u}, x.Sent entries s.graph u → x.Sent entries t.graph u := fun hu => hu.mono (fun _ => id) leads
  have waited : ∀ {u}, x.Waits rest u → x.Waits s.waiting u := by
    intro u hu
    rcases Linked.waiting_cons hw with ⟨-, hw⟩ | ⟨-, hw⟩ <;> rw [hw]
    · exact waits_cons.2 (Or.inr hu)
    · exact hu
  constructor
  case start =>
    intro u hu
    rcases (hs.isBlockStart_step ht).1 hu with hu | ⟨ha, -, hc⟩
    · exact (hst.start hu).mono (fun _ => id) leads decoded
    · rcases Linked.waiting_cons hw with ⟨-, hw'⟩ | ⟨⟨block, hcur⟩, -⟩
      · exact Or.inl (sent (hst.sent (hw' ▸ waits_cons.2 (Or.inl ha))))
      · have hd : s.graph.isDecoded u = true := hc.resolve_left (by simp [hcur])
        cases hn : s.graph.isBlockStart u with
        | true => exact (hst.start hn).mono (fun _ => id) leads decoded
        | false => exact Or.inr ⟨decoded hd, Or.inl ((hs.joins hw hcur ha hd hn).mono decoded)⟩
  case sent =>
    intro u hu
    rcases (hs.waits_step hw ht).2 hu with hu | hl
    · exact sent (hst.sent (waited hu))
    · exact Or.inr hl
  case entry =>
    intro e u he hu hm
    rcases hst.entry he hu hm with hb | hwait
    · exact Or.inl ((hs.isBlockStart_step ht).2 (Or.inl hb))
    · rcases Linked.waiting_cons hw with ⟨hc, hw'⟩ | ⟨-, hw'⟩
      · rw [hw'] at hwait
        rcases waits_cons.1 hwait with ha | hwait
        · exact Or.inl ((hs.isBlockStart_step ht).2 (Or.inr ⟨ha, hm, Or.inl hc⟩))
        · exact Or.inr ((hs.waits_step hw ht).1 hwait)
      · exact Or.inr ((hs.waits_step hw ht).1 (hw' ▸ hwait))

theorem stop (hst : x.Starts entries s.graph s.waiting) (hw : s.work = []) : x.Starts entries s.graph [] := by
  have none : s.waiting = [] := by
    unfold Exploration.waiting
    rw [hw]
    split <;> rfl
  exact none ▸ hst

/-- A block may be cut at a decoded address where there is a reason for it. -/
theorem makeStartIfDecoded (hst : x.Starts entries g []) (hg : g.Consistent) (hl : x.StartsLabel a)
    (hs : g.makeStartIfDecoded a = .ok h) : x.Starts entries h [] := by
  obtain ⟨decoded, same⟩ := BlockGraph.same_makeStartIfDecoded hg hs
  have starts : ∀ {u}, x.StartsAt entries g u → x.StartsAt entries h u := fun hu =>
    hu.mono (fun _ => id) (same _ _).2 fun hd => (decoded _).trans hd
  constructor
  case start =>
    intro u hu
    rcases (BlockGraph.isBlockStart_makeStartIfDecoded_iff hs).1 hu with hu | ⟨rfl, hd⟩
    · exact starts (hst.start hu)
    · exact starts (Or.inr ⟨hd, Or.inr hl⟩)
  case sent => exact fun hu => absurd hu not_waits_nil
  case entry =>
    exact fun he hu hm => (hst.entry he hu hm).imp_left fun hb =>
      (BlockGraph.isBlockStart_makeStartIfDecoded_iff hs).2 (Or.inl hb)

end Starts

theorem starts_invariant : x.Invariant
    (fun entries g => (g.Consistent ∧ x.Faithful g) ∧ x.Starts entries g [])
    (fun entries s => x.Sound s ∧ x.Starts entries s.graph s.waiting) where
  empty := ⟨⟨.empty, .empty⟩, .empty⟩
  start entry hg := ⟨.starting hg.1.1 hg.1.2 entry, hg.2.starting entry⟩
  step _ hs hw ht := ⟨hs.1.step hw ht, hs.2.step hs.1 hw ht⟩
  stop hs hw := ⟨⟨hs.1.consistent, hs.1.faithful⟩, hs.2.stop hw⟩
  cut hl hg hs := ⟨⟨hg.1.1.makeStartIfDecoded hs, hg.1.2.makeStartIfDecoded hg.1.1 hs⟩,
    hg.2.makeStartIfDecoded hg.1.1 hl hs⟩

/-! ### Every reason starts a block -/

theorem same_makeStarts {labels : List Address} (hg : g.Consistent) (hm : makeStarts g labels = .ok h) :
    h.Consistent ∧ ∀ u, h.isDecoded u = g.isDecoded u := by
  refine makeStarts_induction (P := fun h => h.Consistent ∧ ∀ u, h.isDecoded u = g.isDecoded u)
    (fun _ hh hs => ?_) ⟨hg, fun _ => rfl⟩ hm
  obtain ⟨hk, same⟩ := hh
  refine ⟨hk.makeStartIfDecoded hs, fun u => ?_⟩
  rw [(BlockGraph.same_makeStartIfDecoded hk hs).1 u, same]

/-- Blocks start at the decoded addresses of the list, and where they did. -/
theorem isBlockStart_makeStarts_iff {labels : List Address} (hg : g.Consistent)
    (hm : makeStarts g labels = .ok h) :
    h.isBlockStart u = true ↔ g.isBlockStart u = true ∨ u ∈ labels ∧ g.isDecoded u = true := by
  induction labels generalizing g with
  | nil =>
    cases hm
    simp
  | cons a rest ih =>
    obtain ⟨k, hk, hrest⟩ := bind_eq_ok.1 hm
    rw [during_eq_ok] at hk
    rw [ih (hg.makeStartIfDecoded hk) hrest, BlockGraph.isBlockStart_makeStartIfDecoded_iff hk,
      (BlockGraph.same_makeStartIfDecoded hg hk).1 u, List.mem_cons, or_and_right, or_assoc]
    exact or_congr_right (or_congr_left (and_congr_right fun e => by rw [e]))

/-- An exploration that cuts at labels does its work, then makes the labels starts. -/
theorem makeStarts_of_explore {entry : Target} (on : x.options.startAtLabels = true) (he : x.explore g entry = .ok h) :
    ∃ k labels, x.run (.starting g entry) = .ok k ∧ x.program.labelAddresses = .ok labels ∧
      makeStarts k labels = .ok h := by
  obtain ⟨k, hr, he⟩ := bind_eq_ok.1 he
  rw [if_pos on] at he
  obtain ⟨labels, hl, hm⟩ := bind_eq_ok.1 he
  exact ⟨k, labels, hr, during_eq_ok.1 hl, hm⟩

theorem isBlockStart_of_label (he : x.exploreAll .empty entries = .ok g) (hl : x.StartsLabel u)
    (hd : g.isDecoded u = true) : g.isBlockStart u = true := by
  cases entries using List.reverseRecOn with
  | nil =>
    cases he
    obtain ⟨s, ho⟩ := BlockGraph.isDecoded_iff.1 hd
    simp at ho
  | append_singleton entries entry =>
    obtain ⟨on, labels, hlabels, hu⟩ := hl
    obtain ⟨g₁, he, hlast⟩ := exploreAll_concat.1 he
    obtain ⟨g₂, labels', hr, hlabels', hm⟩ := makeStarts_of_explore on hlast
    cases hlabels.symm.trans hlabels'
    obtain ⟨hg, hf⟩ := sound_invariant.exploreAll he
    obtain ⟨hg₂, -⟩ := sound_invariant.run (.start entry he) (.starting hg hf entry) hr
    exact (isBlockStart_makeStarts_iff hg₂ hm).2 (Or.inr ⟨hu, (same_makeStarts hg₂ hm).2 u ▸ hd⟩)

/-- A block starts at a mapped address just when there is a reason for it. -/
theorem isBlockStart_iff (he : x.exploreAll .empty entries = .ok g) :
    g.isBlockStart u = true ↔ x.Maps u ∧ x.StartsAt entries g u := by
  obtain ⟨⟨hg, hf⟩, hst⟩ := starts_invariant.exploreAll he
  obtain ⟨-, hl⟩ := linked_invariant.exploreAll he
  constructor
  · intro hu
    obtain ⟨b, hb⟩ := BlockGraph.isBlockStart_iff.1 hu
    exact ⟨hf.maps hg hb, hst.start hu⟩
  · rintro ⟨hm, (⟨e, hmem, hu⟩ | ⟨a, s, d, f, -, -, -, hs⟩) | ⟨hd, ⟨p, q, hne, hp, hq⟩ | label⟩⟩
    · exact (hst.entry hmem hu hm).resolve_right not_waits_nil
    · exact hl.isBlockStart hs hm
    · by_contra hn
      obtain ⟨c, -, -, -, follows, -⟩ := hg.exists_follows hd (Bool.eq_false_iff.2 hn)
      -- of the two instructions that run on to `u`, one is not the one before it, and ends its block
      have other : ∃ r, r ≠ c ∧ x.RunsTo g r u := by
        by_cases e : p = c
        · exact ⟨q, fun e' => hne (e.trans e'.symm), hq⟩
        · exact ⟨p, e, hp⟩
      obtain ⟨r, hr, hdec, d, f, hd', hflow, ht, hstop, hnext⟩ := other
      obtain ⟨s, ho⟩ := BlockGraph.isDecoded_iff.1 hdec
      obtain ⟨b, d', hb, hhas⟩ := hg.exists_has ho
      cases hd'.symm.trans (hf.decoded hb hhas).1
      rcases hg.ends_or_follows hb hhas hnext with ends | follows'
      · obtain ⟨-, hset⟩ := settled_invariant.exploreAll he
        have left := hset.exits ends nofun
        exact hn (hl.isBlockStart (left.goes_next hflow ht hstop hnext (hf.decodes hg hd)) hm)
      · exact hr (follows'.unique follows hg)
    · exact isBlockStart_of_label he label hd

end Explorer

end ReachableCode
