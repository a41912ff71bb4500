import ReachableCode.Proofs.Exploration.Sound
import ReachableCode.Proofs.Graph.Edges

/-!
How the addresses that control comes from match the addresses that it goes to. Both ends of an edge are
written at different times: where control goes when the transfer is decoded, where it comes from when
its target is taken from the work that waits. Between the two the edge is pending. A split names the
start of the head as what control comes from, and stays so when the head is split again.
-/

namespace ReachableCode

open Relation (TransGen ReflTransGen)

namespace BlockGraph

/-- Control comes from `p` to `t` by way of the block at `s`: `p` is the last instruction there, or the
start of a block from which control falls through to it and on into `t`. -/
def Edge (g : BlockGraph) (p s t : Address) : Prop :=
  g.Goes s t ∧ (∃ d, g.Ends s p d) ∨ g.Falls s t ∧ ReflTransGen g.Falls p s

/-- Control comes to the block at `t` from the start `p` of a block that does not reach up to it: the block
was cut again, and control falls through others in between. -/
def Stale (g : BlockGraph) (p t : Address) : Prop :=
  g.Comes p t ∧ ∃ u, u ≠ t ∧ g.Falls p u ∧ TransGen g.Falls u t

/-- What control comes to a block from lies in a block that goes there, and the other way round. -/
structure Matched (g : BlockGraph) : Prop where
  comes : ∀ {p t}, g.Comes p t → ∃ s, g.owner? p = some s ∧ g.Goes s t
  goes : ∀ {s t}, g.Goes s t → g.isBlockStart t = true → ∃ p, g.Comes p t ∧ g.owner? p = some s

variable {g h : BlockGraph} {old new p s t : Address} {b : Block} {before after : List Decoded}

namespace Edge

/-- The block that has the predecessor goes there unless the predecessor is stale. -/
theorem owner_goes_iff (he : g.Edge p s t) (hg : g.Consistent) (hp : g.Comes p t) :
    (∃ s, g.owner? p = some s ∧ g.Goes s t) ↔ ¬g.Stale p t := by
  constructor
  · rintro ⟨s', ho, hs⟩ ⟨-, u, hne, hf, -⟩
    -- the block at `p` falls to `u`, and so goes nowhere else
    cases (hf.ownsStart hg).symm.trans ho
    exact hne ((hf.goes t).1 hs).symm
  · intro fresh
    rcases he with ⟨hs, d, hd⟩ | ⟨hf, hr⟩
    · exact ⟨s, hd.owner hg, hs⟩
    · obtain ⟨u, hu, hr⟩ := TransGen.head'_iff.1 (TransGen.tail' hr hf)
      rcases Relation.reflTransGen_iff_eq_or_transGen.1 hr with rfl | hr
      · exact ⟨p, hu.ownsStart hg, (hu.goes t).2 rfl⟩
      · by_cases e : u = t
        · subst e
          exact ⟨p, hu.ownsStart hg, (hu.goes u).2 rfl⟩
        · exact absurd ⟨hp, u, e, hu, hr⟩ fresh

theorem owner_or_stale (he : g.Edge p s t) (hg : g.Consistent) (hp : g.Comes p t) :
    g.owner? p = some s ∨ g.Stale p t := by
  rcases he with ⟨-, d, hd⟩ | ⟨hf, hr⟩
  · exact Or.inl (hd.owner hg)
  · rcases Relation.ReflTransGen.cases_head hr with rfl | ⟨u, hu, hr⟩
    · exact Or.inl (hf.ownsStart hg)
    · have more : TransGen g.Falls u t := TransGen.tail' hr hf
      refine Or.inr ⟨hp, u, ?_, hu, more⟩
      rintro rfl
      exact Nat.lt_irrefl _ (BlockGraph.lt_of_transGen more hg)

end Edge

theorem Keeps.edge (hk : g.Keeps h) (he : g.Edge p s t) : h.Edge p s t := by
  rcases he with ⟨hs, d, hd⟩ | ⟨hf, hr⟩
  · exact Or.inl ⟨hk.goes hs, d, hk.ends hs hd⟩
  · exact Or.inr ⟨hk.falls hf, hr.lift id fun _ _ => hk.falls⟩

namespace Cuts

theorem reflTransGen_rear (hc : g.Cuts old new b before after h) (hg : g.Consistent)
    (hr : ReflTransGen g.Falls p s) : ReflTransGen h.Falls p (rear old new s) := by
  have through : ∀ {u}, ReflTransGen h.Falls u (rear old new u) := by
    intro u
    rw [rear]
    split
    next e =>
      subst e
      exact .single (hc.falls_head hg)
    · exact .refl
  induction hr with
  | refl => exact through
  | tail _ hf ih => exact (ih.tail (hc.falls_rear hg hf)).trans through

theorem edge_rear (hc : g.Cuts old new b before after h) (hg : g.Consistent) (he : g.Edge p s t) :
    h.Edge p (rear old new s) t := by
  rcases he with ⟨hs, d, hd⟩ | ⟨hf, hr⟩
  · exact Or.inl ⟨hc.goes_rear hg hs, d, (hc.ends_rear hg hs).2 hd⟩
  · exact Or.inr ⟨hc.falls_rear hg hf, hc.reflTransGen_rear hg hr⟩

theorem edge_head (hc : g.Cuts old new b before after h) (hg : g.Consistent) : h.Edge old old new :=
  Or.inr ⟨hc.falls_head hg, .refl⟩

end Cuts

end BlockGraph

/-- The work that waits: all but what control runs on to. -/
def Exploration.waiting (s : Exploration) : List WorkItem :=
  match s.current with
  | some _ => s.work.tail
  | none => s.work

namespace Explorer

/-- The work has a target at `t` that control comes to from `o`. -/
def Pending (x : Explorer) (work : List WorkItem) (o t : Address) : Prop :=
  ∃ item ∈ work, item.origin = some o ∧ item.target.addressIn x.program = .ok (some t)

/-- Both ends of each edge are in the graph, or the edge is pending, or nothing is at its target. -/
structure Linked (x : Explorer) (g : BlockGraph) (pending : Address → Address → Prop) : Prop where
  comes : ∀ {p t}, g.Comes p t → ∃ s, g.Edge p s t
  goes : ∀ {s t}, g.Goes s t →
    (∃ p, g.Comes p t ∧ g.Edge p s t) ∨ (∃ o d, g.Ends s o d ∧ pending o t) ∨ ¬x.Maps t
  pending : ∀ {o t}, pending o t → ∃ s d, g.Ends s o d ∧ g.Goes s t

variable {x : Explorer} {s t : Exploration} {item : WorkItem} {rest : List WorkItem}
  {g h : BlockGraph} {a block old new : Address} {b : Block} {d : Decoded}
  {before after : List Decoded} {P Q : Address → Address → Prop}

namespace Linked

/-- While a graph is kept, edges are added and pending ones are settled. -/
theorem grow (hl : x.Linked g P) (hk : g.Keeps h)
    (comes : ∀ {p t}, h.Comes p t → g.Comes p t ∨ ∃ s, h.Edge p s t)
    (goes : ∀ {s t}, h.Goes s t → g.Goes s t ∨ (∃ o d, h.Ends s o d ∧ Q o t) ∨ ¬x.Maps t)
    (more : ∀ {o t}, Q o t → P o t ∨ ∃ s d, h.Ends s o d ∧ h.Goes s t)
    (settled : ∀ {o t}, P o t → Q o t ∨ h.Comes o t ∨ ¬x.Maps t) : x.Linked h Q where
  comes hp := by
    rcases comes hp with hp | he
    · obtain ⟨s, he⟩ := hl.comes hp
      exact ⟨s, hk.edge he⟩
    · exact he
  goes hs := by
    rcases goes hs with hs | new
    · rcases hl.goes hs with ⟨p, hp, he⟩ | ⟨o, d, hd, ho⟩ | hm
      · exact Or.inl ⟨p, hk.comes hp, hk.edge he⟩
      · rcases settled ho with ho | hp | hm
        · exact Or.inr (Or.inl ⟨o, d, hk.ends hs hd, ho⟩)
        · exact Or.inl ⟨o, hp, Or.inl ⟨hk.goes hs, d, hk.ends hs hd⟩⟩
        · exact Or.inr (Or.inr hm)
      · exact Or.inr (Or.inr hm)
    · exact Or.inr new
  pending ho := by
    rcases more ho with ho | new
    · obtain ⟨s, d, hd, hs⟩ := hl.pending ho
      exact ⟨s, d, hk.ends hs hd, hk.goes hs⟩
    · exact new

theorem cuts (hl : x.Linked g P) (hg : g.Consistent) (hc : g.Cuts old new b before after h) :
    x.Linked h P where
  comes hp := by
    rcases (hc.comes_iff hg).1 hp with ⟨rfl, rfl⟩ | hp
    · exact ⟨_, hc.edge_head hg⟩
    · obtain ⟨s, he⟩ := hl.comes hp
      exact ⟨_, hc.edge_rear hg he⟩
  goes hs := by
    rcases hc.goes_cases hg hs with ⟨rfl, rfl⟩ | ⟨u, rfl, hu⟩
    · exact Or.inl ⟨_, (hc.comes_iff hg).2 (Or.inl ⟨rfl, rfl⟩), hc.edge_head hg⟩
    · rcases hl.goes hu with ⟨p, hp, he⟩ | ⟨o, d, hd, hq⟩ | hm
      · exact Or.inl ⟨p, (hc.comes_iff hg).2 (Or.inr hp), hc.edge_rear hg he⟩
      · exact Or.inr (Or.inl ⟨o, d, (hc.ends_rear hg hu).2 hd, hq⟩)
      · exact Or.inr (Or.inr hm)
  pending hq := by
    obtain ⟨s, d, hd, hs⟩ := hl.pending hq
    exact ⟨_, d, (hc.ends_rear hg hs).2 hd, hc.goes_rear hg hs⟩

end Linked

/-! ### Pending edges -/

theorem Pending.mono {work more : List WorkItem} {o t : Address} (hp : x.Pending work o t)
    (hm : ∀ item ∈ work, item ∈ more) : x.Pending more o t := by
  obtain ⟨item, hi, ho, ha⟩ := hp
  exact ⟨item, hm item hi, ho, ha⟩

theorem pending_cons {o u : Address} : x.Pending (item :: rest) o u ↔
    item.origin = some o ∧ item.target.addressIn x.program = .ok (some u) ∨ x.Pending rest o u := by
  simp [Pending]

/-! ### What a step adds -/

namespace Linked

theorem waiting_cons (hw : s.work = item :: rest) :
    s.current = none ∧ s.waiting = item :: rest ∨ (∃ c, s.current = some c) ∧ s.waiting = rest := by
  unfold Exploration.waiting
  cases s.current with
  | none => exact Or.inl ⟨rfl, hw⟩
  | some c => exact Or.inr ⟨⟨c, rfl⟩, by rw [hw]; rfl⟩

/-- A target with nothing at it needs no edge. -/
theorem skip (hl : x.Linked s.graph (x.Pending s.waiting)) (hw : s.work = item :: rest)
    (hm : ∀ {a}, item.target.addressIn x.program = .ok (some a) → ¬x.Maps a) :
    x.Linked s.graph (x.Pending rest) := by
  rcases waiting_cons hw with ⟨-, hw⟩ | ⟨-, hw⟩
  · rw [hw] at hl
    refine hl.grow .refl Or.inl Or.inl (fun hp => Or.inl (pending_cons.2 (Or.inr hp))) fun hp => ?_
    rcases pending_cons.1 hp with ⟨-, ha⟩ | hp
    · exact Or.inr (Or.inr (hm ha))
    · exact Or.inl hp
  · rwa [hw] at hl

/-- The block that takes what is decoded next is opened with the edge that leads to it. -/
theorem room (hl : x.Linked s.graph (x.Pending s.waiting)) (hw : s.work = item :: rest)
    (ha : item.target.addressIn x.program = .ok (some a)) (hv : s.graph.isVisited a = false) :
    x.Linked (s.room a item.origin).2 (x.Pending rest) := by
  obtain ⟨-, hb⟩ := BlockGraph.isVisited_eq_false.1 hv
  rcases waiting_cons hw with ⟨hc, hw⟩ | ⟨⟨c, hc⟩, hw⟩
  · have same : (s.room a item.origin).2 = s.graph.openAt a item.origin := by
      simp only [Exploration.room, hc]
    rw [hw] at hl
    rw [same]
    refine hl.grow (BlockGraph.keeps_openAt hb) (fun hp => ?_) (fun hs => ?_) (fun hp => ?_) fun hp => ?_
    · rcases (BlockGraph.comes_openAt hb).1 hp with hp | ⟨rfl, ho⟩
      · exact Or.inl hp
      · obtain ⟨u, d, hd, hs⟩ := hl.pending (pending_cons.2 (Or.inl ⟨ho, ha⟩))
        exact Or.inr ⟨u, Or.inl ⟨(BlockGraph.goes_openAt hb).2 hs, d, (BlockGraph.ends_openAt hb).2 hd⟩⟩
    · exact Or.inl ((BlockGraph.goes_openAt hb).1 hs)
    · exact Or.inl (pending_cons.2 (Or.inr hp))
    · rcases pending_cons.1 hp with ⟨ho, hu⟩ | hp
      · cases ha.symm.trans hu
        exact Or.inr (Or.inl ((BlockGraph.comes_openAt hb).2 (Or.inr ⟨rfl, ho⟩)))
      · exact Or.inl hp
  · have same : (s.room a item.origin).2 = s.graph := by simp only [Exploration.room, hc]
    rw [hw] at hl
    rwa [same]

theorem append (hl : x.Linked g P) (hr : g.Ready block a b)
    (hp : g.append block a d = .ok h) : x.Linked h P := by
  refine hl.grow (hr.keeps hp) (fun hc => Or.inl ((hr.comes_append hp).1 hc))
    (fun hs => Or.inl ((hr.goes_append hp).1 hs)) Or.inl Or.inl

theorem addSuccessors {exits : List Address} (hl : x.Linked g P) (he : g.Ends block a d)
    (hs : ∀ t, ¬g.Goes block t) (hq : ∀ {o t}, P o t → Q o t)
    (more : ∀ {o t}, Q o t → P o t ∨ o = a ∧ t ∈ exits)
    (exit : ∀ {t}, t ∈ exits → Q a t ∨ ¬x.Maps t) : x.Linked (g.addSuccessors block exits) Q := by
  have code : g.SameCode (g.addSuccessors block exits) := BlockGraph.sameCode_addSuccessors
  refine hl.grow (code.keeps BlockGraph.comes_addSuccessors.2 fun hs' u => ?_)
    (fun hp => Or.inl (BlockGraph.comes_addSuccessors.1 hp)) (fun hs' => ?_) (fun ho => ?_)
    fun ho => Or.inl (hq ho)
  · rw [BlockGraph.goes_addSuccessors]
    refine or_iff_left ?_
    rintro ⟨-, rfl, -⟩
    exact hs _ hs'
  · rcases BlockGraph.goes_addSuccessors.1 hs' with hs' | ⟨-, rfl, ht⟩
    · exact Or.inl hs'
    · refine Or.inr ((exit ht).imp_left fun ho => ⟨a, d, code.ends.2 he, ho⟩)
  · refine (more ho).imp_right ?_
    rintro ⟨rfl, ht⟩
    exact ⟨block, d, code.ends.2 he, BlockGraph.goes_addSuccessors.2 (Or.inr ⟨he.isBlockStart, rfl, ht⟩)⟩

theorem comeFrom (hl : x.Linked g (x.Pending (item :: rest)))
    (ha : item.target.addressIn x.program = .ok (some a)) (hb : g.isBlockStart a = true) :
    x.Linked (g.comeFrom a item.origin) (x.Pending rest) := by
  cases ho : item.origin with
  | none =>
    refine hl.grow .refl Or.inl Or.inl (fun hp => Or.inl (pending_cons.2 (Or.inr hp))) fun hp => ?_
    rcases pending_cons.1 hp with ⟨ho', -⟩ | hp
    · rw [ho] at ho'
      cases ho'
    · exact Or.inl hp
  | some o =>
    have code : g.SameCode (g.addPredecessor a o) := BlockGraph.sameCode_addPredecessor
    refine hl.grow BlockGraph.keeps_addPredecessor (fun hp => ?_)
      (fun hs => Or.inl (BlockGraph.goes_addPredecessor.1 hs))
      (fun hp => Or.inl (pending_cons.2 (Or.inr hp))) fun hp => ?_
    · rcases BlockGraph.comes_addPredecessor.1 hp with hp | ⟨-, rfl, rfl⟩
      · exact Or.inl hp
      · obtain ⟨u, d, hd, hs⟩ := hl.pending (pending_cons.2 (Or.inl ⟨ho, ha⟩))
        exact Or.inr ⟨u, Or.inl ⟨BlockGraph.goes_addPredecessor.2 hs, d, code.ends.2 hd⟩⟩
    · rcases pending_cons.1 hp with ⟨ho', hu⟩ | hp
      · cases ha.symm.trans hu
        cases ho.symm.trans ho'
        exact Or.inr (Or.inl (BlockGraph.comes_addPredecessor.2 (Or.inr ⟨hb, rfl, rfl⟩)))
      · exact Or.inl hp

theorem makeStartIfDecoded (hl : x.Linked g P) (hg : g.Consistent)
    (hs : g.makeStartIfDecoded a = .ok h) : x.Linked h P := by
  rcases BlockGraph.makeStartIfDecoded_cases hs with ⟨-, rfl⟩ | ⟨s, -, -, hs⟩
  · exact hl
  · obtain ⟨b, before, after, hc⟩ := BlockGraph.cuts_of_split hs
    exact hl.cuts hg hc

/-- What control runs on to becomes pending when the running block ends there. -/
theorem leaveFor (hl : x.Linked s.graph (x.Pending s.waiting)) (hs : x.Sound s)
    (hw : s.work = item :: rest) (ha : item.target.addressIn x.program = .ok (some a)) :
    x.Linked (s.graph.leaveFor s.current a) (x.Pending (item :: rest)) := by
  rcases waiting_cons hw with ⟨hc, hw'⟩ | ⟨⟨c, hc⟩, hw'⟩
  · rw [hc]
    exact hw' ▸ hl
  · obtain ⟨b, d, last, next, rest', hr, hw''⟩ := hs.runs hc
    cases hw.symm.trans hw''
    rw [hw'] at hl
    rw [hc]
    show x.Linked (s.graph.addSuccessors c [a]) _
    refine hl.addSuccessors ⟨b, hr.found, hr.ends⟩ ?_ (fun hp => pending_cons.2 (Or.inr hp))
      (fun hp => ?_) fun ht => Or.inl (pending_cons.2 (Or.inl ⟨rfl, ?_⟩))
    · rintro t ⟨b', hb', ht⟩
      obtain rfl : b = b' := Option.some.inj (hr.found.symm.trans hb')
      exact hr.stays t ht
    · rcases pending_cons.1 hp with ⟨ho, hu⟩ | hp
      · cases ha.symm.trans hu
        exact Or.inr ⟨(Option.some.inj ho).symm, List.mem_singleton.2 rfl⟩
      · exact Or.inl hp
    · rw [List.mem_singleton.1 ht]
      exact ha

/-- What a transfer leaves pending is what control may go to. -/
theorem pending_transfer {targets : List Target} {flow : Flow} {next o u : Address}
    (hp : x.Pending (workBehind flow a next ++ rest ++ targets.map fun t => ⟨t, some a⟩) o u) :
    x.Pending rest o u ∨ o = a ∧ x.IsExit targets flow next u := by
  obtain ⟨item, hi, ho, hu⟩ := hp
  simp only [List.mem_append, List.mem_map, workBehind] at hi
  rcases hi with (hi | hi) | ⟨t, ht, rfl⟩
  · split at hi
    · cases hi
    next stops =>
      cases List.mem_singleton.1 hi
      exact Or.inr ⟨(Option.some.inj ho).symm, Or.inr ⟨by simpa using stops, eq_of_addressIn_address hu⟩⟩
  · exact Or.inl ⟨item, hi, ho, hu⟩
  · exact Or.inr ⟨(Option.some.inj ho).symm, Or.inl ⟨t, ht, hu⟩⟩

theorem pending_exit {targets : List Target} {flow : Flow} {next u : Address}
    (he : x.IsExit targets flow next u) :
    x.Pending (workBehind flow a next ++ rest ++ targets.map fun t => ⟨t, some a⟩) a u ∨ ¬x.Maps u := by
  rcases he with ⟨t, ht, hu⟩ | ⟨stops, rfl⟩
  · exact Or.inl ⟨⟨t, some a⟩, by simp [ht], rfl, hu⟩
  · by_cases hm : x.Maps u
    · exact Or.inl ⟨⟨.address u, some a⟩, by simp [workBehind, stops], rfl, addressIn_address hm⟩
    · exact Or.inr hm

theorem starting (hl : x.Linked g fun _ _ => False) (entry : Target) :
    x.Linked g (x.Pending (Exploration.starting g entry).waiting) := by
  have none : ∀ {o u}, ¬x.Pending (Exploration.starting g entry).waiting o u := by
    rintro o u ⟨item, hi, ho, -⟩
    cases List.mem_singleton.1 hi
    cases ho
  exact hl.grow .refl Or.inl Or.inl (fun hp => (none hp).elim) False.elim

theorem stop (hl : x.Linked s.graph (x.Pending s.waiting)) (hw : s.work = []) :
    x.Linked s.graph fun _ _ => False := by
  have none : ∀ {o u}, ¬x.Pending s.waiting o u := by
    rintro o u ⟨item, hi, -, -⟩
    unfold Exploration.waiting at hi
    rw [hw] at hi
    split at hi <;> cases hi
  exact hl.grow .refl Or.inl Or.inl False.elim fun hp => (none hp).elim

theorem step (hl : x.Linked s.graph (x.Pending s.waiting)) (hs : x.Sound s)
    (hw : s.work = item :: rest) (ht : x.Takes s item rest t) :
    x.Linked t.graph (x.Pending t.waiting) := by
  cases ht with
  | unresolved ha =>
    refine hl.skip hw fun ha' => ?_
    cases ha.symm.trans ha'
  | unmapped ha hv hd =>
    refine hl.skip hw fun ha' hm => ?_
    cases ha.symm.trans ha'
    obtain ⟨d, hd'⟩ := hm
    cases hd.symm.trans hd'
  | @revisited a g ha hv hm =>
    have left : s.graph.SameCode (s.graph.leaveFor s.current a) := BlockGraph.sameCode_leaveFor
    have hl := (hl.leaveFor hs hw ha).makeStartIfDecoded (hs.consistent.sameCode left) hm
    exact hl.comeFrom ha (BlockGraph.isBlockStart_makeStartIfDecoded (left.isVisited ▸ hv) hm)
  | invalid ha hv => exact hl.room hw ha hv
  | @plain a next d flow g ha hv hd hf htr hn hp =>
    obtain ⟨-, b, hr⟩ := hs.steady.ready hw ha hv
    have := (hl.room hw ha hv).append hr hp
    cases stops : flow.stops <;> simpa [Exploration.waiting, workBehind, stops] using this
  | @transfer a next d flow g targets exits ha hv hd hf htr hn hp hj hx =>
    obtain ⟨hg, b, hr⟩ := hs.steady.ready hw ha hv
    have ends := (hr.ends_append hg hp).2 (Or.inl ⟨rfl, rfl, rfl⟩)
    refine ((hl.room hw ha hv).append hr hp).addSuccessors ends ?_ (fun ho => ho.mono ?_) (fun ho => ?_)
      fun he => pending_exit ((hx _).1 he)
    · rintro t ht
      obtain ⟨b', hb', ht⟩ := (hr.goes_append hp).1 ht
      obtain rfl : b = b' := Option.some.inj (hr.found.symm.trans hb')
      exact hr.stays t ht
    · intro _ hi
      exact List.mem_append_left _ (List.mem_append_right _ hi)
    · refine (pending_transfer ho).imp_right fun he => ?_
      exact ⟨he.1, (hx _).2 he.2⟩

end Linked

/-- In the end a block starts wherever control goes and something is decoded. -/
theorem Linked.isBlockStart {s t : Address} (hl : x.Linked g fun _ _ => False) (hs : g.Goes s t)
    (hm : x.Maps t) : g.isBlockStart t = true := by
  rcases hl.goes hs with ⟨p, ⟨b, hb, -⟩, -⟩ | ⟨_, _, _, none⟩ | hn
  · exact BlockGraph.isBlockStart_iff.2 ⟨b, hb⟩
  · exact none.elim
  · exact absurd hm hn

theorem linked_invariant : x.Invariant
    (fun _ g => (g.Consistent ∧ x.Faithful g) ∧ x.Linked g fun _ _ => False)
    (fun _ s => x.Sound s ∧ x.Linked s.graph (x.Pending s.waiting)) where
  empty := by
    refine ⟨⟨.empty, .empty⟩, ?_, ?_, False.elim⟩
    · rintro p t ⟨b, hb, -⟩
      simp at hb
    · rintro s t ⟨b, hb, -⟩
      simp at hb
  start entry hg := ⟨.starting hg.1.1 hg.1.2 entry, hg.2.starting entry⟩
  step _ hs hw ht := ⟨hs.1.step hw ht, hs.2.step hs.1 hw ht⟩
  stop hs hw := ⟨⟨hs.1.consistent, hs.1.faithful⟩, hs.2.stop hw⟩
  cut _ hg hs := ⟨⟨hg.1.1.makeStartIfDecoded hs, hg.1.2.makeStartIfDecoded hg.1.1 hs⟩,
    hg.2.makeStartIfDecoded hg.1.1 hs⟩

/-- Where control comes from and where it goes match in the graphs that explorations make just when no
predecessor is stale. A stale one still leads to the block, by way of those that control falls through,
and every way into a block has a predecessor that leads there by it. -/
theorem edges_match {g : BlockGraph} (hp : x.Produced g) :
    (∀ {p t}, g.Comes p t → (∃ s, g.Edge p s t) ∧
      ((∃ s, g.owner? p = some s ∧ g.Goes s t) ↔ ¬g.Stale p t)) ∧
    (∀ {s t}, g.Goes s t → g.isBlockStart t = true →
      ∃ p, g.Comes p t ∧ g.Edge p s t ∧ (g.owner? p = some s ∨ g.Stale p t)) ∧
    (g.Matched ↔ ∀ p t, ¬g.Stale p t) := by
  obtain ⟨entries, he⟩ := hp
  obtain ⟨⟨hg, hf⟩, hl⟩ := linked_invariant.exploreAll he
  have comes : ∀ {p t}, g.Comes p t → (∃ s, g.Edge p s t) ∧
      ((∃ s, g.owner? p = some s ∧ g.Goes s t) ↔ ¬g.Stale p t) := by
    intro p t hp
    obtain ⟨s, he⟩ := hl.comes hp
    exact ⟨⟨s, he⟩, he.owner_goes_iff hg hp⟩
  have goes : ∀ {s t}, g.Goes s t → g.isBlockStart t = true →
      ∃ p, g.Comes p t ∧ g.Edge p s t ∧ (g.owner? p = some s ∨ g.Stale p t) := by
    intro s t hs ht
    obtain ⟨b, hb⟩ := BlockGraph.isBlockStart_iff.1 ht
    rcases hl.goes hs with ⟨p, hp, he⟩ | ⟨_, _, _, none⟩ | hm
    · exact ⟨p, hp, he, he.owner_or_stale hg hp⟩
    · exact none.elim
    · exact absurd (hf.maps hg hb) hm
  refine ⟨comes, goes, fun hm p t hs => ?_, fun none => ⟨fun hp => (comes hp).2.2 (none _ _), ?_⟩⟩
  · exact (comes hs.1).2.1 (hm.comes hs.1) hs
  · intro s t hs ht
    obtain ⟨p, hp, -, owned | stale⟩ := goes hs ht
    · exact ⟨p, hp, owned⟩
    · exact absurd stale (none p t)

/-- Straight code that is split at its third instruction, and then at its second. -/
theorem straight_code_split_twice : ∃ g,
    (Toy.explorer [0x00, 0x00, 0x00, 0xc3]).exploreAll .empty
        [.address 0x1000, .address 0x1002, .address 0x1001] = .ok g ∧
      g.owner? 0x1000 = some 0x1000 ∧ g.isBlockStart 0x1002 = true ∧
      (∀ t, g.Goes 0x1000 t ↔ t = 0x1001) ∧ (∀ t, g.Goes 0x1001 t ↔ t = 0x1002) ∧
      ∀ p, g.Comes p 0x1002 ↔ p = 0x1000 := by
  have run : (do
      let g : BlockGraph ← (Toy.explorer [0x00, 0x00, 0x00, 0xc3]).exploreAll .empty
        [.address 0x1000, .address 0x1002, .address 0x1001]
      let goes (s : Address) := (g.block? s).map fun b : Block => b.successors.toList
      let comes (t : Address) := (g.block? t).map fun b : Block => b.predecessors.toList
      return (g.owner? 0x1000, g.isBlockStart 0x1002, goes 0x1000, goes 0x1001, comes 0x1002)) =
      .ok (some 0x1000, true, some [0x1001], some [0x1002], some [0x1000]) := by
    cbv
  obtain ⟨g, hg, run⟩ := bind_eq_ok.1 run
  simp only [pure, Except.pure, Except.ok.injEq, Prod.mk.injEq] at run
  obtain ⟨ho, hb, h₁, h₂, h₃⟩ := run
  refine ⟨g, hg, ho, hb, fun t => ?_, fun t => ?_, fun p => ?_⟩
  · rw [BlockGraph.goes_iff_mem h₁, List.mem_singleton]
  · rw [BlockGraph.goes_iff_mem h₂, List.mem_singleton]
  · rw [BlockGraph.comes_iff_mem h₃, List.mem_singleton]

/-- Control comes to the third instruction from a block that goes only to the second, and the block that
goes to the third has nothing that control comes from. -/
theorem split_twice_unmatched : ∃ g,
    (Toy.explorer [0x00, 0x00, 0x00, 0xc3]).exploreAll .empty
        [.address 0x1000, .address 0x1002, .address 0x1001] = .ok g ∧
      ¬(∀ p t, g.Comes p t → ∃ s, g.owner? p = some s ∧ g.Goes s t) ∧
      ¬∀ s t, g.Goes s t → g.isBlockStart t = true → ∃ p, g.Comes p t ∧ g.owner? p = some s := by
  obtain ⟨g, hg, ho, hb, h₁, h₂, h₃⟩ := straight_code_split_twice
  refine ⟨g, hg, fun comes => ?_, fun goes => ?_⟩
  · obtain ⟨s, hs, ht⟩ := comes 0x1000 0x1002 ((h₃ _).2 rfl)
    cases ho.symm.trans hs
    exact absurd ((h₁ _).1 ht) (by decide)
  · obtain ⟨p, hp, hs⟩ := goes 0x1001 0x1002 ((h₂ _).2 rfl) hb
    rw [(h₃ _).1 hp, ho] at hs
    exact absurd (Option.some.inj hs) (by decide)

theorem split_twice_edges_match : ∃ g,
    (Toy.explorer [0x00, 0x00, 0x00, 0xc3]).exploreAll .empty
        [.address 0x1000, .address 0x1002, .address 0x1001] = .ok g ∧
      (∃ s, g.Edge 0x1000 s 0x1002) ∧ g.Stale 0x1000 0x1002 ∧
      (∃ p, g.Comes p 0x1002 ∧ g.Edge p 0x1001 0x1002) ∧ ¬g.Matched := by
  obtain ⟨g, hg, ho, hb, h₁, h₂, h₃⟩ := straight_code_split_twice
  obtain ⟨comes, goes, matched⟩ := edges_match ⟨_, hg⟩
  have stale : g.Stale 0x1000 0x1002 := by
    by_contra fresh
    obtain ⟨s, hs, ht⟩ := (comes ((h₃ _).2 rfl)).2.2 fresh
    cases ho.symm.trans hs
    exact absurd ((h₁ _).1 ht) (by decide)
  obtain ⟨p, hp, he, -⟩ := goes ((h₂ _).2 rfl) hb
  exact ⟨g, hg, (comes ((h₃ _).2 rfl)).1, stale, ⟨p, hp, he⟩, fun hm => matched.1 hm _ _ stale⟩

end Explorer

end ReachableCode
