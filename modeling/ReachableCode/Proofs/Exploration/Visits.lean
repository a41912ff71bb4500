import ReachableCode.Proofs.Exploration.Sound
import ReachableCode.Proofs.Graph.Edges

/-!
What a step does to the addresses that are decoded and to where transfers lead, whatever it does to
blocks: it drops its target, or it decodes the target, which then leads to its exits and leaves them
as work.
-/

namespace ReachableCode

namespace BlockGraph

/-- A block that the transfer at `a` ends goes to `t`. -/
def Leads (g : BlockGraph) (a t : Address) : Prop :=
  ∃ s d f, g.Ends s a d ∧ d.flow = some f ∧ f.transfers = true ∧ g.Goes s t

variable {g h : BlockGraph} {a block old new s t u v : Address} {b : Block} {d : Decoded}
  {before after : List Decoded} {origin : Option Address}

theorem leads_congr (goes : ∀ {s t}, h.Goes s t ↔ g.Goes s t)
    (ends : ∀ {s t a d}, g.Goes s t → (h.Ends s a d ↔ g.Ends s a d)) :
    h.Leads u v ↔ g.Leads u v := by
  constructor
  · rintro ⟨s, d, f, hd, hf, ht, hs⟩
    exact ⟨s, d, f, (ends (goes.1 hs)).1 hd, hf, ht, goes.1 hs⟩
  · rintro ⟨s, d, f, hd, hf, ht, hs⟩
    exact ⟨s, d, f, (ends hs).2 hd, hf, ht, goes.2 hs⟩

theorem Leads.isDecoded (hl : g.Leads a t) (hg : g.Consistent) : g.isDecoded a = true := by
  obtain ⟨s, d, f, hd, -⟩ := hl
  exact isDecoded_iff.2 ⟨s, hd.owner hg⟩

theorem leads_openAt (hv : g.block? a = none) : (g.openAt a origin).Leads u v ↔ g.Leads u v :=
  leads_congr (goes_openAt hv) fun _ => ends_openAt hv

theorem Ready.leads_append (hr : g.Ready block a b) (hg : g.Consistent)
    (hp : g.append block a d = .ok h) : h.Leads u v ↔ g.Leads u v := by
  refine leads_congr (hr.goes_append hp) fun {s t _ _} hs => ?_
  have : s ≠ block := by
    rintro rfl
    obtain ⟨b', hb', ht⟩ := hs
    obtain rfl : b = b' := Option.some.inj (hr.found.symm.trans hb')
    exact hr.stays t ht
  rw [hr.ends_append hg hp]
  simp [this]

/-- New ways out of a block are where its last instruction leads, if it is a transfer. -/
theorem leads_addSuccessors {targets : List Address} {f : Flow} (he : g.Ends block a d)
    (hf : d.flow = some f) : (g.addSuccessors block targets).Leads u v ↔
      g.Leads u v ∨ u = a ∧ f.transfers = true ∧ v ∈ targets := by
  have code : g.SameCode (g.addSuccessors block targets) := sameCode_addSuccessors
  constructor
  · rintro ⟨s, d', f', hd, hf', ht, hs⟩
    rcases goes_addSuccessors.1 hs with hs | ⟨-, rfl, hv⟩
    · exact Or.inl ⟨s, d', f', code.ends.1 hd, hf', ht, hs⟩
    · obtain ⟨rfl, rfl⟩ := (code.ends.1 hd).unique he
      cases hf.symm.trans hf'
      exact Or.inr ⟨rfl, ht, hv⟩
  · intro hl
    rcases hl with ⟨s, d', f', hd, hf', ht, hs⟩ | ⟨rfl, ht, hv⟩
    · exact ⟨s, d', f', code.ends.2 hd, hf', ht, goes_addSuccessors.2 (Or.inl hs)⟩
    · exact ⟨block, d, f, code.ends.2 he, hf, ht, goes_addSuccessors.2 (Or.inr ⟨he.isBlockStart, rfl, hv⟩)⟩

theorem leads_comeFrom : (g.comeFrom block origin).Leads u v ↔ g.Leads u v := by
  cases origin with
  | none => rfl
  | some o => exact leads_congr goes_addPredecessor fun _ => sameCode_addPredecessor.ends

theorem Cuts.leads (hc : g.Cuts old new b before after h) (hg : g.Consistent) :
    h.Leads u v ↔ g.Leads u v := by
  constructor
  · rintro ⟨s, d, f, hd, hf, ht, hs⟩
    rcases hc.goes_cases hg hs with ⟨rfl, rfl⟩ | ⟨s, rfl, hu⟩
    · -- the head ends in an instruction that does not transfer control
      obtain ⟨a, e, he, hr⟩ := (hc.falls_head hg).runsOn
      obtain ⟨-, rfl⟩ := hd.unique he
      obtain ⟨f', hf', ht', -⟩ := hr.flow
      cases hf.symm.trans hf'
      rw [ht] at ht'
      cases ht'
    · exact ⟨s, d, f, (hc.ends_rear hg hu).1 hd, hf, ht, hu⟩
  · rintro ⟨s, d, f, hd, hf, ht, hs⟩
    exact ⟨_, d, f, (hc.ends_rear hg hs).2 hd, hf, ht, hc.goes_rear hg hs⟩

/-- Making a block start changes neither what is decoded nor where it leads. -/
theorem same_makeStartIfDecoded (hg : g.Consistent) (hs : g.makeStartIfDecoded a = .ok h) :
    (∀ u, h.isDecoded u = g.isDecoded u) ∧ ∀ u v, h.Leads u v ↔ g.Leads u v := by
  rcases makeStartIfDecoded_cases hs with ⟨-, rfl⟩ | ⟨s, -, -, hs⟩
  · exact ⟨fun _ => rfl, fun _ _ => Iff.rfl⟩
  · obtain ⟨b, before, after, hc⟩ := cuts_of_split hs
    exact ⟨fun _ => hc.isDecoded hg, fun _ _ => hc.leads hg⟩

end BlockGraph

namespace Explorer

/-- An instruction lies at `a`. -/
def Decodes (x : Explorer) (a : Address) : Prop :=
  ∃ d, x.decodeAt a = .ok (some d) ∧ d.isValid = true

/-- The two things a step does to what is decoded. -/
inductive Visits (x : Explorer) (s : Exploration) (item : WorkItem) (rest : List WorkItem)
    (t : Exploration) : Prop
  /-- The target is decoded already, or no instruction lies there. -/
  | drops : (∀ a, item.target.addressIn x.program = .ok (some a) → x.Decodes a →
        s.graph.isDecoded a = true) →
      t.work = rest → (∀ u, t.graph.isDecoded u = s.graph.isDecoded u) →
      (∀ u v, t.graph.Leads u v ↔ s.graph.Leads u v) → Visits x s item rest t
  /-- The target is decoded, and its targets are looked for if it transfers control. -/
  | decodes {a next : Address} {d : Decoded} {f : Flow} {targets : List Target} :
      item.target.addressIn x.program = .ok (some a) → s.graph.isVisited a = false →
      x.decodeAt a = .ok (some d) → d.flow = some f → Address.plus a d.size = .ok next →
      (f.transfers = true → ∃ g, (s.room a item.origin).2.append (s.room a item.origin).1 a d = .ok g ∧
        x.jumpTargets g a = .ok targets) →
      t.work = workBehind f a next ++ rest ++
        (if f.transfers then targets.map fun t => { target := t, origin := some a } else []) →
      (∀ u, t.graph.isDecoded u = true ↔ s.graph.isDecoded u = true ∨ u = a) →
      (∀ u v, t.graph.Leads u v ↔
        s.graph.Leads u v ∨ u = a ∧ f.transfers = true ∧ x.IsExit targets f next v) →
      Visits x s item rest t

variable {x : Explorer} {s t : Exploration} {item : WorkItem} {rest : List WorkItem}
  {g h : BlockGraph} {a u v : Address} {d : Decoded} {origin : Option Address}

theorem leads_room (hv : s.graph.isVisited a = false) :
    (s.room a origin).2.Leads u v ↔ s.graph.Leads u v := by
  obtain ⟨-, hb⟩ := BlockGraph.isVisited_eq_false.1 hv
  unfold Exploration.room
  split
  · rfl
  · exact BlockGraph.leads_openAt hb

namespace Sound

theorem leads_leaveFor (hs : x.Sound s) :
    (s.graph.leaveFor s.current a).Leads u v ↔ s.graph.Leads u v := by
  cases hc : s.current with
  | none => rfl
  | some block =>
    obtain ⟨b, d, last, next, rest, hr, -⟩ := hs.runs hc
    obtain ⟨f, hf, ht, -⟩ := hr.flow
    have := @BlockGraph.leads_addSuccessors s.graph last block u v d [a] f ⟨b, hr.found, hr.ends⟩ hf
    simpa [BlockGraph.leaveFor, ht] using this

theorem visits (hs : x.Sound s) (hw : s.work = item :: rest) (ht : x.Takes s item rest t) :
    x.Visits s item rest t := by
  cases ht with
  | unresolved ha =>
    refine .drops (fun a ha' => ?_) rfl (fun _ => rfl) fun _ _ => Iff.rfl
    cases ha.symm.trans ha'
  | unmapped ha hv hd =>
    refine .drops (fun a ha' hm => ?_) rfl (fun _ => rfl) fun _ _ => Iff.rfl
    cases ha.symm.trans ha'
    obtain ⟨d, hd', -⟩ := hm
    cases hd.symm.trans hd'
  | @revisited a g ha hv hm =>
    have left : s.graph.SameCode (s.graph.leaveFor s.current a) := BlockGraph.sameCode_leaveFor
    obtain ⟨decoded, leads⟩ := BlockGraph.same_makeStartIfDecoded (hs.consistent.sameCode left) hm
    refine .drops (fun a' ha' hm' => ?_) rfl (fun u => ?_) fun u v => ?_
    · cases ha.symm.trans ha'
      rcases BlockGraph.isVisited_iff.1 hv with owned | ⟨b, hb⟩
      · exact BlockGraph.isDecoded_iff.2 owned
      · by_cases hi : b.instructions = []
        · obtain ⟨d, hd, hn⟩ := hs.faithful.invalid hb hi
          obtain ⟨d', hd', hval⟩ := hm'
          cases hd.symm.trans hd'
          rw [hn] at hval
          cases hval
        · exact BlockGraph.isDecoded_iff.2 ⟨a, hs.consistent.owner_start hb hi⟩
    · rw [BlockGraph.sameCode_comeFrom.isDecoded, decoded, left.isDecoded]
    · rw [BlockGraph.leads_comeFrom, leads, hs.leads_leaveFor]
  | @invalid a d ha hv hd hf =>
    refine .drops (fun a' ha' hm => ?_) rfl (fun u => by simp) fun u v => leads_room hv
    cases ha.symm.trans ha'
    obtain ⟨d', hd', hval⟩ := hm
    cases hd.symm.trans hd'
    simp [Decoded.isValid, hf] at hval
  | @plain a next d f g ha hv hd hf htr hn hp =>
    obtain ⟨hg, b, hr⟩ := hs.steady.ready hw ha hv
    have none : f.transfers = true →
        ∃ g, (s.room a item.origin).2.append (s.room a item.origin).1 a d = .ok g ∧
          x.jumpTargets g a = .ok [] := by
      intro h
      rw [htr] at h
      cases h
    refine .decodes ha hv hd hf hn none (by simp [htr]) (fun u => ?_) fun u v => ?_
    · rw [hr.isDecoded_append hp, Exploration.isDecoded_room]
    · rw [hr.leads_append hg hp, leads_room hv]
      simp [htr]
  | @transfer a next d f g targets exits ha hv hd hf htr hn hp hj hx =>
    obtain ⟨hg, b, hr⟩ := hs.steady.ready hw ha hv
    have ends := (hr.ends_append hg hp).2 (Or.inl ⟨rfl, rfl, rfl⟩)
    refine .decodes ha hv hd hf hn (fun _ => ⟨g, hp, hj⟩) (by simp [htr]) (fun u => ?_) fun u v => ?_
    · rw [BlockGraph.sameCode_addSuccessors.isDecoded, hr.isDecoded_append hp, Exploration.isDecoded_room]
    · rw [BlockGraph.leads_addSuccessors ends hf, hr.leads_append hg hp, leads_room hv, hx]

end Sound

/-- The graph in which targets are looked for has the transfer at the end of a block. -/
theorem Consults.ends (hc : x.Consults a g) (hd : x.decodeAt a = .ok (some d)) :
    g.Consistent ∧ ∃ block, g.Ends block a d := by
  obtain ⟨hr, hw, ha, hv, hd', -, hn, hp⟩ := hc
  cases hd.symm.trans hd'
  have hs : x.Sound _ := sound_invariant.running hr
  obtain ⟨hg, b, hready⟩ := hs.steady.ready hw ha hv
  exact ⟨hg.append hready hn hp, _, (hready.ends_append hg hp).2 (Or.inl ⟨rfl, rfl, rfl⟩)⟩

end Explorer

end ReachableCode
