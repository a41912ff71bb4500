import ReachableCode.Proofs.Exploration.Visits

/-!
Where control goes from a block is told by its last instruction. A block that control stops at goes
nowhere, one that ends in a transfer goes to the targets found when that was decoded, and any other goes
to what lies behind it, if an instruction lies there. Only the block that control still runs on from has
nowhere to go yet, and it gets there when the next target is taken. Cutting a block keeps this.
-/

namespace ReachableCode

open Relation (ReflTransGen)

theorem Block.EndsWith.plus_eq_ok {b : Block} {a stop : Address} {d : Decoded} (he : b.EndsWith a d) :
    Address.plus a d.size = .ok stop ↔ Block.Spans b.start b.instructions stop := by
  obtain ⟨before, hb, hs⟩ := he
  simp only [hb, Block.Spans, Block.byteCount_append, Block.byteCount_cons, Block.byteCount_nil,
    Address.plus_eq_ok] at *
  omega

namespace BlockGraph

/-- The second graph is the first one with a block cut, or with an address made the start of one. -/
def CutInto (g h : BlockGraph) : Prop :=
  (∃ a, g.makeStart a = .ok h) ∨ ∃ old new, g.split old new = .ok h

variable {g h : BlockGraph} {s t : Address} {b : Block}

/-- What every cut keeps holds however blocks are cut. -/
theorem cut_induction {P : BlockGraph → Prop} (cuts : ∀ {g h old new b before after},
    P g → g.Cuts old new b before after h → P h) (hg : P g) (hc : ReflTransGen CutInto g h) : P h := by
  have split : ∀ {g h old new}, P g → g.split old new = .ok h → P h := by
    intro g h old new hg hs
    obtain ⟨b, before, after, hc⟩ := cuts_of_split hs
    exact cuts hg hc
  induction hc with
  | refl => exact hg
  | tail _ hc ih =>
    rcases hc with ⟨a, hm⟩ | ⟨old, new, hs⟩
    · rcases makeStart_cases hm with ⟨-, rfl⟩ | ⟨s, -, -, hs⟩
      · exact ih
      · exact split ih hs
    · exact split ih hs

theorem goes_iff (hb : g.block? s = some b) : g.Goes s t ↔ t ∈ b.successors := by
  simp [Goes, hb]

end BlockGraph

namespace Explorer

/-- While the entries are explored one after another, the instruction at `a` is taken into a block, and
`g` is the graph then, in which its targets are looked for if it transfers control. -/
inductive Took (x : Explorer) (entries : List Target) (a : Address) (g : BlockGraph) : Prop
  | intro {done : List Target} {s : Exploration} {item : WorkItem} {rest : List WorkItem}
      {d : Decoded} {next : Address} :
      done <+: entries → x.Running done s → s.work = item :: rest →
      item.target.addressIn x.program = .ok (some a) → s.graph.isVisited a = false →
      x.decodeAt a = .ok (some d) → d.isValid = true → Address.plus a d.size = .ok next →
      (s.room a item.origin).2.append (s.room a item.origin).1 a d = .ok g → Took x entries a g

/-- Where control goes from a block that the instruction `d` at `a` ends. -/
inductive LeftBy (x : Explorer) (entries : List Target) (a : Address) (d : Decoded)
    (goes : Address → Prop) : Prop
  | stop {f : Flow} : d.flow = some f → f.transfers = false → f.stops = true → (∀ t, ¬goes t) →
      LeftBy x entries a d goes
  | plain {f : Flow} {next : Address} : d.flow = some f → f.transfers = false → f.stops = false →
      Address.plus a d.size = .ok next → (∀ t, goes t → t = next) → (x.Decodes next → goes next) →
      LeftBy x entries a d goes
  | transfer {f : Flow} {next : Address} {k : BlockGraph} {targets : List Target} :
      d.flow = some f → f.transfers = true → Address.plus a d.size = .ok next → x.Took entries a k →
      x.jumpTargets k a = .ok targets → (∀ t, goes t ↔ x.IsExit targets f next t) →
      LeftBy x entries a d goes

/-- Control goes nowhere from blocks without instructions, and from all others, but for the one that it
runs on from, as their last instructions tell. -/
structure Settled (x : Explorer) (entries : List Target) (g : BlockGraph) (running : Option Address) :
    Prop where
  empty : ∀ {s b t}, g.block? s = some b → b.instructions = [] → ¬g.Goes s t
  exits : ∀ {s a d}, g.Ends s a d → running ≠ some s → x.LeftBy entries a d (g.Goes s)

/-- Only the last instruction of a block takes control elsewhere, and it tells where to. -/
structure ExitsAtEnd (x : Explorer) (entries : List Target) (g : BlockGraph) (b : Block) : Prop where
  /-- Control passes all instructions but the last. -/
  inner : ∀ d ∈ b.instructions.dropLast, ∃ f, d.flow = some f ∧ f.transfers = false ∧ f.stops = false
  last : b.instructions ≠ [] → ∃ a d f, b.EndsWith a d ∧ d.flow = some f
  empty : b.instructions = [] → b.successors = ∅
  stop : ∀ {a d f}, b.EndsWith a d → d.flow = some f → f.transfers = false → f.stops = true →
    b.successors = ∅
  /-- Control goes on behind the block, which has an edge for it if what lies there was decoded. -/
  plain : ∀ {a d f}, b.EndsWith a d → d.flow = some f → f.transfers = false → f.stops = false →
    ∃ next, b.endAddress = .ok next ∧ (∀ t ∈ b.successors, t = next) ∧
      (g.isDecoded next = true → b.successors = {next})
  /-- Control goes to the targets found when the transfer was decoded, and behind it unless it stops. -/
  transfer : ∀ {a d f}, b.EndsWith a d → d.flow = some f → f.transfers = true →
    ∃ k targets next, x.Took entries a k ∧ x.jumpTargets k a = .ok targets ∧ b.endAddress = .ok next ∧
      ∀ t, t ∈ b.successors ↔
        (∃ c ∈ targets, c.addressIn x.program = .ok (some t)) ∨ f.stops = false ∧ t = next

variable {x : Explorer} {s t : Exploration} {item : WorkItem} {rest : List WorkItem}
  {entries more : List Target} {g h : BlockGraph} {a block old new last next : Address} {b : Block}
  {d : Decoded} {origin running : Option Address} {before after : List Decoded}
  {goes goes' : Address → Prop}

/-- Control runs on from the end of the running block to the next target, and goes nowhere yet. -/
theorem Sound.runsOnTo (hs : x.Sound s) (hw : s.work = item :: rest) (hc : s.current = some block) :
    ∃ last d f next, item.target = .address next ∧ s.graph.Ends block last d ∧ d.flow = some f ∧
      f.transfers = false ∧ f.stops = false ∧ Address.plus last d.size = .ok next ∧
      ∀ t, ¬s.graph.Goes block t := by
  obtain ⟨b, d, last, next, rest', hr, hw'⟩ := hs.runs hc
  cases hw.symm.trans hw'
  obtain ⟨f, hf, ht, hstop⟩ := hr.flow
  refine ⟨last, d, f, next, rfl, ⟨b, hr.found, hr.ends⟩, hf, ht, hstop, ?_, fun t hu => ?_⟩
  · rw [hr.ends.plus_eq_ok, hs.consistent.start_eq hr.found]
    exact hr.spans
  · exact hr.stays t ((BlockGraph.goes_iff hr.found).1 hu)

theorem LeftBy.mono (hl : x.LeftBy entries a d goes) (he : entries <+: more) :
    x.LeftBy more a d goes := by
  cases hl with
  | stop hf ht hs none => exact .stop hf ht hs none
  | plain hf ht hs hn only on => exact .plain hf ht hs hn only on
  | transfer hf ht hn hk hj exit =>
    obtain ⟨hp, hr, hw, ha, hv, hd, hval, hn', happ⟩ := hk
    exact .transfer hf ht hn ⟨hp.trans he, hr, hw, ha, hv, hd, hval, hn', happ⟩ hj exit

/-- Control goes on behind a plain instruction, if an instruction lies there. -/
theorem LeftBy.goes_next (hl : x.LeftBy entries a d goes) {f : Flow} (hf : d.flow = some f)
    (ht : f.transfers = false) (hs : f.stops = false) (hn : Address.plus a d.size = .ok next)
    (hd : x.Decodes next) : goes next := by
  cases hl with
  | stop hf' _ hs' => simp [Option.some.inj (hf'.symm.trans hf), hs] at hs'
  | plain _ _ _ hn' _ on =>
    cases hn.symm.trans hn'
    exact on hd
  | transfer hf' ht' => simp [Option.some.inj (hf'.symm.trans hf), ht] at ht'

theorem LeftBy.congr (hl : x.LeftBy entries a d goes) (same : ∀ t, goes' t ↔ goes t) :
    x.LeftBy entries a d goes' := by
  obtain rfl : goes' = goes := by
    funext t
    exact propext (same t)
  exact hl

namespace Settled

theorem none_of_some (hs : x.Settled entries g none) : x.Settled entries g (some block) where
  empty := hs.empty
  exits he _ := hs.exits he nofun

theorem mono (hs : x.Settled entries g running) (he : entries <+: more) :
    x.Settled more g running where
  empty := hs.empty
  exits hd hr := (hs.exits hd hr).mono he

/-- The running block is settled when it is left as its last instruction tells. -/
theorem close (hs : x.Settled entries g (some block)) (he : g.Ends block a d)
    (hl : x.LeftBy entries a d (g.Goes block)) : x.Settled entries g none where
  empty := hs.empty
  exits {u _ _} he' _ := by
    by_cases e : block = u
    · subst e
      obtain ⟨rfl, rfl⟩ := he'.unique he
      exact hl
    · exact hs.exits he' fun e' => e (Option.some.inj e')

theorem sameCode (hs : x.Settled entries g running) (code : g.SameCode h)
    (goes : ∀ {s t}, h.Goes s t ↔ g.Goes s t) : x.Settled entries h running where
  empty hb hi := by
    obtain ⟨c, hc, -, hi'⟩ := code.symm.exists_block hb
    rw [goes]
    exact hs.empty hc (hi'.trans hi)
  exits he hr := (hs.exits (code.ends.1 he) hr).congr fun _ => goes

theorem comeFrom (hs : x.Settled entries g running) : x.Settled entries (g.comeFrom block origin) running := by
  cases origin with
  | none => exact hs
  | some o => exact hs.sameCode BlockGraph.sameCode_addPredecessor BlockGraph.goes_addPredecessor

/-- New ways out of the running block leave all others settled. -/
theorem addSuccessors {targets : List Address} (hs : x.Settled entries g (some block))
    (he : g.Ends block a d) : x.Settled entries (g.addSuccessors block targets) (some block) where
  empty {u c _} hb hi := by
    have code : g.SameCode (g.addSuccessors block targets) := BlockGraph.sameCode_addSuccessors
    obtain ⟨c, hc, -, hi'⟩ := code.symm.exists_block hb
    intro hgoes
    rcases BlockGraph.goes_addSuccessors.1 hgoes with hgoes | ⟨-, rfl, -⟩
    · exact hs.empty hc (hi'.trans hi) hgoes
    · obtain ⟨b, hb, hend⟩ := he
      cases hc.symm.trans hb
      exact hend.has.ne_nil (hi'.trans hi)
  exits {u _ _} he' hr := by
    refine (hs.exits (BlockGraph.sameCode_addSuccessors.ends.1 he') hr).congr fun t => ?_
    rw [BlockGraph.goes_addSuccessors]
    refine or_iff_left ?_
    rintro ⟨-, rfl, -⟩
    exact hr rfl

theorem openAt (hs : x.Settled entries g none) (hv : g.block? a = none) :
    x.Settled entries (g.openAt a origin) none where
  empty {u c t} hc hi := by
    rw [BlockGraph.goes_openAt hv]
    rintro ⟨c', hc', ht⟩
    obtain ⟨c'', hc'', grows⟩ := (BlockGraph.keeps_openAt hv).grows hc'
    cases hc.symm.trans hc''
    exact hs.empty hc' ((grows.code ht).symm.trans hi) ⟨c', hc', ht⟩
  exits he _ := (hs.exits ((BlockGraph.ends_openAt hv).1 he) nofun).congr fun _ =>
    BlockGraph.goes_openAt hv

/-- The block that takes what is decoded next is the running one from then on. -/
theorem room (hs : x.Settled entries s.graph s.current) (hv : s.graph.isVisited a = false) :
    x.Settled entries (s.room a origin).2 (some (s.room a origin).1) := by
  obtain ⟨-, hb⟩ := BlockGraph.isVisited_eq_false.1 hv
  unfold Exploration.room
  split
  next block hc => exact hc ▸ hs
  next hc =>
    rw [hc] at hs
    exact (hs.openAt hb).none_of_some

theorem append (hs : x.Settled entries g (some block)) (hr : g.Ready block a b) (hg : g.Consistent)
    (hp : g.append block a d = .ok h) : x.Settled entries h (some block) where
  empty {u c t} hc hi := by
    rw [(hr.append hp).1] at hc
    split at hc
    · cases hc
      simp at hi
    · rw [hr.goes_append hp]
      exact hs.empty hc hi
  exits {u _ _} he hne := by
    rcases (hr.ends_append hg hp).1 he with ⟨rfl, -, -⟩ | ⟨-, he⟩
    · exact absurd rfl hne
    · exact (hs.exits he hne).congr fun _ => hr.goes_append hp

theorem cuts (hs : x.Settled entries g none) (hg : g.Consistent) (hc : g.Cuts old new b before after h) :
    x.Settled entries h none where
  empty {u c t} hu hi := by
    rcases hc.block?_cases hu with ⟨rfl, rfl⟩ | ⟨rfl, rfl⟩ | ⟨hn, ho, hu⟩
    · exact absurd hi hc.after_ne
    · exact absurd hi hc.before_ne
    · rw [hc.goes_iff hg]
      simp [hn, ho, hs.empty hu hi]
  exits {u a d} he _ := by
    by_cases hn : u = new
    · subst hn
      refine (hs.exits ((hc.ends_tail hg).1 he) nofun).congr fun t => ?_
      have none : ¬g.Goes u t := fun hu => hc.ne_new hg hu rfl
      simp [hc.goes_iff hg, hc.ne hg, none]
    · by_cases ho : u = old
      · -- the head falls into the tail
        subst ho
        have falls := hc.falls_head hg
        obtain ⟨a', d', he', hr⟩ := falls.runsOn
        obtain ⟨rfl, rfl⟩ := he.unique he'
        obtain ⟨f, hf, ht, hstop⟩ := hr.flow
        obtain ⟨c, hb, hend⟩ := falls.stops
        obtain ⟨c', hb', hlast⟩ := he
        cases hb.symm.trans hb'
        exact .plain hf ht hstop (hlast.plus_eq_ok.2 (Block.endAddress_eq_ok.1 hend))
          (fun t hu => (falls.goes t).1 hu) fun _ => (falls.goes new).2 rfl
      · refine (hs.exits ((hc.ends_other hg hn ho).1 he) nofun).congr fun t => ?_
        simp [hc.goes_iff hg, hn, ho]

theorem split (hs : x.Settled entries g none) (hg : g.Consistent) (hc : g.split old new = .ok h) :
    x.Settled entries h none := by
  obtain ⟨b, before, after, hc⟩ := BlockGraph.cuts_of_split hc
  exact hs.cuts hg hc

theorem makeStartIfDecoded (hs : x.Settled entries g none) (hg : g.Consistent)
    (hm : g.makeStartIfDecoded a = .ok h) : x.Settled entries h none := by
  rcases BlockGraph.makeStartIfDecoded_cases hm with ⟨-, rfl⟩ | ⟨s, -, -, hc⟩
  · exact hs
  · exact hs.split hg hc

/-! ### What a step settles -/

/-- Control goes nowhere from the running block if no instruction lies at the next target. -/
theorem drop (hs : x.Settled entries s.graph s.current) (hsound : x.Sound s) (hw : s.work = item :: rest)
    (hd : ∀ a, item.target.addressIn x.program = .ok (some a) → ¬x.Decodes a) :
    x.Settled entries s.graph none := by
  cases hc : s.current with
  | none => exact hc ▸ hs
  | some block =>
    obtain ⟨last, d, f, next, htarget, ends, hf, ht, hstop, hn, stays⟩ := hsound.runsOnTo hw hc
    rw [hc] at hs
    refine hs.close ends (.plain hf ht hstop hn (fun t hu => absurd hu (stays t)) fun hnext => ?_)
    obtain ⟨e, he, -⟩ := id hnext
    exact absurd hnext (hd next (htarget ▸ addressIn_address ⟨e, he⟩))

/-- Control goes from the running block to the next target. -/
theorem leaveFor (hs : x.Settled entries s.graph s.current) (hsound : x.Sound s)
    (hw : s.work = item :: rest) (ha : item.target.addressIn x.program = .ok (some a)) :
    x.Settled entries (s.graph.leaveFor s.current a) none := by
  cases hc : s.current with
  | none =>
    rw [hc] at hs
    exact hs
  | some block =>
    obtain ⟨last, d, f, next, htarget, ends, hf, ht, hstop, hn, stays⟩ := hsound.runsOnTo hw hc
    rw [htarget] at ha
    obtain rfl := eq_of_addressIn_address ha
    rw [hc] at hs
    have goes : ∀ t, (s.graph.addSuccessors block [a]).Goes block t ↔ t = a := by
      intro t
      rw [BlockGraph.goes_addSuccessors]
      simp [stays t, ends.isBlockStart]
    show x.Settled entries (s.graph.addSuccessors block [a]) none
    refine (hs.addSuccessors ends).close (BlockGraph.sameCode_addSuccessors.ends.2 ends) ?_
    exact .plain hf ht hstop hn (fun t => (goes t).1) fun _ => (goes a).2 rfl

theorem step (hs : x.Settled entries s.graph s.current) (hr : x.Running entries s) (hsound : x.Sound s)
    (hw : s.work = item :: rest) (ht : x.Takes s item rest t) :
    x.Settled entries t.graph t.current := by
  cases ht with
  | unresolved ha =>
    refine hs.drop hsound hw fun a ha' => ?_
    cases ha.symm.trans ha'
  | unmapped ha hv hd =>
    refine hs.drop hsound hw fun a ha' hm => ?_
    cases ha.symm.trans ha'
    obtain ⟨e, he, -⟩ := hm
    cases hd.symm.trans he
  | @revisited a g ha hv hm =>
    have left : s.graph.SameCode (s.graph.leaveFor s.current a) := BlockGraph.sameCode_leaveFor
    exact ((hs.leaveFor hsound hw ha).makeStartIfDecoded (hsound.consistent.sameCode left) hm).comeFrom
  | @invalid a d ha hv hd hf =>
    have dropped : x.Settled entries s.graph none := by
      refine hs.drop hsound hw fun a' ha' hm => ?_
      cases ha.symm.trans ha'
      obtain ⟨e, he, hval⟩ := hm
      cases hd.symm.trans he
      simp [Decoded.isValid, hf] at hval
    obtain ⟨-, hb⟩ := BlockGraph.isVisited_eq_false.1 hv
    show x.Settled entries (s.room a item.origin).2 none
    unfold Exploration.room
    split
    · exact dropped
    · exact dropped.openAt hb
  | @plain a next d f g ha hv hd hf htr hn hp =>
    obtain ⟨hg, b, hready⟩ := hsound.steady.ready hw ha hv
    have taken := (hs.room hv).append hready hg hp
    have ends := (hready.ends_append hg hp).2 (Or.inl ⟨rfl, rfl, rfl⟩)
    cases hstop : f.stops with
    | false => exact taken
    | true =>
      refine taken.close ends (.stop hf htr hstop fun u hu => ?_)
      rw [hready.goes_append hp, BlockGraph.goes_iff hready.found] at hu
      exact hready.stays u hu
  | @transfer a next d f g targets exits ha hv hd hf htr hn hp hj hx =>
    obtain ⟨hg, b, hready⟩ := hsound.steady.ready hw ha hv
    have taken := (hs.room hv).append hready hg hp
    have ends := (hready.ends_append hg hp).2 (Or.inl ⟨rfl, rfl, rfl⟩)
    refine (taken.addSuccessors ends).close (BlockGraph.sameCode_addSuccessors.ends.2 ends) ?_
    refine .transfer hf htr hn ⟨List.prefix_rfl, hr, hw, ha, hv, hd, by simp [Decoded.isValid, hf], hn, hp⟩ hj
      fun u => ?_
    rw [BlockGraph.goes_addSuccessors, hready.goes_append hp, BlockGraph.goes_iff hready.found, ← hx]
    simp [hready.stays u, ends.isBlockStart]

end Settled

theorem settled_invariant : x.Invariant
    (fun entries g => (g.Consistent ∧ x.Faithful g) ∧ x.Settled entries g none)
    (fun entries s => x.Sound s ∧ x.Settled entries s.graph s.current) where
  empty := by
    refine ⟨⟨.empty, .empty⟩, fun hb => by simp at hb, ?_⟩
    rintro s a d ⟨b, hb, -⟩
    simp at hb
  start entry hg := ⟨.starting hg.1.1 hg.1.2 entry, hg.2.mono (List.prefix_append ..)⟩
  step hr hs hw ht := ⟨hs.1.step hw ht, hs.2.step hr hs.1 hw ht⟩
  stop {entries s} hs hw := by
    refine ⟨⟨hs.1.consistent, hs.1.faithful⟩, ?_⟩
    -- control runs on only while its next target is in the work
    cases hc : s.current with
    | none => exact hc ▸ hs.2
    | some block =>
      obtain ⟨b, d, last, next, rest, -, hw'⟩ := hs.1.runs hc
      cases hw.symm.trans hw'
  cut _ hg hs := ⟨⟨hg.1.1.makeStartIfDecoded hs, hg.1.2.makeStartIfDecoded hg.1.1 hs⟩,
    hg.2.makeStartIfDecoded hg.1.1 hs⟩

theorem settled_of_cuts (he : x.exploreAll .empty entries = .ok g)
    (hc : ReflTransGen BlockGraph.CutInto g h) :
    (h.Consistent ∧ x.Faithful h) ∧ x.Settled entries h none := by
  refine BlockGraph.cut_induction (P := fun h => (h.Consistent ∧ x.Faithful h) ∧ x.Settled entries h none)
    (fun hk hc => ?_) (settled_invariant.exploreAll he) hc
  obtain ⟨⟨hg, hf⟩, hs⟩ := hk
  exact ⟨⟨hc.consistent hg, hf.cuts hg hc⟩, hs.cuts hg hc⟩

theorem Faithful.decodes (hf : x.Faithful g) (hg : g.Consistent) (ha : g.isDecoded a = true) :
    x.Decodes a := by
  obtain ⟨s, ho⟩ := BlockGraph.isDecoded_iff.1 ha
  obtain ⟨b, d, hb, hd⟩ := hg.exists_has ho
  exact ⟨d, hf.decoded hb hd⟩

/-- In the graphs that explorations make, however blocks are cut then, only the last instruction of a block
takes control elsewhere, and where control goes from the block is told by it. -/
theorem exits_at_end (he : x.exploreAll .empty entries = .ok g)
    (hc : ReflTransGen BlockGraph.CutInto g h) {s : Address} (hb : h.block? s = some b) :
    x.ExitsAtEnd entries h b := by
  obtain ⟨⟨hg, hf⟩, hs⟩ := settled_of_cuts he hc
  have left : ∀ {a d}, b.EndsWith a d → x.LeftBy entries a d (· ∈ b.successors) := fun hd =>
    (hs.exits ⟨b, hb, hd⟩ nofun).congr fun _ => (BlockGraph.goes_iff hb).symm
  have behind : ∀ {a d next}, b.EndsWith a d → Address.plus a d.size = .ok next →
      b.endAddress = .ok next := fun hd hn =>
    Block.endAddress_eq_ok.2 (hd.plus_eq_ok.1 hn)
  have nowhere : (∀ t, t ∉ b.successors) → b.successors = ∅ :=
    Std.ExtTreeSet.eq_empty_iff_forall_not_mem.2
  constructor
  case inner => exact fun d hd => (hg.runsOn hb d hd).flow
  case last =>
    intro hne
    obtain ⟨stop, hspan⟩ := hg.exists_spans hb
    obtain ⟨a, d, hd⟩ := Block.exists_endsWith hne hspan
    obtain ⟨f, hflow⟩ := Option.isSome_iff_exists.1 (hf.decoded hb hd.has).2
    exact ⟨a, d, f, hd, hflow⟩
  case empty => exact fun hi => nowhere fun t ht => hs.empty hb hi ((BlockGraph.goes_iff hb).2 ht)
  case stop =>
    intro a d f hd hflow ht hstop
    cases left hd with
    | stop _ _ _ none => exact nowhere none
    | plain hf' _ hs' => simp [Option.some.inj (hf'.symm.trans hflow), hstop] at hs'
    | transfer hf' ht' => simp [Option.some.inj (hf'.symm.trans hflow), ht] at ht'
  case plain =>
    intro a d f hd hflow ht hstop
    cases left hd with
    | stop hf' _ hs' => simp [Option.some.inj (hf'.symm.trans hflow), hstop] at hs'
    | @plain _ next _ _ _ hn only on =>
      refine ⟨next, behind hd hn, only, fun hnext => ?_⟩
      refine Std.ExtTreeSet.ext_mem fun t => ?_
      rw [Address.mem_singleton]
      refine ⟨only t, ?_⟩
      rintro rfl
      exact on (hf.decodes hg hnext)
    | transfer hf' ht' => simp [Option.some.inj (hf'.symm.trans hflow), ht] at ht'
  case transfer =>
    intro a d f hd hflow ht
    cases left hd with
    | stop hf' ht' => simp [Option.some.inj (hf'.symm.trans hflow), ht] at ht'
    | plain hf' ht' => simp [Option.some.inj (hf'.symm.trans hflow), ht] at ht'
    | @transfer _ next k targets hf' _ hn hk hj exit =>
      cases hf'.symm.trans hflow
      exact ⟨k, targets, next, hk, hj, behind hd hn, exit⟩

/-- Two plain instructions and a branch back to the first, cut at the second. -/
theorem loop_exits_at_end :
    let x := Toy.explorer [0x00, 0x00, 0x11, 0xfc, 0xc3]
    ∃ g h b, x.exploreAll .empty [.address 0x1000] = .ok g ∧ g.split 0x1000 0x1001 = .ok h ∧
      h.block? 0x1001 = some b ∧ b.instructions.length = 2 ∧ b.successors.toList = [0x1000, 0x1004] ∧
      x.ExitsAtEnd [.address 0x1000] h b := by
  intro x
  have run : (do
      let g ← x.exploreAll .empty [.address 0x1000]
      let h ← Interruption.during g (g.split 0x1000 0x1001)
      let b ← Interruption.during h ((h.block? 0x1001).elim (.error (Fault.undecodedSplit 0x1001)) .ok)
      return (b.instructions.length, b.successors.toList)) = .ok (2, [0x1000, 0x1004]) := by cbv
  obtain ⟨g, hg, run⟩ := bind_eq_ok.1 run
  obtain ⟨h, hs, run⟩ := bind_eq_ok.1 run
  obtain ⟨b, hb, run⟩ := bind_eq_ok.1 run
  rw [during_eq_ok] at hs hb
  obtain ⟨hi, hsucc⟩ := Prod.mk.inj (Except.ok.inj run)
  have hb := elim_eq_ok.1 hb
  have cut : g.CutInto h := Or.inr ⟨_, _, hs⟩
  exact ⟨g, h, b, hg, hs, hb, hi, hsucc, exits_at_end hg (.single cut) hb⟩

end Explorer

end ReachableCode
