import ReachableCode.Proofs.Exploration.Step

/-!
What every step of an exploration keeps of the graph, whatever graph it began with: the two indices
agree, and control runs on from at most one block. That block is the one the next target lies behind,
and what is decoded there goes to its end. A fault leaves a graph whose indices agree as well, so they
do in all graphs that explorations and splits lead to.
-/

namespace ReachableCode

open Interruption (during)

namespace BlockGraph

/-- Control runs on from the block `b` at `block`, from its last instruction `d` at `last` to `next`. -/
structure RunsFrom (g : BlockGraph) (block last next : Address) (b : Block) (d : Decoded) : Prop where
  found : g.block? block = some b
  ends : b.EndsWith last d
  spans : Block.Spans block b.instructions next
  flow : ∃ f, d.flow = some f ∧ f.transfers = false ∧ f.stops = false
  stays : ∀ t, t ∉ b.successors

variable {g : BlockGraph} {block last a : Address} {b : Block} {d : Decoded}

/-- What control runs on to, when it is new, goes to the end of the block it comes from. -/
theorem RunsFrom.ready (hr : g.RunsFrom block last a b d) (hg : g.Consistent)
    (ho : g.owner? a = none) (hv : g.block? a = none) : g.Ready block a b where
  found := hr.found
  runsOn e he := by
    rcases hr.ends.mem he with he | rfl
    · exact hg.runsOn hr.found e he
    · obtain ⟨before, hb, hs⟩ := hr.ends
      refine ⟨fun zero => ?_, hr.flow⟩
      -- an instruction without bytes is followed by itself, which is not new
      have hspan := hr.spans
      rw [hb, ← hg.start_eq hr.found] at hspan
      have same : last = a := by
        apply UInt64.toNat_inj.1
        simp only [Block.Spans, Block.byteCount_append, Block.byteCount_cons, Block.byteCount_nil, zero,
          UInt64.toNat_zero] at hs hspan
        omega
      have := hg.owner_of_has hr.found hr.ends.has
      rw [same, ho] at this
      cases this
  spans := hr.spans
  fresh := ho
  only hc e := by
    rw [e, hv] at hc
    cases hc
  stays := hr.stays

/-- What was decoded is the end of its block, and what control runs on from. -/
theorem Ready.runsFrom {h : BlockGraph} {next : Address} (hr : g.Ready block a b) (hg : g.Consistent)
    (hn : Address.plus a d.size = .ok next) (hp : g.append block a d = .ok h)
    (hf : ∃ f, d.flow = some f ∧ f.transfers = false ∧ f.stops = false) :
    h.RunsFrom block a next { b with instructions := b.instructions ++ [d] } d where
  found := by rw [(hr.append hp).1, if_pos rfl]
  ends := hr.endsWith_concat hg
  spans := Block.spans_append.2 ⟨a, hr.spans, Block.spans_cons.2 ⟨next, hn, Block.spans_nil.2 rfl⟩⟩
  flow := hf
  stays := hr.stays

end BlockGraph

/-- The indices of the graph agree, and the next target lies behind the block that control runs on from. -/
structure Exploration.Steady (s : Exploration) : Prop where
  consistent : s.graph.Consistent
  runs : ∀ {block}, s.current = some block → ∃ b d last next rest,
    s.graph.RunsFrom block last next b d ∧
      s.work = { target := .address next, origin := some last } :: rest

namespace Explorer

theorem eq_of_addressIn_address {p : Program} {n a : Address}
    (h : (Target.address n).addressIn p = .ok (some a)) : a = n := by
  obtain ⟨m, -, hm⟩ := bind_eq_ok.1 h
  cases m with
  | none => cases hm
  | some _ =>
    cases hm
    rfl

end Explorer

namespace Exploration.Steady

open Explorer

variable {x : Explorer} {s t : Exploration} {item : WorkItem} {rest : List WorkItem} {g : BlockGraph}
  {a : Address}

theorem starting (hg : g.Consistent) (entry : Target) : (Exploration.starting g entry).Steady :=
  ⟨hg, nofun⟩

/-- The block that takes what is decoded at the next target. -/
theorem ready (hs : s.Steady) (hw : s.work = item :: rest)
    (ha : item.target.addressIn x.program = .ok (some a)) (hv : s.graph.isVisited a = false) :
    (s.room a item.origin).2.Consistent ∧
      ∃ b, (s.room a item.origin).2.Ready (s.room a item.origin).1 a b := by
  obtain ⟨ho, hb⟩ := BlockGraph.isVisited_eq_false.1 hv
  unfold Exploration.room
  split
  next block hc =>
    obtain ⟨b, d, last, next, rest', hr, hw'⟩ := hs.runs hc
    cases hw.symm.trans hw'
    obtain rfl := eq_of_addressIn_address ha
    exact ⟨hs.consistent, b, hr.ready hs.consistent ho hb⟩
  next hc =>
    refine ⟨hs.consistent.openAt ho hb, BlockGraph.opened a item.origin, ?_, by simp [BlockGraph.opened,
      Block.openedAt], Block.spans_nil.2 rfl, ho, fun _ e => e, by simp [BlockGraph.opened,
      Block.openedAt]⟩
    rw [BlockGraph.block?_openAt hb, if_pos rfl]

theorem step (hs : s.Steady) (hw : s.work = item :: rest) (ht : x.Takes s item rest t) :
    t.Steady := by
  cases ht with
  | unresolved => exact ⟨hs.consistent, nofun⟩
  | unmapped => exact ⟨hs.consistent, nofun⟩
  | revisited ha hv hm =>
    have hg := (hs.consistent.sameCode BlockGraph.sameCode_leaveFor).makeStartIfDecoded hm
    exact ⟨hg.sameCode BlockGraph.sameCode_comeFrom, nofun⟩
  | invalid ha hv hd hf =>
    obtain ⟨hg, -⟩ := hs.ready hw ha hv
    exact ⟨hg, nofun⟩
  | plain ha hv hd hf htr hn hp =>
    obtain ⟨hg, b, hr⟩ := hs.ready hw ha hv
    refine ⟨hg.append hr hn hp, ?_⟩
    intro block hc
    split at hc
    · cases hc
    next hstop =>
      cases hc
      have hstop := Bool.eq_false_iff.2 hstop
      exact ⟨_, _, _, _, _, hr.runsFrom hg hn hp ⟨_, hf, htr, hstop⟩, by simp [workBehind, hstop]; rfl⟩
  | transfer ha hv hd hf htr hn hp =>
    obtain ⟨hg, b, hr⟩ := hs.ready hw ha hv
    exact ⟨(hg.append hr hn hp).sameCode BlockGraph.sameCode_addSuccessors, nofun⟩

end Exploration.Steady

namespace Explorer

variable {x : Explorer} {s t : Exploration} {item : WorkItem} {rest : List WorkItem}
  {g h : BlockGraph} {a block : Address} {b : Block} {flow : Flow} {i : Interruption} {entry : Target}
  {d : Decoded}

/-! ### What a fault leaves -/

theorem during_eq_error {α : Type} {y : Except Fault α} :
    during g y = .error i ↔ ∃ f, y = .error f ∧ { fault := f, graph := g } = i :=
  mapError_eq_error

theorem graph_of_during {α : Type} {y : Except Fault α} (h : during g y = .error i) : i.graph = g := by
  obtain ⟨f, -, rfl⟩ := during_eq_error.1 h
  rfl

/-- The graphs that a fault leaves which ends the step for a target. -/
inductive Abandons (x : Explorer) (s : Exploration) (item : WorkItem) : BlockGraph → Prop
  /-- Nothing was written. -/
  | untouched : Abandons x s item s.graph
  /-- Only an edge was added. -/
  | left {a : Address} : Abandons x s item (s.graph.leaveFor s.current a)
  /-- There is room for what was decoded. -/
  | roomed {a : Address} {d : Decoded} : item.target.addressIn x.program = .ok (some a) →
      s.graph.isVisited a = false → x.decodeAt a = .ok (some d) →
      Abandons x s item (s.room a item.origin).2
  /-- What was decoded is in its block. -/
  | extended {a next : Address} {d : Decoded} {g h : BlockGraph} :
      item.target.addressIn x.program = .ok (some a) → s.graph.isVisited a = false →
      x.decodeAt a = .ok (some d) → Address.plus a d.size = .ok next →
      (s.room a item.origin).2.append (s.room a item.origin).1 a d = .ok g → g.SameCode h →
      Abandons x s item h

theorem sameCode_left_by_addTargets {targets : List Target} (h : x.addTargets block targets g = .error i) :
    g.SameCode i.graph := by
  induction targets generalizing g with
  | nil => cases h
  | cons t rest ih =>
    rw [addTargets] at h
    rcases bind_eq_error.1 h with h | ⟨e?, -, h⟩
    · rw [graph_of_during h]
      exact .refl
    · split at h
      · exact ih h
      · exact BlockGraph.sameCode_addSuccessor.trans (ih h)

theorem sameCode_left_by_transfer {next : Address} (h : x.transfer rest g block a next flow = .error i) :
    g.SameCode i.graph := by
  rcases bind_eq_error.1 h with h | ⟨targets, -, h⟩
  · rw [graph_of_during h]
    exact .refl
  · rcases bind_eq_error.1 h with h | ⟨_, -, h⟩
    · exact sameCode_left_by_addTargets h
    · cases h

theorem abandons_of_step (h : x.step s item rest = .error i) : x.Abandons s item i.graph := by
  rcases bind_eq_error.1 h with h | ⟨a?, ha, h⟩
  · rw [graph_of_during h]
    exact .untouched
  rw [during_eq_ok] at ha
  split at h
  · cases h
  split at h
  · rcases bind_eq_error.1 h with h | ⟨_, -, h⟩
    · rcases bind_eq_error.1 h with h | ⟨_, -, h⟩
      · rw [graph_of_during h]
        exact .left
      · cases h
    · cases h
  next hv =>
    rw [Bool.not_eq_true] at hv
    rcases bind_eq_error.1 h with h | ⟨d?, hd, h⟩
    · rw [graph_of_during h]
      exact .untouched
    rw [during_eq_ok] at hd
    split at h
    · cases h
    dsimp only at h
    split at h
    · cases h
    rcases bind_eq_error.1 h with h | ⟨next, hn, h⟩
    · rw [graph_of_during h]
      exact .roomed ha hv hd
    rcases bind_eq_error.1 h with h | ⟨g, hp, h⟩
    · rw [graph_of_during h]
      exact .roomed ha hv hd
    rw [during_eq_ok] at hn hp
    split at h
    · exact .extended ha hv hd hn hp (sameCode_left_by_transfer h)
    · cases h

/-! ### The graphs that explorations and splits lead to -/

theorem steady_run (hs : s.Steady) (hr : x.run s = .ok g) :
    ∃ t : Exploration, t.Steady ∧ t.graph = g := by
  obtain ⟨t, ht, -, rfl⟩ := run_induction (fun hs hw ht => hs.step hw (takes_of_step ht)) hs hr
  exact ⟨t, ht, rfl⟩

/-- The graph after an exploration from an entry, also if a fault ends it. -/
def graphAfter (x : Explorer) (g : BlockGraph) (entry : Target) : BlockGraph :=
  match x.explore g entry with
  | .ok h => h
  | .error i => i.graph

/-- The graphs that explorations, whether a fault ends them or not, and splits lead to. -/
inductive Attainable (x : Explorer) : BlockGraph → Prop
  | empty : Attainable x .empty
  | explore {g : BlockGraph} (entry : Target) : Attainable x g → Attainable x (x.graphAfter g entry)
  | makeStart {g h : BlockGraph} {a : Address} :
      Attainable x g → g.makeStart a = .ok h → Attainable x h
  | split {g h : BlockGraph} {old new : Address} :
      Attainable x g → g.split old new = .ok h → Attainable x h

/-- What holds of graphs between explorations (`G`), whatever they began with, and of explorations between
steps (`I`), and of what faults leave. -/
structure Lasting (x : Explorer) (G : BlockGraph → Prop) (I : Exploration → Prop) : Prop where
  start : ∀ {g} entry, G g → I (.starting g entry)
  step : ∀ {s item rest t}, I s → s.work = item :: rest → x.Takes s item rest t → I t
  abandon : ∀ {s item rest g}, I s → s.work = item :: rest → x.Abandons s item g → G g
  stop : ∀ {s}, I s → G s.graph
  cut : ∀ {g a h}, G g → g.makeStartIfDecoded a = .ok h → G h

namespace Lasting

variable {G : BlockGraph → Prop} {I : Exploration → Prop}

theorem left_by_makeStarts (inv : x.Lasting G I) {labels : List Address} (hg : G g)
    (h : makeStarts g labels = .error i) : G i.graph := by
  induction labels generalizing g with
  | nil => cases h
  | cons a rest ih =>
    rcases bind_eq_error.1 h with h | ⟨g', hm, h⟩
    · rw [graph_of_during h]
      exact hg
    · exact ih (inv.cut hg (during_eq_ok.1 hm)) h

theorem run (inv : x.Lasting G I) (hg : G g) (hr : x.run (.starting g entry) = .ok h) : G h := by
  obtain ⟨t, ht, -, rfl⟩ := run_induction (fun hs hw ht => inv.step hs hw (takes_of_step ht))
    (inv.start entry hg) hr
  exact inv.stop ht

theorem explore (inv : x.Lasting G I) (hg : G g) (he : x.explore g entry = .ok h) : G h := by
  obtain ⟨g', hr, he⟩ := bind_eq_ok.1 he
  have hg' := inv.run hg hr
  split at he
  · obtain ⟨labels, -, he⟩ := bind_eq_ok.1 he
    exact makeStarts_induction (fun _ => inv.cut) hg' he
  · cases he
    exact hg'

theorem left_by_explore (inv : x.Lasting G I) (hg : G g) (he : x.explore g entry = .error i) : G i.graph := by
  rcases bind_eq_error.1 he with hr | ⟨g', hr, he⟩
  · obtain ⟨t, item, rest, ht, hw, hr⟩ := run_error
      (fun hs hw ht => inv.step hs hw (takes_of_step ht)) (inv.start entry hg) hr
    exact inv.abandon ht hw (abandons_of_step hr)
  · have hg' := inv.run hg hr
    split at he
    · rcases bind_eq_error.1 he with he | ⟨labels, -, he⟩
      · rw [graph_of_during he]
        exact hg'
      · exact inv.left_by_makeStarts hg' he
    · cases he

theorem graphAfter (inv : x.Lasting G I) (hg : G g) : G (x.graphAfter g entry) := by
  rw [Explorer.graphAfter]
  split
  next he => exact inv.explore hg he
  next he => exact inv.left_by_explore hg he

/-- What also splits keep holds of all graphs that explorations and splits lead to. -/
theorem attainable (inv : x.Lasting G I) (empty : G .empty)
    (split : ∀ {g old new h}, G g → g.split old new = .ok h → G h) (hg : x.Attainable g) : G g := by
  induction hg with
  | empty => exact empty
  | explore entry _ ih => exact inv.graphAfter ih
  | makeStart _ hs ih =>
    rcases BlockGraph.makeStart_cases hs with ⟨-, rfl⟩ | ⟨s, -, -, hs⟩
    · exact ih
    · exact split ih hs
  | split _ hs ih => exact split ih hs

end Lasting

theorem steady_lasting : x.Lasting BlockGraph.Consistent Exploration.Steady where
  start entry hg := .starting hg entry
  step hs hw ht := hs.step hw ht
  abandon hs hw ha := by
    cases ha with
    | untouched => exact hs.consistent
    | left => exact hs.consistent.sameCode BlockGraph.sameCode_leaveFor
    | roomed ha hv _ => exact (hs.ready hw ha hv).1
    | extended ha hv _ hn hp same =>
      obtain ⟨hg, b, hr⟩ := hs.ready hw ha hv
      exact (hg.append hr hn hp).sameCode same
  stop hs := hs.consistent
  cut hg hs := hg.makeStartIfDecoded hs

theorem consistent_of_explore (hg : g.Consistent) (he : x.explore g entry = .ok h) : h.Consistent :=
  steady_lasting.explore hg he

theorem Attainable.consistent (hg : x.Attainable g) : g.Consistent :=
  steady_lasting.attainable .empty BlockGraph.Consistent.split hg

theorem attainable_of_explore (hg : x.Attainable g) (he : x.explore g entry = .ok h) :
    x.Attainable h := by
  have after : x.graphAfter g entry = h := by rw [graphAfter, he]
  exact after ▸ hg.explore entry

end Explorer

end ReachableCode
