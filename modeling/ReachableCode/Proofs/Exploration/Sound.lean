import ReachableCode.Proofs.Exploration.Steady

/-!
What holds while a program is explored: the two indices of the graph agree, its instructions are those
that the decoder finds, and control runs on from at most one block. That block is the one the next
target lies behind, and what is decoded there goes to its end.
-/

namespace ReachableCode

namespace Explorer

/-- Something is decoded at `t`, be it an instruction or not. -/
def Maps (x : Explorer) (t : Address) : Prop :=
  ∃ d, x.decodeAt t = .ok (some d)

/-- The instructions of a graph are what the decoder finds at their places, and a block has none only
where the decoder finds none. -/
structure Faithful (x : Explorer) (g : BlockGraph) : Prop where
  decoded : ∀ {s b a d}, g.block? s = some b → b.Has a d → x.decodeAt a = .ok (some d) ∧ d.isValid = true
  invalid : ∀ {s b}, g.block? s = some b → b.instructions = [] →
    ∃ d, x.decodeAt s = .ok (some d) ∧ d.isValid = false

end Explorer

namespace Explorer

/-- The graph is sound, and the next target lies behind the block that control runs on from. -/
structure Sound (x : Explorer) (s : Exploration) : Prop where
  consistent : s.graph.Consistent
  faithful : x.Faithful s.graph
  runs : ∀ {block}, s.current = some block → ∃ b d last next rest,
    s.graph.RunsFrom block last next b d ∧
      s.work = { target := .address next, origin := some last } :: rest

variable {x : Explorer} {s t : Exploration} {item : WorkItem} {rest : List WorkItem}
  {g h : BlockGraph} {a block old new u : Address} {b c : Block} {d : Decoded} {origin : Option Address}
  {before after : List Decoded}

/-! ### Graphs that say what the decoder finds -/

namespace Faithful

theorem empty : x.Faithful .empty where
  decoded hb := by simp at hb
  invalid hb := by simp at hb

theorem sameCode (hf : x.Faithful g) (hs : g.SameCode h) : x.Faithful h where
  decoded hb hd := by
    obtain ⟨c, hc, hstart, hi⟩ := hs.symm.exists_block hb
    exact hf.decoded hc ((Block.has_congr hstart hi).2 hd)
  invalid hb hi := by
    obtain ⟨c, hc, -, hi'⟩ := hs.symm.exists_block hb
    exact hf.invalid hc (hi'.trans hi)

theorem cuts (hf : x.Faithful g) (hg : g.Consistent) (hc : g.Cuts old new b before after h) :
    x.Faithful h where
  decoded hb hd := by
    rcases hc.block?_cases hb with ⟨rfl, rfl⟩ | ⟨rfl, rfl⟩ | ⟨-, -, hb⟩
    · exact hf.decoded hc.block ((hc.has_iff hg).2 (Or.inr hd))
    · exact hf.decoded hc.block ((hc.has_iff hg).2 (Or.inl hd))
    · exact hf.decoded hb hd
  invalid hb hi := by
    rcases hc.block?_cases hb with ⟨rfl, rfl⟩ | ⟨rfl, rfl⟩ | ⟨-, -, hb⟩
    · exact absurd hi hc.after_ne
    · exact absurd hi hc.before_ne
    · exact hf.invalid hb hi

theorem split (hf : x.Faithful g) (hg : g.Consistent) (hs : g.split old new = .ok h) :
    x.Faithful h := by
  obtain ⟨b, before, after, hc⟩ := BlockGraph.cuts_of_split hs
  exact hf.cuts hg hc

theorem makeStart (hf : x.Faithful g) (hg : g.Consistent) (hs : g.makeStart a = .ok h) :
    x.Faithful h := by
  rcases BlockGraph.makeStart_cases hs with ⟨-, rfl⟩ | ⟨s, -, -, hs⟩
  · exact hf
  · exact hf.split hg hs

theorem makeStartIfDecoded (hf : x.Faithful g) (hg : g.Consistent)
    (hs : g.makeStartIfDecoded a = .ok h) : x.Faithful h := by
  rcases BlockGraph.makeStartIfDecoded_cases hs with ⟨-, rfl⟩ | ⟨s, -, -, hs⟩
  · exact hf
  · exact hf.split hg hs

theorem maps (hf : x.Faithful g) (hg : g.Consistent) (hb : g.block? a = some b) : x.Maps a := by
  by_cases hi : b.instructions = []
  · obtain ⟨d, hd, -⟩ := hf.invalid hb hi
    exact ⟨d, hd⟩
  · obtain ⟨d, hd⟩ := Block.has_start hi
    rw [hg.start_eq hb] at hd
    exact ⟨d, (hf.decoded hb hd).1⟩

/-- Something is decoded wherever the graph was visited. -/
theorem maps_of_isVisited (hf : x.Faithful g) (hg : g.Consistent) (hv : g.isVisited a = true) :
    x.Maps a := by
  rcases BlockGraph.isVisited_iff.1 hv with ⟨s, ho⟩ | ⟨b, hb⟩
  · obtain ⟨b, d, hb, hd⟩ := hg.exists_has ho
    exact ⟨d, (hf.decoded hb hd).1⟩
  · exact hf.maps hg hb

end Faithful

/-! ### The block that takes an instruction -/

theorem addressIn_address {n : Address} (hm : x.Maps n) :
    (Target.address n).addressIn x.program = .ok (some n) := by
  obtain ⟨d, hd⟩ := hm
  obtain ⟨c?, hc, hd⟩ := bind_eq_ok.1 hd
  obtain ⟨m, hm, hc⟩ := bind_eq_ok.1 hc
  refine bind_eq_ok.2 ⟨m, hm, ?_⟩
  cases m with
  | none =>
    cases hc
    cases hd
  | some _ => rfl

theorem room_cases (hv : s.graph.block? a = none) (hb : (s.room a origin).2.block? u = some b) :
    s.graph.block? u = some b ∨
      s.current = none ∧ u = (s.room a origin).1 ∧ b = BlockGraph.opened a origin := by
  unfold Exploration.room at hb ⊢
  split at hb
  · exact Or.inl hb
  next hc =>
    rw [BlockGraph.block?_openAt hv] at hb
    split at hb
    next e => exact Or.inr ⟨hc, e.symm, (Option.some.inj hb).symm⟩
    · exact Or.inl hb

theorem block?_of_room {v : Address} {e : Decoded} (hv : s.graph.block? a = none)
    (hb : (s.room a origin).2.block? u = some b) (he : b.Has v e) : s.graph.block? u = some b := by
  rcases room_cases hv hb with hb | ⟨-, -, rfl⟩
  · exact hb
  · exact absurd rfl he.ne_nil

namespace Sound

theorem starting (hg : g.Consistent) (hf : x.Faithful g) (entry : Target) :
    x.Sound (.starting g entry) :=
  ⟨hg, hf, nofun⟩

theorem steady (hs : x.Sound s) : s.Steady :=
  ⟨hs.consistent, hs.runs⟩

theorem room (hs : x.Sound s) (hi : ∃ d, x.decodeAt a = .ok (some d) ∧ d.isValid = false)
    (hv : s.graph.isVisited a = false) : x.Faithful (s.room a origin).2 := by
  obtain ⟨-, hb⟩ := BlockGraph.isVisited_eq_false.1 hv
  constructor
  case decoded =>
    intro u c v e hc he
    exact hs.faithful.decoded (block?_of_room hb hc he) he
  case invalid =>
    intro u c hc hne
    rcases room_cases hb hc with hc | ⟨hcur, rfl, -⟩
    · exact hs.faithful.invalid hc hne
    · simpa [Exploration.room, hcur] using hi

/-- The graph with the instruction at the next target in its block. -/
theorem append (hs : x.Sound s) (hw : s.work = item :: rest)
    (ha : item.target.addressIn x.program = .ok (some a)) (hv : s.graph.isVisited a = false)
    (hd : x.decodeAt a = .ok (some d)) (hval : d.isValid = true) {next : Address}
    (hn : Address.plus a d.size = .ok next)
    (hp : (s.room a item.origin).2.append (s.room a item.origin).1 a d = .ok h) :
    h.Consistent ∧ x.Faithful h := by
  obtain ⟨hg, b, hr⟩ := hs.steady.ready hw ha hv
  obtain ⟨-, hb⟩ := BlockGraph.isVisited_eq_false.1 hv
  refine ⟨hg.append hr hn hp, ?_⟩
  obtain ⟨look, -⟩ := hr.append hp
  constructor
  case decoded =>
    intro u c v e hc he
    rw [look] at hc
    split at hc
    · cases hc
      rcases (hr.has_concat hg).1 he with he | ⟨rfl, rfl⟩
      · exact hs.faithful.decoded (block?_of_room hb hr.found he) he
      · exact ⟨hd, hval⟩
    · exact hs.faithful.decoded (block?_of_room hb hc he) he
  case invalid =>
    intro u c hc hi
    rw [look] at hc
    split at hc
    · cases hc
      simp at hi
    next hne =>
      rcases room_cases hb hc with hc | ⟨-, rfl, -⟩
      · exact hs.faithful.invalid hc hi
      · exact absurd rfl hne

theorem faithful_step (hs : x.Sound s) (hw : s.work = item :: rest) (ht : x.Takes s item rest t) :
    x.Faithful t.graph := by
  cases ht with
  | unresolved => exact hs.faithful
  | unmapped => exact hs.faithful
  | @revisited a g ha hv hm =>
    have left : s.graph.SameCode (s.graph.leaveFor s.current a) := BlockGraph.sameCode_leaveFor
    have hf := (hs.faithful.sameCode left).makeStartIfDecoded (hs.consistent.sameCode left) hm
    exact hf.sameCode BlockGraph.sameCode_comeFrom
  | invalid ha hv hd hf => exact hs.room ⟨_, hd, by simp [Decoded.isValid, hf]⟩ hv
  | plain ha hv hd hf htr hn hp => exact (hs.append hw ha hv hd (by simp [Decoded.isValid, hf]) hn hp).2
  | transfer ha hv hd hf htr hn hp =>
    have hf' := (hs.append hw ha hv hd (by simp [Decoded.isValid, hf]) hn hp).2
    exact hf'.sameCode BlockGraph.sameCode_addSuccessors

theorem step (hs : x.Sound s) (hw : s.work = item :: rest) (ht : x.Takes s item rest t) :
    x.Sound t :=
  have steady := hs.steady.step hw ht
  ⟨steady.consistent, hs.faithful_step hw ht, steady.runs⟩

end Sound

theorem sound_invariant :
    x.Invariant (fun _ g => g.Consistent ∧ x.Faithful g) (fun _ s => x.Sound s) where
  empty := ⟨.empty, .empty⟩
  start entry hg := .starting hg.1 hg.2 entry
  step _ hs hw ht := hs.step hw ht
  stop hs _ := ⟨hs.consistent, hs.faithful⟩
  cut _ hg hs := ⟨hg.1.makeStartIfDecoded hs, hg.2.makeStartIfDecoded hg.1 hs⟩

end Explorer

end ReachableCode
