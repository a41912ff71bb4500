import ReachableCode.Proofs.Exploration.Steady
import ReachableCode.Proofs.Memory.Relocations
import ReachableCode.Proofs.Search.Exhaustive

/-!
Backward searches end. One trace that goes up becomes many and keeps its depth, and expressions may grow
without end, so neither the length of the queue nor what was followed before bounds a search. But a trace that
goes up lands behind an instruction, which it goes over before it goes up again, and an instruction that it
goes over costs depth. So a trace weighs more than all that come of it together, and the queue loses weight
with every trace that is taken.
-/

namespace ReachableCode

/-- What a decoder is asked when a trace goes back over an instruction: the instruction, its address and the
expression wanted behind it. -/
abbrev Question := Decoded × Address × Expr

namespace Trace

/-- What the decoder is asked when the trace is followed; nothing at the start of a block. -/
def question? (g : BlockGraph) (t : Trace) : Option Question := do
  let b ← g.block? t.block
  match t.index with
  | 0 => none
  | i + 1 =>
    let d ← b.instructions[i]?
    let a ← (Address.minus t.address d.size).toOption
    return (d, a, t.target)

variable {p : Program} {dec dec' : Decoder} {g : BlockGraph} {t u : Trace} {ts : List Trace}

/-- The decoder is asked nothing else: two that answer alike are followed alike. -/
theorem back_congr (h : ∀ d a e, t.question? g = some (d, a, e) → dec.stepBack d a e = dec'.stepBack d a e) :
    t.back p dec g = t.back p dec' g := by
  rw [back, back]
  split
  · rfl
  next b hb =>
    split
    · rfl
    next i hi =>
      split
      · rfl
      next d hd =>
        refine bind_eq_bind fun a ha => ?_
        have asked : t.question? g = some (d, a, t.target) := by
          simp [question?, hb, hi, hd, ha, Except.toOption]
        rw [h d a t.target asked]

/-- Each question costs depth. -/
theorem depth_of_back (hd : t.depth ≠ 0) (h : t.back p dec g = .ok (.goesOn ts)) (hu : u ∈ ts) :
    (t.question? g).toList.length + u.depth = t.depth := by
  rw [back] at h
  split at h
  · cases h
    cases hu
  next b hb =>
    split at h
    next hi =>
      obtain ⟨us, he, h⟩ := map_eq_ok.1 h
      cases h
      obtain ⟨origin, -, c, stop, -, -, -, rfl⟩ := (BackwardSearch.mem_enter he).1 hu
      simp [question?, hb, hi]
    next i hi =>
      split at h
      · cases h
      next d hd' =>
        obtain ⟨a, ha, h⟩ := bind_eq_ok.1 h
        obtain ⟨e?, -, h⟩ := bind_eq_ok.1 h
        cases e? with
        | none =>
          cases h
          cases hu
        | some e =>
          obtain ⟨found?, -, h⟩ := bind_eq_ok.1 h
          cases found? with
          | some found => cases h
          | none =>
            cases h
            cases List.mem_singleton.1 hu
            have asked : t.question? g = some (d, a, t.target) := by
              simp [question?, hb, hi, hd', ha, Except.toOption]
            rw [asked]
            simp only [Option.toList_some, List.length_singleton]
            omega

end Trace

namespace BackwardSearch

/-- The state that a search for candidates wanted before one instruction starts in. -/
def starting (depth : Nat) (origin block : Address) (index : Nat) (candidates : List Expr) :
    BackwardSearch where
  queue := candidateTraces depth origin block index candidates
  seen := ∅
  found := []

/-- The trace `t` came of `t₀` by following one trace after the other, with these questions on the way. -/
inductive Trail (p : Program) (dec : Decoder) (g : BlockGraph) (t₀ : Trace) : List Question → Trace → Prop
  | start : Trail p dec g t₀ [] t₀
  | follow {asked : List Question} {t u : Trace} {ts : List Trace} : Trail p dec g t₀ asked t →
      t.depth ≠ 0 → t.back p dec g = .ok (.goesOn ts) → u ∈ ts →
      Trail p dec g t₀ (asked ++ (t.question? g).toList) u

variable {p : Program} {dec : Decoder} {g : BlockGraph} {s u : BackwardSearch} {t t₀ : Trace}
  {asked : List Question} {n : Nat}

/-- A trace in the queue was there before or comes of the one that was taken. -/
theorem mem_of_next (h : s.next? p dec g = .ok (some u)) (ht : t ∈ u.queue) : t ∈ s.queue ∨
    ∃ v ∈ s.queue, v.depth ≠ 0 ∧ ∃ ts, v.back p dec g = .ok (.goesOn ts) ∧ t ∈ ts := by
  cases takes_of_next? h with
  | drops hq | resolves hq => exact Or.inl (hq ▸ List.mem_cons_of_mem _ ht)
  | goesOn hq hd _ hb =>
    rcases List.mem_append.1 ht with ht | ht
    · exact Or.inl (hq ▸ List.mem_cons_of_mem _ ht)
    · exact Or.inr ⟨_, hq ▸ List.mem_cons_self, hd, _, hb, ht⟩

/-- The traces of a search come of those it started with. -/
theorem Steps.trail (h : Steps p dec g s n u) (traces : List Trace)
    (hs : ∀ t ∈ s.queue, ∃ t₀ ∈ traces, ∃ asked, Trail p dec g t₀ asked t) :
    ∀ t ∈ u.queue, ∃ t₀ ∈ traces, ∃ asked, Trail p dec g t₀ asked t := by
  induction h with
  | refl => exact hs
  | step hn _ ih =>
    refine ih fun t ht => ?_
    rcases mem_of_next hn ht with ht | ⟨v, hv, hd, ts, hb, ht⟩
    · exact hs t ht
    · obtain ⟨t₀, h₀, asked, trail⟩ := hs v hv
      exact ⟨t₀, h₀, _, trail.follow hd hb ht⟩

/-- What was asked along a trail and the depth that is left make up the depth it began with. -/
theorem Trail.length_asked (h : Trail p dec g t₀ asked t) : asked.length + t.depth = t₀.depth := by
  induction h with
  | start => exact Nat.zero_add _
  | follow _ hd hb hu ih =>
    have := Trace.depth_of_back hd hb hu
    rw [List.length_append]
    omega

/-- When the trace is followed, no more was asked than the depth it began with. -/
theorem Trail.length_asked_le (h : Trail p dec g t₀ asked t) (hd : t.depth ≠ 0) :
    (asked ++ (t.question? g).toList).length ≤ t₀.depth := by
  have := h.length_asked
  have := Option.length_toList_le (o := t.question? g)
  rw [List.length_append]
  omega

end BackwardSearch

namespace Explorer

open BackwardSearch (Fails Steps Trail starting)

variable {x : Explorer} {g : BlockGraph} {p : Program}

/-- If no relocation reads memory, every expression is resolved without a bound on how often memory is read, and
whatever the decoder answers, a backward search to any depth, from any instruction of a graph that explorations
make, for any candidates, takes finitely many traces until none is left or going back fails. It goes up to blocks
that have instructions only. Along each trace, from a candidate to where it ends, the decoder is asked no more
often than the search is deep. -/
theorem backward_searches_end (hp : p.Direct) (hg : x.Attainable g ∨ x.Searched g) (dec : Decoder)
    (depth : Nat) (origin : Address) (candidates : List Expr) :
    (∀ e : Expr, (∀ n, e.resolveUpTo p n = p.resolve e) ∧ p.resolve e = e.resolveWith p p.resolve) ∧
    (∀ a b, g.blockOf? a = some b → b.instructions ≠ []) ∧
    (∀ (t : Trace) (dec' : Decoder), (∀ d a e, t.question? g = some (d, a, e) → dec.stepBack d a e = dec'.stepBack d a e) →
      t.back p dec g = t.back p dec' g) ∧
    (g.isDecoded origin = false → g.searchBack p dec depth origin candidates = .ok []) ∧
    (g.isDecoded origin = true → ∃ block index n u,
      let s := starting depth origin block index candidates
      Steps p dec g s n u ∧ n ≤ Trace.totalWeight s.queue ∧ (∀ m v, Steps p dec g s m v → m ≤ n) ∧
      (u.queue = [] ∧ g.searchBack p dec depth origin candidates = .ok u.found ∨
        ∃ f, g.searchBack p dec depth origin candidates = .error f ∧ Fails p dec g f) ∧
      ∀ m v, Steps p dec g s m v → ∀ t ∈ v.queue, ∃ t₀ ∈ s.queue, ∃ asked, Trail p dec g t₀ asked t ∧
        asked.length + t.depth = depth ∧
          (t.depth ≠ 0 → (asked ++ (t.question? g).toList).length ≤ depth)) := by
  have hg : g.Consistent := hg.elim (·.consistent) (·.consistent.1)
  refine ⟨hp.resolve_eq, fun a b hb => ?_, fun t dec' => Trace.back_congr,
    BlockGraph.searchBack_of_not_isDecoded, fun ho => ?_⟩
  · obtain ⟨s, ho, hb⟩ := BlockGraph.blockOf?_eq_some.1 hb
    obtain ⟨b', d, hb', hd⟩ := hg.exists_has ho
    cases hb.symm.trans hb'
    exact hd.ne_nil
  obtain ⟨block, b, index, d, hb, hi, run⟩ := BlockGraph.searchBack_of_isDecoded hg p dec candidates ho
  obtain ⟨n, u, steps, ends, most⟩ :=
    BackwardSearch.exists_steps p dec g (starting depth origin block index candidates)
  have := steps.totalWeight_le
  refine ⟨block, index, n, u, steps, by omega, most, ?_, fun m v hv t ht => ?_⟩
  · rcases ends with ⟨hq, hr⟩ | ⟨f, -, hr⟩
    · exact Or.inl ⟨hq, (run depth).trans hr⟩
    · have hr := (run depth).trans hr
      exact Or.inr ⟨f, hr, BlockGraph.fails_of_searchBack hg hr⟩
  · obtain ⟨t₀, h₀, asked, trail⟩ := hv.trail _ (fun t ht => ⟨t, ht, [], .start⟩) t ht
    obtain ⟨-, hd, -⟩ := BackwardSearch.placed_candidateTraces hg hb hi h₀
    exact ⟨t₀, h₀, asked, trail, trail.length_asked.trans hd, fun left =>
      hd ▸ trail.length_asked_le left⟩

/-- What is wanted before an instruction grows by a sum with every instruction that is gone back over. -/
def growing : Decoder :=
  { Toy.decoder with stepBack := fun _ _ e => return some (e + Toy.register 3) }

/-- In the loop the expression never comes to an end, but the search does. -/
theorem growing_search_ends : setInLoop.program.Direct ∧ ∃ g block index n u, setInLoop.Searched g ∧
    Steps setInLoop.program growing g (starting 4 0x1008 block index [Toy.register 2]) n u ∧ u.queue = [] ∧
    g.searchBack setInLoop.program growing 4 0x1008 [Toy.register 2] = .ok u.found ∧
    ∀ m v, Steps setInLoop.program growing g (starting 4 0x1008 block index [Toy.register 2]) m v →
      ∀ t ∈ v.queue, ∃ t₀ asked, Trail setInLoop.program growing g t₀ asked t ∧
        asked.length + t.depth = 4 := by
  have run : (do
      let g ← setInLoop.exploreAll .empty [.address 0x1000]
      let b ← Interruption.during g ((g.block? 0x1008).elim (.error (.undecodedSplit 0x1008)) .ok)
      let index ← Interruption.during g (b.indexOf 0x1008)
      let found ← Interruption.during g <|
        BackwardSearch.runFor setInLoop.program growing g 40
          (BackwardSearch.candidateTraces 4 0x1008 0x1008 0 [Toy.register 2]) [] []
      return (g.owner? 0x1008, index, found)) =
      .ok (some 0x1008, some 0, some []) := by
    cbv
  obtain ⟨g, hg, run⟩ := bind_eq_ok.1 run
  obtain ⟨b, hb, run⟩ := bind_eq_ok.1 run
  obtain ⟨index, hi, run⟩ := bind_eq_ok.1 run
  obtain ⟨found, hf, run⟩ := bind_eq_ok.1 run
  simp only [pure_eq_ok, Prod.mk.injEq] at run
  obtain ⟨ho, rfl, rfl⟩ := run
  rw [during_eq_ok, elim_eq_ok] at hb
  rw [during_eq_ok] at hi hf
  have direct : setInLoop.program.Direct := by
    intro s hs offset r hr
    cases List.mem_singleton.1 hs
    simp [Section.ofData] at hr
  have searched : setInLoop.Searched g := .refined (.produced ⟨_, hg⟩)
  obtain ⟨-, -, -, -, ends⟩ :=
    backward_searches_end direct (Or.inr searched) growing 4 0x1008 [Toy.register 2]
  obtain ⟨block, index, n, u, steps, -, -, ⟨hq, hr⟩ | ⟨f, hr, -⟩, trails⟩ :=
    ends (BlockGraph.isDecoded_iff.2 ⟨_, ho⟩)
  · refine ⟨direct, g, block, index, n, u, searched, steps, hq, hr, fun m v hv t ht => ?_⟩
    obtain ⟨t₀, -, asked, trail, count, -⟩ := trails m v hv t ht
    exact ⟨t₀, asked, trail, count⟩
  · cases hr.symm.trans (g.searchBack_of_runFor ho hb hi hf)

end Explorer

end ReachableCode
