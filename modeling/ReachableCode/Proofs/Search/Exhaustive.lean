import ReachableCode.Proofs.Search.Paths

/-!
Backward searches that their depth does not cut short. A standpoint is followed once, whichever trace is
the first to stand there, so where traces are dropped only because their standpoint was followed before,
all standpoints that moves lead to are followed (`Explored`), and whatever a path yields is found.
-/

namespace ReachableCode

open Relation (ReflTransGen)

namespace BackwardSearch

/-- The search after its next trace was taken; none when no trace is left. -/
def next? (p : Program) (dec : Decoder) (g : BlockGraph) (s : BackwardSearch) :
    Except Fault (Option BackwardSearch) :=
  match s.queue with
  | [] => .ok none
  | t :: rest =>
    if t.depth = 0 then .ok (some { s with queue := rest })
    else if s.seen.contains t.key then .ok (some { s with queue := rest })
    else do
      match ← t.back p dec g with
      | .resolved x =>
        return some { queue := rest, seen := s.seen.insert t.key, found := x.addTo s.found }
      | .goesOn ts => return some { s with queue := rest ++ ts, seen := s.seen.insert t.key }

/-- The search goes on as it does from there. -/
theorem run_eq_next? (p : Program) (dec : Decoder) (g : BlockGraph) (s : BackwardSearch) :
    s.run p dec g = s.next? p dec g >>= fun u? => u?.elim (.ok s.found) (run p dec g) := by
  fun_cases BackwardSearch.run p dec g s <;> simp only [next?, *] <;> rfl

open Trace (totalWeight)

/-- The ways to take the next trace. -/
inductive Takes (p : Program) (dec : Decoder) (g : BlockGraph) (s : BackwardSearch) :
    Option BackwardSearch → Prop
  /-- No trace is left. -/
  | ends : s.queue = [] → Takes p dec g s none
  /-- The trace has used up its depth, or one that stood there was followed before. -/
  | drops {t : Trace} {rest : List Trace} : s.queue = t :: rest →
      t.depth = 0 ∨ s.seen.contains t.key = true → Takes p dec g s (some { s with queue := rest })
  | resolves {t : Trace} {rest : List Trace} {x : Target} : s.queue = t :: rest → t.depth ≠ 0 →
      s.seen.contains t.key = false → t.back p dec g = .ok (.resolved x) →
      Takes p dec g s (some { queue := rest, seen := s.seen.insert t.key, found := x.addTo s.found })
  | goesOn {t : Trace} {rest ts : List Trace} : s.queue = t :: rest → t.depth ≠ 0 →
      s.seen.contains t.key = false → t.back p dec g = .ok (.goesOn ts) →
      Takes p dec g s (some { s with queue := rest ++ ts, seen := s.seen.insert t.key })

/-- So many traces were taken from the one state to the other. -/
inductive Steps (p : Program) (dec : Decoder) (g : BlockGraph) :
    BackwardSearch → Nat → BackwardSearch → Prop
  | refl (s : BackwardSearch) : Steps p dec g s 0 s
  | step {s u v : BackwardSearch} {n : Nat} :
      s.next? p dec g = .ok (some u) → Steps p dec g u n v → Steps p dec g s (n + 1) v

variable {p : Program} {dec : Decoder} {g : BlockGraph} {s u : BackwardSearch} {u? : Option BackwardSearch}
  {n : Nat}

theorem takes_of_next? (h : s.next? p dec g = .ok u?) : Takes p dec g s u? := by
  rw [next?] at h
  split at h
  next hq =>
    cases h
    exact .ends hq
  next t rest hq =>
    split at h
    next hd =>
      cases h
      exact .drops hq (Or.inl hd)
    next hd =>
      split at h
      next seen =>
        cases h
        exact .drops hq (Or.inr seen)
      next new =>
        obtain ⟨r, hb, h⟩ := bind_eq_ok.1 h
        have new := Bool.eq_false_iff.2 new
        cases r with
        | resolved x =>
          cases h
          exact .resolves hq hd new hb
        | goesOn ts =>
          cases h
          exact .goesOn hq hd new hb

/-- Taking a trace lowers the weight of the queue. -/
theorem totalWeight_next (h : s.next? p dec g = .ok (some u)) :
    totalWeight u.queue < totalWeight s.queue := by
  have pos (t : Trace) : 0 < t.weight := Trace.cost_pos _ _
  cases takes_of_next? h with
  | drops hq | resolves hq =>
    rw [hq, Trace.totalWeight_cons]
    exact Nat.lt_add_of_pos_left (pos _)
  | goesOn hq hd _ hb =>
    rw [hq, Trace.totalWeight_cons, Trace.totalWeight_append, Nat.add_comm]
    exact Nat.add_lt_add_right (Trace.totalWeight_back hd hb) _

theorem Steps.totalWeight_le (h : Steps p dec g s n u) :
    n + totalWeight u.queue ≤ totalWeight s.queue := by
  induction h with
  | refl => omega
  | step hn _ ih =>
    have := totalWeight_next hn
    omega

/-- No more traces are taken where a search ends. -/
theorem Steps.eq_zero (h : Steps p dec g s n u) (hs : ∀ v, s.next? p dec g ≠ .ok (some v)) : n = 0 := by
  cases h with
  | refl => rfl
  | step hn => exact absurd hn (hs _)

/-- From every state a search comes to its end, by a number of traces that depends on the state alone. -/
theorem exists_steps (p : Program) (dec : Decoder) (g : BlockGraph) (s : BackwardSearch) :
    ∃ n u, Steps p dec g s n u ∧
      (u.queue = [] ∧ s.run p dec g = .ok u.found ∨
        ∃ f, u.next? p dec g = .error f ∧ s.run p dec g = .error f) ∧
      ∀ m v, Steps p dec g s m v → m ≤ n := by
  induction hw : totalWeight s.queue using Nat.strong_induction_on generalizing s with
  | _ weight ih =>
    have run := run_eq_next? p dec g s
    cases hn : s.next? p dec g with
    | error f =>
      rw [hn] at run
      refine ⟨0, s, .refl s, Or.inr ⟨f, hn, run⟩, fun m v h => Nat.le_of_eq (h.eq_zero fun v hv => ?_)⟩
      cases hn.symm.trans hv
    | ok u? =>
      rw [hn] at run
      cases u? with
      | none =>
        refine ⟨0, s, .refl s, Or.inl ⟨?_, run⟩, fun m v h => Nat.le_of_eq (h.eq_zero fun v hv => ?_)⟩
        · cases takes_of_next? hn with
          | ends hq => exact hq
        · cases hn.symm.trans hv
      | some u =>
        obtain ⟨n, v, steps, ends, most⟩ := ih _ (hw ▸ totalWeight_next hn) u rfl
        refine ⟨n + 1, v, .step hn steps, run.symm ▸ ends, fun m w h => ?_⟩
        cases h with
        | refl => exact Nat.zero_le _
        | step hn' h =>
          cases hn.symm.trans hn'
          exact Nat.succ_le_succ (most _ _ h)

/-- The next trace is dropped because it has used up its depth. -/
def Drops (s : BackwardSearch) : Prop :=
  ∃ t rest, s.queue = t :: rest ∧ t.depth = 0

end BackwardSearch

namespace BlockGraph

open BackwardSearch (candidateTraces)

/-- The states that a search for candidates wanted before the instruction at `origin` goes through. -/
inductive SearchState (g : BlockGraph) (p : Program) (dec : Decoder) (depth : Nat) (origin : Address)
    (candidates : List Expr) : BackwardSearch → Prop
  | start {block : Address} {b : Block} {i : Nat} : g.owner? origin = some block →
      g.block? block = some b → b.indexOf origin = .ok (some i) →
      SearchState g p dec depth origin candidates
        { queue := candidateTraces depth origin block i candidates, seen := ∅, found := [] }
  | next {s u : BackwardSearch} : SearchState g p dec depth origin candidates s →
      s.next? p dec g = .ok (some u) → SearchState g p dec depth origin candidates u

end BlockGraph

namespace BackwardSearch

/-- The standpoint was followed or is that of a trace in the queue. -/
def Awaits (s : BackwardSearch) (k : Standpoint) : Prop :=
  s.seen.contains k = true ∨ ∃ t ∈ s.queue, t.key = k

/-- The standpoints that were followed lead only to such that are followed too, now or later, and what is
found there was found. -/
structure Explored (p : Program) (dec : Decoder) (g : BlockGraph) (from? : Standpoint → Prop)
    (s : BackwardSearch) : Prop where
  placed : ∀ t ∈ s.queue, t.Placed g
  starts : ∀ {k}, from? k → s.Awaits k
  moves : ∀ {k k'}, s.seen.contains k = true → Moves p dec g k k' → s.Awaits k'
  finds : ∀ {k x}, s.seen.contains k = true → Finds p dec g k x → x ∈ s.found

variable {p : Program} {dec : Decoder} {g : BlockGraph} {from? : Standpoint → Prop}
  {s u : BackwardSearch} {t : Trace} {rest ts : List Trace} {found : List Target} {k k' : Standpoint}

namespace Explored

theorem drop (hs : Explored p dec g from? s) (hq : s.queue = t :: rest)
    (hd : s.seen.contains t.key = true) : Explored p dec g from? { s with queue := rest } := by
  have awaits : ∀ {k}, s.Awaits k → Awaits { s with queue := rest } k := by
    intro k hk
    rcases hk with hk | ⟨u, hu, rfl⟩
    · exact Or.inl hk
    · rw [hq] at hu
      rcases List.mem_cons.1 hu with rfl | hu
      · exact Or.inl hd
      · exact Or.inr ⟨u, hu, rfl⟩
  exact {
    placed := fun u hu => hs.placed u (by rw [hq]; exact List.mem_cons_of_mem _ hu)
    starts := fun hk => awaits (hs.starts hk)
    moves := fun hk hm => awaits (hs.moves hk hm)
    finds := hs.finds }

theorem follow (hs : Explored p dec g from? s) (hq : s.queue = t :: rest)
    (placed : ∀ u ∈ ts, u.Placed g) (all : ∀ k, Moves p dec g t.key k → ∃ u ∈ ts, u.key = k)
    (more : ∀ x, x ∈ found ↔ x ∈ s.found ∨ Finds p dec g t.key x) :
    Explored p dec g from? { queue := rest ++ ts, seen := s.seen.insert t.key, found := found } := by
  have seen : ∀ {k}, (s.seen.insert t.key).contains k = true ↔ k = t.key ∨ s.seen.contains k = true := by
    intro k
    rw [Std.HashSet.contains_insert, Bool.or_eq_true, beq_iff_eq, eq_comm]
  have awaits : ∀ {k}, s.Awaits k →
      Awaits { queue := rest ++ ts, seen := s.seen.insert t.key, found := found } k := by
    intro k hk
    rcases hk with hk | ⟨u, hu, rfl⟩
    · exact Or.inl (seen.2 (Or.inr hk))
    · rw [hq] at hu
      rcases List.mem_cons.1 hu with rfl | hu
      · exact Or.inl (seen.2 (Or.inl rfl))
      · exact Or.inr ⟨u, List.mem_append_left _ hu, rfl⟩
  constructor
  case placed =>
    intro u hu
    rcases List.mem_append.1 hu with hu | hu
    · exact hs.placed u (by rw [hq]; exact List.mem_cons_of_mem _ hu)
    · exact placed u hu
  case starts => exact fun hk => awaits (hs.starts hk)
  case moves =>
    intro k k' hk hm
    rcases seen.1 hk with rfl | hk
    · obtain ⟨u, hu, he⟩ := all _ hm
      exact Or.inr ⟨u, List.mem_append_right _ hu, he⟩
    · exact awaits (hs.moves hk hm)
  case finds =>
    intro k x hk hx
    rcases seen.1 hk with rfl | hk
    · exact (more x).2 (Or.inr hx)
    · exact (more x).2 (Or.inl (hs.finds hk hx))

/-- Taking a trace that has depth left keeps all that is awaited. -/
theorem next (hs : Explored p dec g from? s) (hg : g.Consistent)
    (hn : s.next? p dec g = .ok (some u)) (hd : ¬s.Drops) : Explored p dec g from? u := by
  have placed {t : Trace} {rest : List Trace} (hq : s.queue = t :: rest) : t.Placed g :=
    hs.placed t (hq ▸ List.mem_cons_self)
  cases takes_of_next? hn with
  | drops hq why => exact hs.drop hq (why.resolve_left fun used => hd ⟨_, _, hq, used⟩)
  | @resolves t rest x hq left _ hb =>
    obtain ⟨finds, none⟩ := back_resolved hg (placed hq) hb
    have more : ∀ y, y ∈ x.addTo s.found ↔ y ∈ s.found ∨ Finds p dec g t.key y := fun y => by
      rw [Target.mem_addTo, finds, or_comm]
    have := hs.follow hq (List.forall_mem_nil _) (fun k hk => (none k hk).elim) more
    rwa [List.append_nil] at this
  | goesOn hq left _ hb =>
    obtain ⟨none, ahead, all⟩ := back_goesOn hg (placed hq) left hb
    exact hs.follow hq (fun u hu => (ahead u hu).1) all fun y => by simp [none]

theorem seen_of_moves (hs : Explored p dec g from? s) (hq : s.queue = []) (hk : from? k)
    (hm : ReflTransGen (Moves p dec g) k k') : s.seen.contains k' = true := by
  have settled : ∀ {k}, s.Awaits k → s.seen.contains k = true := by
    intro k hk
    rcases hk with hk | ⟨t, ht, -⟩
    · exact hk
    · rw [hq] at ht
      cases ht
  induction hm with
  | refl => exact settled (hs.starts hk)
  | tail _ hm ih => exact settled (hs.moves ih hm)

end Explored

/-- Whether a search drops no trace for lack of depth, told with fuel and from a list of the standpoints
it has followed, so that it can be evaluated. -/
def dropsNone (p : Program) (dec : Decoder) (g : BlockGraph) :
    Nat → List Trace → List Standpoint → Bool
  | 0, _, _ => false
  | _ + 1, [], _ => true
  | fuel + 1, t :: rest, seen =>
    t.depth ≠ 0 &&
      if seen.contains t.key then dropsNone p dec g fuel rest seen
      else match t.back p dec g with
        | .error _ => true
        | .ok (.resolved _) => dropsNone p dec g fuel rest (t.key :: seen)
        | .ok (.goesOn ts) => dropsNone p dec g fuel (rest ++ ts) (t.key :: seen)

/-- The list has the standpoints that the search has followed, and from there it drops no trace. -/
def DropsNone (p : Program) (dec : Decoder) (g : BlockGraph) (s : BackwardSearch) : Prop :=
  ∃ fuel seen, (∀ k, s.seen.contains k = true ↔ k ∈ seen) ∧ dropsNone p dec g fuel s.queue seen = true

namespace DropsNone

theorem not_drops (hs : DropsNone p dec g s) : ¬s.Drops := by
  rintro ⟨t, rest, hq, hd⟩
  obtain ⟨fuel, seen, -, h⟩ := hs
  cases fuel <;> simp [dropsNone, hq, hd] at h

theorem next (hs : DropsNone p dec g s) (hn : s.next? p dec g = .ok (some u)) : DropsNone p dec g u := by
  obtain ⟨fuel, seen, hseen, h⟩ := hs
  have insert (t : Trace) (k : Standpoint) :
      (s.seen.insert t.key).contains k = true ↔ k ∈ t.key :: seen := by
    rw [Std.HashSet.contains_insert, Bool.or_eq_true, hseen, beq_iff_eq, List.mem_cons, eq_comm]
  have known {t : Trace} : seen.contains t.key = s.seen.contains t.key := by
    rw [Bool.eq_iff_iff, List.contains_iff_mem, hseen]
  cases fuel with
  | zero => cases h
  | succ fuel =>
    cases takes_of_next? hn with
    | drops hq why =>
      rw [hq, dropsNone, Bool.and_eq_true, decide_eq_true_eq, known] at h
      rw [if_pos (why.resolve_left h.1)] at h
      exact ⟨fuel, seen, hseen, h.2⟩
    | resolves hq left new hb =>
      rw [hq, dropsNone, Bool.and_eq_true, known, new, hb] at h
      exact ⟨fuel, _, insert _, h.2⟩
    | goesOn hq left new hb =>
      rw [hq, dropsNone, Bool.and_eq_true, known, new, hb] at h
      exact ⟨fuel, _, insert _, h.2⟩

end DropsNone

end BackwardSearch

namespace BlockGraph

open BackwardSearch (DropsNone Explored Faces Yields candidateTraces dropsNone)

variable {p : Program} {dec : Decoder} {g : BlockGraph} {origin : Address} {candidates : List Expr}
  {depth : Nat} {s : BackwardSearch} {found : List Target}

theorem SearchState.steps {u : BackwardSearch} {n : Nat} (hs : g.SearchState p dec depth origin candidates s)
    (h : BackwardSearch.Steps p dec g s n u) : g.SearchState p dec depth origin candidates u := by
  induction h with
  | refl => exact hs
  | step hn _ ih => exact ih (hs.next hn)

/-- A search that ends went through states up to one without traces. -/
theorem SearchState.exists_end (hs : g.SearchState p dec depth origin candidates s)
    (hr : s.run p dec g = .ok found) :
    ∃ u, g.SearchState p dec depth origin candidates u ∧ u.queue = [] ∧ u.found = found := by
  obtain ⟨n, u, steps, ends, -⟩ := BackwardSearch.exists_steps p dec g s
  rcases ends with ⟨hq, hr'⟩ | ⟨f, -, hr'⟩
  · cases hr.symm.trans hr'
    exact ⟨u, hs.steps steps, hq, rfl⟩
  · cases hr.symm.trans hr'

theorem SearchState.explored (hs : g.SearchState p dec depth origin candidates s) (hg : g.Consistent)
    (hd : ∀ {u}, g.SearchState p dec depth origin candidates u → ¬u.Drops) :
    Explored p dec g (fun k => k.2.2 ∈ candidates ∧ Faces g k origin) s := by
  induction hs with
  | @start block b i ho hb hi =>
    obtain ⟨b', d, hb', j, hj⟩ := hg.exists_has ho
    obtain rfl : b = b' := Option.some.inj (hb.symm.trans hb')
    cases (hg.indexOf_eq hb hj).symm.trans hi
    constructor
    case placed => exact fun t ht => (BackwardSearch.placed_candidateTraces hg hb hj ht).1
    case starts =>
      rintro ⟨s, i', e⟩ ⟨he, c, d', hc, hi'⟩
      obtain ⟨rfl, rfl, -⟩ := hg.place_unique hc hi' hb hj
      exact Or.inr ⟨_, List.mem_map.2 ⟨e, he, rfl⟩, rfl⟩
    case moves => simp
    case finds => simp
  | next hs hn ih => exact ih.next hg hn (hd hs)

/-- What a path yields is returned when no trace is dropped for lack of depth. -/
theorem mem_of_yields (hg : g.Consistent)
    (hd : ∀ {s}, g.SearchState p dec depth origin candidates s → ¬s.Drops)
    (hr : g.searchBack p dec depth origin candidates = .ok found) {e : Expr} (he : e ∈ candidates)
    {n : Nat} {t : Target} (hy : Yields p dec g origin e n t) : t ∈ found := by
  obtain ⟨block, i, b, d, hb, hi⟩ : ∃ s i, Faces g (s, i, e) origin := by
    cases hy with
    | intro hr hp => exact hr.exists_faces hp e
  have ho := hg.owner_of_has hb ⟨i, hi⟩
  rw [searchBack, ho] at hr
  dsimp only at hr
  rw [hb] at hr
  dsimp only at hr
  rw [hg.indexOf_eq hb hi] at hr
  have start : g.SearchState p dec depth origin candidates _ := .start ho hb (hg.indexOf_eq hb hi)
  obtain ⟨u, hu, hq, rfl⟩ := start.exists_end hr
  have explored := hu.explored hg hd
  obtain ⟨k, moves, finds⟩ := Yields.finds (k := (block, i, e)) hg hy ⟨b, d, hb, hi⟩
  exact explored.finds (explored.seen_of_moves hq ⟨he, b, d, hb, hi⟩ moves) finds

theorem SearchState.dropsNone (hs : g.SearchState p dec depth origin candidates s)
    {block : Address} {b : Block} {i fuel : Nat} (ho : g.owner? origin = some block)
    (hb : g.block? block = some b) (hi : b.indexOf origin = .ok (some i))
    (h : dropsNone p dec g fuel (candidateTraces depth origin block i candidates) [] = true) :
    DropsNone p dec g s := by
  induction hs with
  | start ho' hb' hi' =>
    cases ho.symm.trans ho'
    cases hb.symm.trans hb'
    cases hi.symm.trans hi'
    exact ⟨fuel, [], by simp, h⟩
  | next _ hn ih => exact ih.next hn

end BlockGraph

namespace Explorer

open BackwardSearch (Yields Fails)

/-- A search in which no trace is dropped for lack of depth returns exactly what paths back from the
instruction yield for the candidates, however long, unless it fails as the decoder or the resolution
of an expression does. -/
theorem undropped_search_returns_all {x : Explorer} {g : BlockGraph} {p : Program} {dec : Decoder}
    {depth : Nat} {origin : Address} {candidates : List Expr} (hs : x.Searched g)
    (hd : ∀ {s}, g.SearchState p dec depth origin candidates s → ¬s.Drops) :
    (∃ found, g.searchBack p dec depth origin candidates = .ok found ∧
      ∀ t, t ∈ found ↔ ∃ e ∈ candidates, ∃ n, Yields p dec g origin e n t) ∨
    ∃ f, g.searchBack p dec depth origin candidates = .error f ∧ Fails p dec g f := by
  obtain ⟨hg, -⟩ := hs.consistent
  cases hr : g.searchBack p dec depth origin candidates with
  | error f => exact Or.inr ⟨f, rfl, g.fails_of_searchBack hg hr⟩
  | ok found =>
    refine Or.inl ⟨found, rfl, fun t => ⟨fun ht => ?_, ?_⟩⟩
    · obtain ⟨e, he, n, -, -, hy⟩ := g.yields_of_searchBack hg hr ht
      exact ⟨e, he, n, hy⟩
    · rintro ⟨e, he, n, hy⟩
      exact g.mem_of_yields hg hd hr he hy

/-- One register is found in the loop. The other is followed around the loop once, and comes back to where it
was with depth left. -/
theorem setInLoop_drops_none : ∃ g, setInLoop.exploreAll .empty [.address 0x1000] = .ok g ∧
    ∀ {s}, g.SearchState setInLoop.program setInLoop.decoder 3 0x1008 [Toy.register 2, Toy.register 3] s →
      ¬s.Drops := by
  have run : (do
      let g ← setInLoop.exploreAll .empty [.address 0x1000]
      let b ← Interruption.during g ((g.block? 0x1008).elim (.error (.undecodedSplit 0x1008)) .ok)
      let index ← Interruption.during g (b.indexOf 0x1008)
      return (g.owner? 0x1008, index, BackwardSearch.dropsNone setInLoop.program setInLoop.decoder g 20
        (BackwardSearch.candidateTraces 3 0x1008 0x1008 0 [Toy.register 2, Toy.register 3]) [])) =
      .ok (some 0x1008, some 0, true) := by
    cbv
  obtain ⟨g, hg, run⟩ := bind_eq_ok.1 run
  obtain ⟨b, hb, run⟩ := bind_eq_ok.1 run
  obtain ⟨index, hi, run⟩ := bind_eq_ok.1 run
  simp only [pure, Except.pure, Except.ok.injEq, Prod.mk.injEq] at run
  obtain ⟨ho, rfl, h⟩ := run
  rw [during_eq_ok, elim_eq_ok] at hb
  rw [during_eq_ok] at hi
  exact ⟨g, hg, fun hs => (hs.dropsNone ho hb hi h).not_drops⟩

theorem setInLoop_returns_all : ∃ g found, setInLoop.Searched g ∧
    (∀ {s}, g.SearchState setInLoop.program setInLoop.decoder 3 0x1008
      [Toy.register 2, Toy.register 3] s → ¬s.Drops) ∧
    g.searchBack setInLoop.program setInLoop.decoder 3 0x1008 [Toy.register 2, Toy.register 3] =
      .ok found ∧
    ∀ t, t ∈ found ↔ ∃ e ∈ [Toy.register 2, Toy.register 3], ∃ n,
      Yields setInLoop.program setInLoop.decoder g 0x1008 e n t := by
  obtain ⟨g, hg, hd⟩ := setInLoop_drops_none
  obtain ⟨g', hg', hr⟩ := setInLoop_search
  cases hg.symm.trans hg'
  have hs : setInLoop.Searched g := .refined (.produced ⟨_, hg⟩)
  rcases undropped_search_returns_all hs hd with ⟨found, hf, all⟩ | ⟨f, hf, -⟩
  · exact ⟨g, found, hs, hd, hf, all⟩
  · cases hf.symm.trans hr

end Explorer

end ReachableCode
