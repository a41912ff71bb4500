import Mathlib
import ReachableCode.Proofs.Exploration.Sound
import ReachableCode.Proofs.Search.Walk

/-!
How the depth of a backward search bears on what it finds. Traces are followed in the order of how far
they have moved, over instructions and up alike, and only the first one to stand at a place is followed
on. Going up costs no depth, so it may have gone over more instructions than another one that comes
later, and leave less depth for what lies behind. It goes over less than twice as many, though.
-/

namespace ReachableCode

namespace BackwardSearch

/-- How far a trace of a search to a depth has moved when it went up that often. -/
def moved (depth : Nat) (u : Trace × Nat) : Nat :=
  depth - u.1.depth + u.2

/-- A walk over `m` instructions and up `n` times need not be followed further: it has used up the depth, or
one that moved no further was followed from its end, or it is in the queue. -/
def Covered (depth : Nat) (queue : List (Trace × Nat)) (followed : Standpoint → Nat → Nat → Prop)
    (k : Standpoint) (m n : Nat) : Prop :=
  depth ≤ m ∨ (∃ m' n', followed k m' n' ∧ m' + n' ≤ m + n) ∨
    ∃ t, (t, n) ∈ queue ∧ t.key = k ∧ t.depth + m = depth

/-- The state of a search to a depth: the queue, with how often each trace went up, the standpoints
that were followed, with the walks to them, and the targets found. -/
structure Searching (p : Program) (dec : Decoder) (g : BlockGraph) (from? : Standpoint → Prop)
    (depth : Nat) (queue : List (Trace × Nat)) (followed : Standpoint → Nat → Nat → Prop)
    (found : List Target) : Prop where
  queued : ∀ {t n}, (t, n) ∈ queue →
    t.Placed g ∧ ∃ m, t.depth + m = depth ∧ Walk p dec g from? m n t.key
  walked : ∀ {k m n}, followed k m n → Walk p dec g from? m n k ∧ m < depth
  sorted : queue.Pairwise fun u v => moved depth u ≤ moved depth v ∧ moved depth v ≤ moved depth u + 1
  behind : ∀ {k m n u}, followed k m n → u ∈ queue → m + n ≤ moved depth u
  starts : ∀ {k}, from? k → Covered depth queue followed k 0 0
  moves : ∀ {k k' m n}, followed k m n → Moves p dec g k k' →
    Covered depth queue followed k' (m + k.overs) (n + k.ups)
  finds : ∀ {k m n x}, followed k m n → Finds p dec g k x → x ∈ found
  sound : ∀ {x}, x ∈ found → ∃ k m n, followed k m n ∧ Finds p dec g k x

variable {p : Program} {dec : Decoder} {g : BlockGraph} {from? : Standpoint → Prop} {depth m n : Nat}
  {queue : List (Trace × Nat)} {followed : Standpoint → Nat → Nat → Prop} {found found' : List Target}
  {k k' : Standpoint} {t u : Trace} {ts : List Trace}

theorem Covered.mono {queue' : List (Trace × Nat)} {followed' : Standpoint → Nat → Nat → Prop}
    (hc : Covered depth queue followed k m n)
    (hf : ∀ {k m n}, followed k m n → followed' k m n)
    (hq : ∀ t, (t, n) ∈ queue → t.key = k → t.depth + m = depth → Covered depth queue' followed' k m n) :
    Covered depth queue' followed' k m n := by
  rcases hc with hd | ⟨m', n', hk, hle⟩ | ⟨t, ht, hk, hm⟩
  · exact Or.inl hd
  · exact Or.inr (Or.inl ⟨m', n', hf hk, hle⟩)
  · exact hq t ht hk hm

namespace Searching

theorem drop (hs : Searching p dec g from? depth ((t, n) :: queue) followed found)
    (hd : t.depth = 0 ∨ ∃ m n, followed t.key m n) :
    Searching p dec g from? depth queue followed found := by
  have covered : ∀ {k m n'}, Covered depth ((t, n) :: queue) followed k m n' →
      Covered depth queue followed k m n' := by
    intro k m n' hc
    refine hc.mono id fun u hu hk hm => ?_
    rcases List.mem_cons.1 hu with hu | hu
    · cases hu
      rcases hd with hd | ⟨m', n', hf⟩
      · exact Or.inl (by omega)
      · -- the one followed in its stead moved no further
        have := hs.behind hf List.mem_cons_self
        simp only [moved] at this
        exact Or.inr (Or.inl ⟨m', n', hk ▸ hf, by omega⟩)
    · exact Or.inr (Or.inr ⟨u, hu, hk, hm⟩)
  exact {
    queued := fun hu => hs.queued (List.mem_cons_of_mem _ hu)
    walked := hs.walked
    sorted := hs.sorted.of_cons
    behind := fun hf hu => hs.behind hf (List.mem_cons_of_mem _ hu)
    starts := fun hk => covered (hs.starts hk)
    moves := fun hf hm => covered (hs.moves hf hm)
    finds := hs.finds
    sound := hs.sound }

/-- A trace is followed: where it goes on from is queued, and what it finds is found. -/
theorem follow (hs : Searching p dec g from? depth ((t, n) :: queue) followed found) (hd : t.depth ≠ 0)
    (next : ∀ u ∈ ts, u.Placed g ∧ u.depth + Standpoint.overs t.key = t.depth ∧ Moves p dec g t.key u.key)
    (all : ∀ k, Moves p dec g t.key k → ∃ u ∈ ts, u.key = k)
    (more : ∀ x, x ∈ found' ↔ x ∈ found ∨ Finds p dec g t.key x) :
    Searching p dec g from? depth (queue ++ ts.map fun u => (u, n + Standpoint.ups t.key))
      (fun k m n' => followed k m n' ∨ k = t.key ∧ m = depth - t.depth ∧ n' = n) found' := by
  obtain ⟨placed, m, hm, walk⟩ := hs.queued List.mem_cons_self
  obtain rfl : m = depth - t.depth := by omega
  obtain ⟨near, sorted⟩ := List.pairwise_cons.1 hs.sorted
  -- a move is one further, whether over an instruction or up
  have further : ∀ u ∈ ts, moved depth (u, n + Standpoint.ups t.key) = moved depth (t, n) + 1 := by
    intro u hu
    have := (next u hu).2.1
    have := Standpoint.overs_add_ups (k := t.key)
    simp only [moved]
    omega
  have covered : ∀ {k m n'}, Covered depth ((t, n) :: queue) followed k m n' →
      Covered depth (queue ++ ts.map fun u => (u, n + Standpoint.ups t.key))
        (fun k m n' => followed k m n' ∨ k = t.key ∧ m = depth - t.depth ∧ n' = n) k m n' := by
    intro k m n' hc
    refine hc.mono Or.inl fun u hu hk hm => ?_
    rcases List.mem_cons.1 hu with hu | hu
    · cases hu
      exact Or.inr (Or.inl ⟨m, n, Or.inr ⟨hk.symm, by omega, rfl⟩, Nat.le_refl _⟩)
    · exact Or.inr (Or.inr ⟨u, List.mem_append_left _ hu, hk, hm⟩)
  constructor
  case queued =>
    intro u n' hu
    rcases List.mem_append.1 hu with hu | hu
    · exact hs.queued (List.mem_cons_of_mem _ hu)
    · obtain ⟨v, hv, he⟩ := List.mem_map.1 hu
      cases he
      obtain ⟨placed, hd, hm⟩ := next _ hv
      exact ⟨placed, _, by omega, walk.move hm⟩
  case walked =>
    intro k m n' hf
    rcases hf with hf | ⟨rfl, rfl, rfl⟩
    · exact hs.walked hf
    · exact ⟨walk, by omega⟩
  case sorted =>
    refine List.pairwise_append.2 ⟨sorted, List.pairwise_map.2 ?_, fun v hv w hw => ?_⟩
    · refine List.pairwise_of_forall_mem_list fun u hu v hv => ?_
      have := further u hu
      have := further v hv
      omega
    · obtain ⟨u, hu, rfl⟩ := List.mem_map.1 hw
      have := further u hu
      have := near v hv
      omega
  case behind =>
    intro k m n' v hf hv
    have here : ∀ {k m n'}, followed k m n' ∨ k = t.key ∧ m = depth - t.depth ∧ n' = n →
        m + n' ≤ moved depth (t, n) := by
      intro k m n' hf
      rcases hf with hf | ⟨-, rfl, rfl⟩
      · exact hs.behind hf List.mem_cons_self
      · exact Nat.le_refl _
    have := here hf
    rcases List.mem_append.1 hv with hv | hv
    · have := near v hv
      omega
    · obtain ⟨u, hu, rfl⟩ := List.mem_map.1 hv
      have := further u hu
      omega
  case starts => exact fun hk => covered (hs.starts hk)
  case moves =>
    intro k k' m n' hf hk
    rcases hf with hf | ⟨rfl, rfl, rfl⟩
    · exact covered (hs.moves hf hk)
    · obtain ⟨u, hu, rfl⟩ := all k' hk
      have := (next u hu).2.1
      exact Or.inr (Or.inr ⟨u, List.mem_append_right _ (List.mem_map.2 ⟨u, hu, rfl⟩), rfl, by omega⟩)
  case finds =>
    intro k m n' x hf hx
    rcases hf with hf | ⟨rfl, rfl, rfl⟩
    · exact (more x).2 (Or.inl (hs.finds hf hx))
    · exact (more x).2 (Or.inr hx)
  case sound =>
    intro x hx
    rcases (more x).1 hx with hx | hx
    · obtain ⟨k, m, n', hf, hx⟩ := hs.sound hx
      exact ⟨k, m, n', Or.inl hf, hx⟩
    · exact ⟨_, _, _, Or.inr ⟨rfl, rfl, rfl⟩, hx⟩

theorem start {traces : List Trace} (ht : ∀ t ∈ traces, t.Placed g ∧ t.depth = depth ∧ from? t.key)
    (hk : ∀ k, from? k → ∃ t ∈ traces, t.key = k) :
    Searching p dec g from? depth (traces.map fun t => (t, 0)) (fun _ _ _ => False) [] := by
  constructor
  case queued =>
    intro t n hn
    obtain ⟨t, ht', he⟩ := List.mem_map.1 hn
    cases he
    obtain ⟨placed, hd, hf⟩ := ht t ht'
    exact ⟨placed, 0, by omega, .start hf⟩
  case sorted =>
    refine List.pairwise_map.2 (List.pairwise_of_forall_mem_list fun t hu v hv => ?_)
    have := (ht t hu).2.1
    have := (ht v hv).2.1
    simp only [moved]
    omega
  case starts =>
    intro k hf
    obtain ⟨t, ht', rfl⟩ := hk k hf
    exact Or.inr (Or.inr ⟨t, List.mem_map.2 ⟨t, ht', rfl⟩, rfl, by simp [(ht t ht').2.1]⟩)
  all_goals simp

theorem contains_insert {seen : Std.HashSet Standpoint}
    (hseen : ∀ k, seen.contains k = true ↔ ∃ m n, followed k m n) (k' : Standpoint) :
    (seen.insert k).contains k' = true ↔ ∃ m' n', followed k' m' n' ∨ k' = k ∧ m' = m ∧ n' = n := by
  rw [Std.HashSet.contains_insert, Bool.or_eq_true, hseen, beq_iff_eq]
  constructor
  · intro hk
    rcases hk with rfl | ⟨m', n', hf⟩
    · exact ⟨m, n, Or.inr ⟨rfl, rfl, rfl⟩⟩
    · exact ⟨m', n', Or.inl hf⟩
  · rintro ⟨m', n', hf | ⟨rfl, -, -⟩⟩
    · exact Or.inr ⟨m', n', hf⟩
    · exact Or.inl rfl

/-- A search that ends has followed all that it covers. -/
theorem run (hg : g.Consistent) {s : BackwardSearch} {out : List Target}
    (hs : Searching p dec g from? depth queue followed s.found) (hq : queue.map (·.1) = s.queue)
    (hseen : ∀ k, s.seen.contains k = true ↔ ∃ m n, followed k m n) (hr : s.run p dec g = .ok out) :
    ∃ followed, Searching p dec g from? depth [] followed out := by
  fun_induction BackwardSearch.run p dec g s generalizing queue followed with
  | case1 s hs' =>
    rw [hs'] at hq
    cases List.map_eq_nil_iff.1 hq
    cases hr
    exact ⟨followed, hs⟩
  | case2 s t rest hs' _ _ hd ih =>
    obtain ⟨⟨t, n⟩, queue, rfl, rfl, rfl⟩ := List.map_eq_cons_iff.1 (hq.trans hs')
    exact ih (hs.drop (Or.inl hd)) rfl hseen hr
  | case3 s t rest hs' _ _ hd seen ih =>
    obtain ⟨⟨t, n⟩, queue, rfl, rfl, rfl⟩ := List.map_eq_cons_iff.1 (hq.trans hs')
    exact ih (hs.drop (Or.inr ((hseen _).1 seen))) rfl hseen hr
  | case4 => cases hr
  | case5 s t rest hs' _ _ hd _ x hb ih =>
    obtain ⟨⟨t, n⟩, queue, rfl, rfl, rfl⟩ := List.map_eq_cons_iff.1 (hq.trans hs')
    obtain ⟨finds, none⟩ := back_resolved hg (hs.queued List.mem_cons_self).1 hb
    have idle : ∀ u ∈ ([] : List Trace), u.Placed g ∧ u.depth + Standpoint.overs t.key = t.depth ∧
        Moves p dec g t.key u.key := by simp
    refine ih (hs.follow hd idle (fun k hk => (none k hk).elim) fun y => ?_) (by simp)
      (contains_insert hseen) hr
    rw [Target.mem_addTo, finds, or_comm]
  | case6 s t rest hs' _ _ hd _ ts hb _ _ ih =>
    obtain ⟨⟨t, n⟩, queue, rfl, rfl, rfl⟩ := List.map_eq_cons_iff.1 (hq.trans hs')
    obtain ⟨none, next, all⟩ := back_goesOn hg (hs.queued List.mem_cons_self).1 hd hb
    refine ih (hs.follow hd next all fun y => ?_) (by simp [Function.comp_def]) (contains_insert hseen) hr
    simp [none]

/-- A search follows the walks of one that is not so deep, or others to the same places that move no
further: by what they may have gone over more, the depth is enough for both. -/
theorem exists_followed (hs : Searching p dec g from? depth [] followed found) (hg : g.Consistent)
    {block : Address} {index : Nat} (hk : ∀ k, from? k → k.1 = block ∧ k.2.1 = index) {less : Nat}
    (hle : less ≤ depth) (hd : 2 * less ≤ depth + 3) (hw : Walk p dec g from? m n k) (hm : m < less) :
    ∃ m' n', followed k m' n' ∧ m' + n' ≤ m + n := by
  induction hw with
  | start h =>
    rcases hs.starts h with used | covered | ⟨t, ht, -⟩
    · omega
    · exact covered
    · cases ht
  | @move m n k k' hw hmove ih =>
    obtain ⟨m', n', hf, near⟩ := ih (by omega)
    rcases hs.moves hf hmove with used | ⟨m'', n'', hf', near'⟩ | ⟨t, ht, -⟩
    · -- the walk followed in its stead goes over less than twice as many, so the depth is not used up
      obtain ⟨hw', hlt⟩ := hs.walked hf
      obtain ⟨b, hb⟩ := hmove.exists_block
      have := Walk.overs_lt hg hk hw' hw hb near
      have := Standpoint.overs_add_ups (k := k)
      omega
    · exact ⟨m'', n'', hf', by omega⟩
    · cases ht

end Searching

theorem fails_of_run (hg : g.Consistent) {s : BackwardSearch} (hq : ∀ t ∈ s.queue, t.Placed g) {f : Fault}
    (hr : s.run p dec g = .error f) : Fails p dec g f := by
  fun_induction BackwardSearch.run p dec g s with
  | case1 => cases hr
  | case2 s t rest hs' _ _ _ ih => exact ih (fun u hu => hq u (by simp [hs', hu])) hr
  | case3 s t rest hs' _ _ _ _ ih => exact ih (fun u hu => hq u (by simp [hs', hu])) hr
  | case4 s t rest hs' _ _ _ _ f' hb =>
    cases hr
    exact fails_of_back hg (hq t (by simp [hs'])) hb
  | case5 s t rest hs' _ _ _ _ x _ ih => exact ih (fun u hu => hq u (by simp [hs', hu])) hr
  | case6 s t rest hs' _ _ hd _ ts hb _ _ ih =>
    obtain ⟨-, next, -⟩ := back_goesOn hg (hq t (by simp [hs'])) hd hb
    refine ih (fun u hu => ?_) hr
    rcases List.mem_append.1 hu with hu | hu
    · exact hq u (by simp [hs', hu])
    · exact (next u hu).1

/-- The search with fuel, and with a list of the standpoints it has followed, so that it can be evaluated. -/
def runFor (p : Program) (dec : Decoder) (g : BlockGraph) :
    Nat → List Trace → List Standpoint → List Target → Except Fault (Option (List Target))
  | 0, _, _, _ => .ok none
  | _ + 1, [], _, found => .ok (some found)
  | fuel + 1, t :: rest, seen, found =>
    if t.depth = 0 ∨ t.key ∈ seen then runFor p dec g fuel rest seen found
    else do
      match ← t.back p dec g with
      | .resolved x => runFor p dec g fuel rest (t.key :: seen) (x.addTo found)
      | .goesOn ts => runFor p dec g fuel (rest ++ ts) (t.key :: seen) found

theorem exists_fuel {fuel : Nat} {traces : List Trace} {seen : List Standpoint}
    (hr : runFor p dec g fuel traces seen found = .ok (some found')) : ∃ k, fuel = k + 1 := by
  cases fuel with
  | zero => cases hr
  | succ k => exact ⟨k, rfl⟩

theorem run_of_runFor {s : BackwardSearch} {fuel : Nat} {seen : List Standpoint} {out : List Target}
    (hseen : ∀ k, s.seen.contains k = true ↔ k ∈ seen)
    (hr : runFor p dec g fuel s.queue seen s.found = .ok (some out)) : s.run p dec g = .ok out := by
  have insert : ∀ {m : Std.HashSet Standpoint} {seen : List Standpoint} {k : Standpoint},
      (∀ k, m.contains k = true ↔ k ∈ seen) → ∀ k', (m.insert k).contains k' = true ↔ k' ∈ k :: seen := by
    intro m seen k hm k'
    rw [Std.HashSet.contains_insert, Bool.or_eq_true, hm, beq_iff_eq, List.mem_cons, eq_comm]
  fun_induction BackwardSearch.run p dec g s generalizing fuel seen with
  | case1 s hq =>
    obtain ⟨fuel, rfl⟩ := exists_fuel hr
    rw [hq] at hr
    cases hr
    rfl
  | case2 s t rest hq _ _ hd ih =>
    obtain ⟨fuel, rfl⟩ := exists_fuel hr
    rw [hq, runFor, if_pos (Or.inl hd)] at hr
    exact ih hseen hr
  | case3 s t rest hq _ _ hd hm ih =>
    obtain ⟨fuel, rfl⟩ := exists_fuel hr
    rw [hq, runFor, if_pos (Or.inr ((hseen _).1 hm))] at hr
    exact ih hseen hr
  | case4 s t rest hq _ _ hd hm f hb =>
    obtain ⟨fuel, rfl⟩ := exists_fuel hr
    rw [hq, runFor, if_neg (not_or.2 ⟨hd, fun h => hm ((hseen _).2 h)⟩), hb] at hr
    cases hr
  | case5 s t rest hq _ _ hd hm x hb ih =>
    obtain ⟨fuel, rfl⟩ := exists_fuel hr
    rw [hq, runFor, if_neg (not_or.2 ⟨hd, fun h => hm ((hseen _).2 h)⟩), hb] at hr
    exact ih (insert hseen) hr
  | case6 s t rest hq _ _ hd hm ts hb _ _ ih =>
    obtain ⟨fuel, rfl⟩ := exists_fuel hr
    rw [hq, runFor, if_neg (not_or.2 ⟨hd, fun h => hm ((hseen _).2 h)⟩), hb] at hr
    exact ih (insert hseen) hr

/-- The traces that a search for candidates wanted before one instruction starts with. -/
def candidateTraces (depth : Nat) (origin block : Address) (index : Nat) (candidates : List Expr) :
    List Trace :=
  candidates.map fun e =>
    { depth := depth, address := origin, block := block, index := index, target := e }

theorem placed_candidateTraces (hg : g.Consistent) {origin block : Address} {b : Block} {i : Nat}
    {d : Decoded} (hb : g.block? block = some b) (hi : b.Holds i origin d) {candidates : List Expr}
    (ht : t ∈ candidateTraces depth origin block i candidates) :
    t.Placed g ∧ t.depth = depth ∧ ∃ e ∈ candidates, t.key = (block, i, e) := by
  obtain ⟨e, he, rfl⟩ := List.mem_map.1 ht
  have hlt := (List.getElem?_eq_some_iff.1 hi.1).1
  exact ⟨⟨b, hb, Nat.le_of_lt hlt, by simpa [hg.start_eq hb] using hi.2⟩, rfl, e, he, rfl⟩

theorem searching_of_run (hg : g.Consistent) {origin block : Address} {b : Block} {i : Nat}
    {d : Decoded} (hb : g.block? block = some b) (hi : b.Holds i origin d) {candidates : List Expr}
    (hr : run p dec g
      { queue := candidateTraces depth origin block i candidates, seen := ∅, found := [] } = .ok found) :
    ∃ followed, Searching p dec g (fun k => ∃ e ∈ candidates, k = (block, i, e)) depth [] followed
      found := by
  have start : Searching p dec g (fun k => ∃ e ∈ candidates, k = (block, i, e)) depth
      ((candidateTraces depth origin block i candidates).map fun t => (t, 0)) (fun _ _ _ => False) [] := by
    refine .start (fun t ht => placed_candidateTraces hg hb hi ht) ?_
    rintro k ⟨e, he, rfl⟩
    exact ⟨_, List.mem_map.2 ⟨e, he, rfl⟩, rfl⟩
  exact start.run hg (by simp [Function.comp_def]) (by simp) hr

end BackwardSearch

namespace BlockGraph

open BackwardSearch (candidateTraces)

variable {p : Program} {dec : Decoder} {g : BlockGraph} {origin : Address} {candidates : List Expr}
  {depth depth' : Nat} {found found' : List Target}

/-- A search for candidates wanted where nothing is decoded finds nothing. -/
theorem searchBack_of_not_isDecoded (ho : g.isDecoded origin = false) :
    g.searchBack p dec depth origin candidates = .ok [] := by
  rw [searchBack, isDecoded_eq_false.1 ho]

/-- The traces of a search start at the instruction before which the candidates are wanted. -/
theorem searchBack_of_isDecoded (hg : g.Consistent) (p : Program) (dec : Decoder) (candidates : List Expr)
    (ho : g.isDecoded origin = true) :
    ∃ block b i d, g.block? block = some b ∧ b.Holds i origin d ∧
      ∀ depth, g.searchBack p dec depth origin candidates = BackwardSearch.run p dec g
        { queue := candidateTraces depth origin block i candidates, seen := ∅, found := [] } := by
  obtain ⟨block, ho⟩ := isDecoded_iff.1 ho
  obtain ⟨b, d, hb, i, hi⟩ := hg.exists_has ho
  refine ⟨block, b, i, d, hb, hi, fun depth => ?_⟩
  rw [searchBack, ho]
  dsimp only
  rw [hb]
  dsimp only
  rw [hg.indexOf_eq hb hi]
  rfl

theorem searchBack_cases (hg : g.Consistent) (p : Program) (dec : Decoder) (origin : Address)
    (candidates : List Expr) :
    (∀ depth, g.searchBack p dec depth origin candidates = .ok []) ∨
      ∃ block b i d, g.block? block = some b ∧ b.Holds i origin d ∧
        ∀ depth, g.searchBack p dec depth origin candidates = BackwardSearch.run p dec g
          { queue := candidateTraces depth origin block i candidates, seen := ∅, found := [] } := by
  cases ho : g.isDecoded origin with
  | false => exact Or.inl fun _ => searchBack_of_not_isDecoded ho
  | true => exact Or.inr (searchBack_of_isDecoded hg p dec candidates ho)

/-- A deeper search finds what one that is not so deep finds, if it is almost twice as deep. -/
theorem found_of_deeper (hg : g.Consistent) (hle : depth ≤ depth') (hd : 2 * depth ≤ depth' + 3)
    (hr : g.searchBack p dec depth origin candidates = .ok found)
    (hr' : g.searchBack p dec depth' origin candidates = .ok found') :
    ∀ t ∈ found, t ∈ found' := by
  intro t ht
  rcases searchBack_cases hg p dec origin candidates with none | ⟨block, b, i, d, hb, hi, run⟩
  · cases (none depth).symm.trans hr
    cases ht
  · rw [run] at hr hr'
    obtain ⟨followed, hs⟩ := BackwardSearch.searching_of_run hg hb hi hr
    obtain ⟨followed', hs'⟩ := BackwardSearch.searching_of_run hg hb hi hr'
    obtain ⟨k, m, n, hf, finds⟩ := hs.sound ht
    obtain ⟨walk, hm⟩ := hs.walked hf
    have place : ∀ k, (∃ e ∈ candidates, k = (block, i, e)) → k.1 = block ∧ k.2.1 = i := by
      rintro _ ⟨e, -, rfl⟩
      exact ⟨rfl, rfl⟩
    obtain ⟨m', n', hf', -⟩ := hs'.exists_followed hg place hle hd walk hm
    exact hs'.finds hf' finds

theorem fails_of_searchBack (hg : g.Consistent) {f : Fault}
    (hr : g.searchBack p dec depth origin candidates = .error f) : BackwardSearch.Fails p dec g f := by
  rcases searchBack_cases hg p dec origin candidates with none | ⟨block, b, i, d, hb, hi, run⟩
  · cases (none depth).symm.trans hr
  · rw [run] at hr
    exact BackwardSearch.fails_of_run hg
      (fun t ht => (BackwardSearch.placed_candidateTraces hg hb hi ht).1) hr

theorem searchBack_of_runFor {block : Address} {b : Block} {i fuel : Nat} (ho : g.owner? origin = some block)
    (hb : g.block? block = some b) (hi : b.indexOf origin = .ok (some i))
    (hr : BackwardSearch.runFor p dec g fuel (candidateTraces depth origin block i candidates) [] [] =
      .ok (some found)) : g.searchBack p dec depth origin candidates = .ok found := by
  rw [searchBack, ho]
  dsimp only
  rw [hb]
  dsimp only
  rw [hi]
  have unseen : ∀ k, (∅ : Std.HashSet Standpoint).contains k = true ↔ k ∈ ([] : List Standpoint) := by simp
  exact BackwardSearch.run_of_runFor unseen hr

end BlockGraph

namespace Explorer

/-- In the graphs that explorations make, a search to a depth finds what one to no greater depth finds,
if the depths are the same or the greater one is at least twice the other less three, and if it does not
fail as the decoder or the resolution of an expression does. -/
theorem deeper_search_finds {x : Explorer} {g : BlockGraph} (hp : x.Produced g) {p : Program}
    {dec : Decoder} {origin : Address} {candidates : List Expr} {depth depth' : Nat}
    {found : List Target} (hle : depth ≤ depth') (hd : depth = depth' ∨ 2 * depth ≤ depth' + 3)
    (hr : g.searchBack p dec depth origin candidates = .ok found) :
    (∃ found', g.searchBack p dec depth' origin candidates = .ok found' ∧ ∀ t ∈ found, t ∈ found') ∨
      ∃ f, g.searchBack p dec depth' origin candidates = .error f ∧ BackwardSearch.Fails p dec g f := by
  obtain ⟨entries, he⟩ := hp
  obtain ⟨hg, -⟩ := sound_invariant.exploreAll he
  cases hr' : g.searchBack p dec depth' origin candidates with
  | error f => exact Or.inr ⟨f, rfl, g.fails_of_searchBack hg hr'⟩
  | ok found' =>
    refine Or.inl ⟨found', rfl, fun t ht => ?_⟩
    rcases hd with rfl | hd
    · cases hr.symm.trans hr'
      exact ht
    · exact g.found_of_deeper hg hle hd hr hr' t ht

/-- A register is set before a branch, and control comes from there to a return by three more branches,
each a block of its own, and by a run of instructions, which goes up less often. -/
def longWayRound : Explorer :=
  Toy.explorer [0x20, 0x01, 0x15, 0x10, 0x00, 0x00, 0x11, 0x06, 0x00, 0x00, 0x00, 0x00, 0x10, 0x06,
    0x11, 0x05, 0x11, 0x03, 0x11, 0x01, 0xc3, 0xc3]

theorem longWayRound_searches : ∃ g, longWayRound.exploreAll .empty [.address 0x1000] = .ok g ∧
    g.searchBack longWayRound.program longWayRound.decoder 5 0x1014 [Toy.register 1] =
      .ok [.address 0x1015] ∧
    g.searchBack longWayRound.program longWayRound.decoder 6 0x1014 [Toy.register 1] = .ok [] ∧
    g.searchBack longWayRound.program longWayRound.decoder 7 0x1014 [Toy.register 1] =
      .ok [.address 0x1015] := by
  have run : (do
      let g ← longWayRound.exploreAll .empty [.address 0x1000]
      let b ← Interruption.during g ((g.block? 0x1014).elim (.error (.undecodedSplit 0x1014)) .ok)
      let index ← Interruption.during g (b.indexOf 0x1014)
      let search (depth : Nat) := Interruption.during g <|
        BackwardSearch.runFor longWayRound.program longWayRound.decoder g 100
          (BackwardSearch.candidateTraces depth 0x1014 0x1014 0 [Toy.register 1]) [] []
      return (g.owner? 0x1014, index, ← search 5, ← search 6, ← search 7)) =
      .ok (some 0x1014, some 0, some [.address 0x1015], some [], some [.address 0x1015]) := by
    cbv
  obtain ⟨g, hg, run⟩ := bind_eq_ok.1 run
  obtain ⟨b, hb, run⟩ := bind_eq_ok.1 run
  obtain ⟨index, hi, run⟩ := bind_eq_ok.1 run
  obtain ⟨found₅, h₅, run⟩ := bind_eq_ok.1 run
  obtain ⟨found₆, h₆, run⟩ := bind_eq_ok.1 run
  obtain ⟨found₇, h₇, run⟩ := bind_eq_ok.1 run
  simp only [pure, Except.pure, Except.ok.injEq, Prod.mk.injEq] at run
  obtain ⟨ho, rfl, rfl, rfl, rfl⟩ := run
  rw [during_eq_ok, elim_eq_ok] at hb
  rw [during_eq_ok] at hi h₅ h₆ h₇
  exact ⟨g, hg, g.searchBack_of_runFor ho hb hi h₅, g.searchBack_of_runFor ho hb hi h₆,
    g.searchBack_of_runFor ho hb hi h₇⟩

/-- The way through the run gets first to where the two ways meet. At depth 6 it is followed from there, but
not back to where the register is set; at depth 5 it is used up there, and the other way is followed. -/
theorem longWayRound_loses_target : ∃ g found found', longWayRound.Produced g ∧
    g.searchBack longWayRound.program longWayRound.decoder 5 0x1014 [Toy.register 1] = .ok found ∧
    g.searchBack longWayRound.program longWayRound.decoder 6 0x1014 [Toy.register 1] = .ok found' ∧
    ∃ t ∈ found, t ∉ found' := by
  obtain ⟨g, hg, h₅, h₆, -⟩ := longWayRound_searches
  exact ⟨g, _, _, ⟨_, hg⟩, h₅, h₆, .address 0x1015, by simp, by simp⟩

/-- Depth 7 is the least that the bound allows. -/
theorem longWayRound_deeper_search_finds : ∃ g found', longWayRound.Produced g ∧
    g.searchBack longWayRound.program longWayRound.decoder 5 0x1014 [Toy.register 1] =
      .ok [.address 0x1015] ∧
    g.searchBack longWayRound.program longWayRound.decoder 7 0x1014 [Toy.register 1] = .ok found' ∧
    ∀ t ∈ [Target.address 0x1015], t ∈ found' := by
  obtain ⟨g, hg, h₅, -, h₇⟩ := longWayRound_searches
  rcases deeper_search_finds ⟨_, hg⟩ (show 5 ≤ 7 by decide) (Or.inr (by decide)) h₅ with
    ⟨found', h, sub⟩ | ⟨f, h, -⟩
  · exact ⟨g, found', ⟨_, hg⟩, h₅, h, sub⟩
  · cases h.symm.trans h₇

end Explorer

end ReachableCode
