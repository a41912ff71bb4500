import ReachableCode.Proofs.Exploration.Answers

/-!
When explorations come to a result, if no search is needed: just when there is an answer to everything
that the instructions reached from the entries ask for, and for the labels. The order in which it is asked
for does not matter.
-/

namespace ReachableCode.Explorer

open Interruption (during)

/-- All that the instruction `d` at `a` asks for is answered: what lies behind it unless it stops, and the
targets of its candidates. -/
structure Passable (x : Explorer) (a : Address) (d : Decoded) (f : Flow) : Prop where
  behind : ∃ next, Address.plus a d.size = .ok next ∧ (f.stops = false → x.Answers (.address next))
  candidates : f.transfers = true → ∃ candidates, x.decoder.jumpTargets d a = .ok candidates ∧
    ∀ {e c}, e ∈ candidates → x.program.resolve e = .ok (some c) → x.Answers c

/-- All that control reaches from the entries is answered for. -/
structure Explorable (x : Explorer) (entries : List Target) : Prop where
  entry : ∀ {e}, e ∈ entries → x.Answers e
  reached : ∀ {a d f}, x.Reached entries x.Candidate a → x.decodeAt a = .ok (some d) → d.flow = some f →
    x.Passable a d f
  labels : entries ≠ [] → x.options.startAtLabels = true → ∃ labels, x.program.labelAddresses = .ok labels

variable {x : Explorer} {s t : Exploration} {item : WorkItem} {rest : List WorkItem}
  {entries more : List Target} {g h : BlockGraph} {a block : Address} {d : Decoded} {f : Flow}

theorem Explorable.mono (hx : x.Explorable entries) (hm : ∀ e ∈ more, e ∈ entries) : x.Explorable more where
  entry he := hx.entry (hm _ he)
  reached hr := hx.reached (hr.mono hm fun _ _ => id)
  labels hne := by
    obtain ⟨e, he⟩ := List.exists_mem_of_ne_nil _ hne
    exact hx.labels (List.ne_nil_of_mem (hm e he))

/-! ### Explorations that came to a result -/

theorem explorable_of_exploreAll (hi : x.Immediate) (he : x.exploreAll .empty entries = .ok g) :
    x.Explorable entries := by
  obtain ⟨⟨hg, hf⟩, hans⟩ := answered_invariant.exploreAll he
  obtain ⟨-, hc, hl⟩ := covers_invariant.exploreAll he
  constructor
  case entry => exact fun hm => (hans.entry hm).answers
  case reached =>
    intro a d f hr hd hflow
    have decoded := (hl.isDecoded_iff hi hg hf hc).2 hr
    obtain ⟨s, ho⟩ := BlockGraph.isDecoded_iff.1 decoded
    obtain ⟨b, d', hb, hhas⟩ := hg.exists_has ho
    cases hd.symm.trans (hf.decoded hb hhas).1
    obtain ⟨stop, hspan⟩ := hg.exists_spans hb
    obtain ⟨next, hn⟩ := hhas.exists_behind hspan
    refine ⟨⟨next, hn, fun hs => (hans.next decoded hd hflow hs hn).answers⟩, fun ht => ?_⟩
    obtain ⟨k, targets, -, consults, hj, -⟩ := hl decoded hd hflow ht
    obtain ⟨hk, block, ends⟩ := consults.ends hd
    rw [jumpTargets_eq hk ends] at hj
    obtain ⟨candidates, hcand, -⟩ := bind_eq_ok.1 hj
    exact ⟨candidates, hcand, fun hmem hres =>
      (hans.candidate hi decoded hd hflow ht hcand hmem hres).answers⟩
  case labels =>
    intro hne hstart
    cases entries using List.reverseRecOn with
    | nil => exact absurd rfl hne
    | append_singleton entries entry =>
      obtain ⟨g₁, -, hlast⟩ := exploreAll_concat.1 he
      obtain ⟨g₂, -, hlast⟩ := bind_eq_ok.1 hlast
      simp only [hstart, if_true] at hlast
      obtain ⟨labels, hlabels, -⟩ := bind_eq_ok.1 hlast
      exact ⟨labels, during_eq_ok.1 hlabels⟩

/-! ### Explorations that come to a result -/

/-- The targets of a transfer are found if its candidates are, and there are answers for them. -/
theorem Passable.exists_jumpTargets (hp : x.Passable a d f) (hi : x.Immediate)
    (hd : x.decodeAt a = .ok (some d)) (hflow : d.flow = some f) (ht : f.transfers = true)
    (hg : g.Consistent) (he : g.Ends block a d) :
    ∃ targets, x.jumpTargets g a = .ok targets ∧ ∀ c ∈ targets, x.Answers c := by
  obtain ⟨candidates, hcand, answers⟩ := hp.candidates ht
  have resolved : ∀ e ∈ candidates, ∃ c, x.program.resolve e = .ok (some c) := fun e he =>
    hi hd hflow ht hcand he
  have found : ∃ targets, x.jumpTargets g a = .ok targets := by
    rw [jumpTargets_eq hg he]
    refine exists_bind_eq_ok ⟨candidates, hcand⟩ fun candidates' hcand' => ?_
    cases hcand.symm.trans hcand'
    have parts := exists_resolveCandidates (fun e he => ⟨_, (resolved e he).choose_spec⟩) ([], [])
    refine exists_bind_eq_ok parts fun ⟨found, pending⟩ hr => ?_
    obtain rfl : pending = [] := (resolveCandidates_eq_ok hr).2 resolved
    exact ⟨found, rfl⟩
  obtain ⟨targets, hj⟩ := found
  refine ⟨targets, hj, fun c hc => ?_⟩
  obtain ⟨candidates', e, hcand', hmem, hres⟩ := (mem_jumpTargets hi hg he hd hflow ht hj).1 hc
  cases hcand.symm.trans hcand'
  exact answers hmem hres

theorem Passable.admits (hp : x.Passable a d f) (hi : x.Immediate) (hd : x.decodeAt a = .ok (some d))
    (hflow : d.flow = some f) : x.Admits a d f where
  behind := hp.behind.imp fun _ => And.left
  targets ht _ _ hg _ he := by
    obtain ⟨targets, hj, answers⟩ := hp.exists_jumpTargets hi hd hflow ht hg he
    exact ⟨targets, hj, fun c hc => (answers c hc).imp fun _ => And.left⟩

namespace Explorable

/-- The instruction at a target that waits is reached. -/
theorem passable (hx : x.Explorable entries) (hi : x.Immediate) (hr : x.Running entries s)
    (hw : x.Waits s.work a) (hd : x.decodeAt a = .ok (some d)) (hflow : d.flow = some f) :
    x.Passable a d f := by
  obtain ⟨hs, hc, hl⟩ := covers_invariant.running hr
  have waits := hc.waiting hw ⟨d, hd, by simp [Decoded.isValid, hflow]⟩
  exact hx.reached (hl.reached hi hs.consistent hs.faithful waits) hd hflow

theorem answers_step (hx : x.Explorable entries) (hi : x.Immediate) (hr : x.Running entries s)
    (hw : s.work = item :: rest) (answers : ∀ i ∈ s.work, x.Answers i.target)
    (ht : x.Takes s item rest t) : ∀ i ∈ t.work, x.Answers i.target := by
  have hs : x.Sound s := sound_invariant.running hr
  have left : ∀ i ∈ rest, x.Answers i.target := fun i hi => answers i (hw ▸ List.mem_cons_of_mem _ hi)
  cases hs.visits hw ht with
  | drops _ hw' => exact hw' ▸ left
  | @decodes a next d f targets ha fresh hd hflow hn hj hw' =>
    have waits : x.Waits s.work a := hw ▸ waits_cons.2 (Or.inl ha)
    have passable := hx.passable hi hr waits hd hflow
    intro i hmem
    rw [hw', List.mem_append, List.mem_append] at hmem
    rcases hmem with (hmem | hmem) | hmem
    · obtain ⟨next', hn', behind⟩ := passable.behind
      cases hn.symm.trans hn'
      unfold workBehind at hmem
      split at hmem
      · cases hmem
      next hstop =>
        cases List.mem_singleton.1 hmem
        exact behind (by simpa using hstop)
    · exact left i hmem
    · split at hmem
      next htr =>
        obtain ⟨k, hp, hj⟩ := hj htr
        have consults : x.Consults a k :=
          .intro hr hw ha fresh hd (by simp [Decoded.isValid, hflow]) hn hp
        obtain ⟨hk, block, ends⟩ := consults.ends hd
        obtain ⟨targets', hj', answers⟩ := passable.exists_jumpTargets hi hd hflow htr hk ends
        cases hj.symm.trans hj'
        obtain ⟨c, hc, rfl⟩ := List.mem_map.1 hmem
        exact answers c hc
      · cases hmem

theorem exists_run (hx : x.Explorable entries) (hi : x.Immediate) (hr : x.Running entries s)
    (answers : ∀ i ∈ s.work, x.Answers i.target) : ∃ g, x.run s = .ok g := by
  fun_induction Explorer.run x s with
  | case1 s hw => exact ⟨_, rfl⟩
  | case2 s item rest hw i hstep =>
    have here : item ∈ s.work := by simp [hw]
    have hs : x.Sound s := sound_invariant.running hr
    obtain ⟨t, ht⟩ := hs.exists_step hw (answers item here) fun ha hd hflow =>
      (hx.passable hi hr ⟨item, here, ha⟩ hd hflow).admits hi hd hflow
    cases ht.symm.trans hstep
  | case3 s item rest hw t ht _ _ _ ih =>
    exact ih (hr.step hw ht) (hx.answers_step hi hr hw answers (takes_of_step ht))

theorem exists_exploreAll (hx : x.Explorable entries) (hi : x.Immediate) :
    ∃ g, x.exploreAll .empty entries = .ok g := by
  induction entries using List.reverseRecOn with
  | nil => exact ⟨_, rfl⟩
  | append_singleton entries entry ih =>
    obtain ⟨g, he⟩ := ih (hx.mono fun _ => List.mem_append_left _)
    obtain ⟨hg, hf⟩ := sound_invariant.exploreAll he
    have running : x.Running (entries ++ [entry]) (.starting g entry) := .start entry he
    have explored : ∃ h, x.explore g entry = .ok h := by
      refine exists_bind_eq_ok (hx.exists_run hi running fun i hmem => ?_) fun h hr => ?_
      · cases List.mem_singleton.1 hmem
        exact hx.entry (by simp)
      · obtain ⟨hh, -⟩ := sound_invariant.run running (.starting hg hf entry) hr
        split
        next hstart =>
          refine exists_bind_eq_ok (exists_during (hx.labels (by simp) hstart)) fun labels _ => ?_
          exact exists_makeStarts hh labels
        · exact ⟨h, rfl⟩
    obtain ⟨h, hh⟩ := explored
    exact ⟨h, exploreAll_concat.2 ⟨g, he, hh⟩⟩

end Explorable

/-- Without searches, explorations come to a result just when all that is reached is answered for. -/
theorem exists_exploreAll_iff (hi : x.Immediate) :
    (∃ g, x.exploreAll .empty entries = .ok g) ↔ x.Explorable entries := by
  constructor
  · rintro ⟨g, he⟩
    exact explorable_of_exploreAll hi he
  · exact fun hx => hx.exists_exploreAll hi

end ReachableCode.Explorer
