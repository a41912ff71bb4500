import ReachableCode.Proofs.Exploration.Visits

/-!
What explorations decode: the addresses that control reaches from the entries, behind instructions and
by the targets found for transfers. Nothing else is decoded, and whatever is reached is decoded or waits
in the work (`Covers`). Without backward searches the targets are those of the instructions alone.
-/

namespace ReachableCode.Explorer

/-- What control reaches from the entries, when transfers lead from one address to another by `leads`. -/
inductive Reached (x : Explorer) (entries : List Target) (leads : Address → Address → Prop) :
    Address → Prop
  | entry {e : Target} {a : Address} : e ∈ entries → e.addressIn x.program = .ok (some a) →
      x.Decodes a → Reached x entries leads a
  | next {a n : Address} {d : Decoded} {f : Flow} : Reached x entries leads a →
      x.decodeAt a = .ok (some d) → d.flow = some f → f.stops = false → Address.plus a d.size = .ok n →
      x.Decodes n → Reached x entries leads n
  | target {a t : Address} : Reached x entries leads a → leads a t → x.Decodes t →
      Reached x entries leads t

/-- A candidate of the transfer at `a` resolves at once to a target at `t`. -/
def Candidate (x : Explorer) (a t : Address) : Prop :=
  ∃ d f candidates e target, x.decodeAt a = .ok (some d) ∧ d.flow = some f ∧ f.transfers = true ∧
    x.decoder.jumpTargets d a = .ok candidates ∧ e ∈ candidates ∧
    x.program.resolve e = .ok (some target) ∧ target.addressIn x.program = .ok (some t)

/-- Every candidate of every transfer resolves at once. -/
def Immediate (x : Explorer) : Prop :=
  ∀ ⦃a d f candidates e⦄, x.decodeAt a = .ok (some d) → d.flow = some f → f.transfers = true →
    x.decoder.jumpTargets d a = .ok candidates → e ∈ candidates →
    ∃ target, x.program.resolve e = .ok (some target)

/-- A target at `a` is in the work. -/
def Waits (x : Explorer) (work : List WorkItem) (a : Address) : Prop :=
  ∃ item ∈ work, item.target.addressIn x.program = .ok (some a)

/-- All that is decoded or waits is reached from the entries, and all that is reached in one step is
decoded or waits. -/
structure Covers (x : Explorer) (entries : List Target) (g : BlockGraph) (work : List WorkItem) :
    Prop where
  decoded : ∀ {a}, g.isDecoded a = true → x.Reached entries g.Leads a
  waiting : ∀ {a}, x.Waits work a → x.Decodes a → x.Reached entries g.Leads a
  entry : ∀ {e a}, e ∈ entries → e.addressIn x.program = .ok (some a) → x.Decodes a →
    g.isDecoded a = true ∨ x.Waits work a
  next : ∀ {a n d f}, g.isDecoded a = true → x.decodeAt a = .ok (some d) → d.flow = some f →
    f.stops = false → Address.plus a d.size = .ok n → x.Decodes n → g.isDecoded n = true ∨ x.Waits work n
  target : ∀ {a t}, g.Leads a t → x.Decodes t → g.isDecoded t = true ∨ x.Waits work t

/-- Every transfer leads to the targets found when it was decoded and, unless it stops, behind itself. -/
def LeadsToTargets (x : Explorer) (g : BlockGraph) : Prop :=
  ∀ ⦃a d f⦄, g.isDecoded a = true → x.decodeAt a = .ok (some d) → d.flow = some f → f.transfers = true →
    ∃ k targets next, x.Consults a k ∧ x.jumpTargets k a = .ok targets ∧
      Address.plus a d.size = .ok next ∧ ∀ t, g.Leads a t ↔ x.IsExit targets f next t

variable {x : Explorer} {s t : Exploration} {item : WorkItem} {rest work : List WorkItem}
  {entries more : List Target} {g h : BlockGraph} {a u v next : Address} {d : Decoded} {f : Flow}
  {leads leads' : Address → Address → Prop}

/-! ### Targets of transfers -/

/-- The targets found are those of the candidates that resolve, and none is pending if all do. -/
theorem resolveCandidates_eq_ok {es pending pending' : List Expr} {found found' : List Target}
    (h : x.resolveCandidates es (found, pending) = .ok (found', pending')) :
    (∀ t, t ∈ found' ↔ t ∈ found ∨ ∃ e ∈ es, x.program.resolve e = .ok (some t)) ∧
      ((∀ e ∈ es, ∃ t, x.program.resolve e = .ok (some t)) → pending' = pending) := by
  induction es generalizing found pending with
  | nil =>
    cases h
    simp
  | cons e rest ih =>
    obtain ⟨r, hr, h⟩ := bind_eq_ok.1 h
    cases r with
    | none =>
      obtain ⟨mem, -⟩ := ih h
      refine ⟨fun t => ?_, fun all => ?_⟩
      · rw [mem]
        simp [hr]
      · obtain ⟨t, ht⟩ := all e (by simp)
        cases hr.symm.trans ht
    | some c =>
      obtain ⟨mem, none⟩ := ih h
      refine ⟨fun t => ?_, fun all => none fun e he => all e (by simp [he])⟩
      rw [mem, Target.mem_addTo]
      simp [hr, or_assoc, or_left_comm, eq_comm]

theorem exists_resolveCandidates {es : List Expr} (hr : ∀ e ∈ es, ∃ t?, x.program.resolve e = .ok t?)
    (parts : List Target × List Expr) : ∃ parts', x.resolveCandidates es parts = .ok parts' := by
  induction es generalizing parts with
  | nil => exact ⟨parts, rfl⟩
  | cons e rest ih =>
    have ih := ih fun e he => hr e (List.mem_cons_of_mem _ he)
    rw [resolveCandidates]
    refine exists_bind_eq_ok (hr e List.mem_cons_self) fun t? _ => ?_
    cases t? with
    | none => exact ih _
    | some t => exact ih _

/-- The targets of a transfer that ends a block are looked for. -/
theorem jumpTargets_eq (hg : g.Consistent) {block : Address} (he : g.Ends block a d) :
    x.jumpTargets g a = (do
      let (found, pending) ← x.resolveCandidates (← x.decoder.jumpTargets d a) ([], [])
      if pending.isEmpty then return found
      else
        let more ← g.searchBack x.program x.decoder x.options.searchDepth a pending
        return more.foldl (fun found t => t.addTo found) found) := by
  obtain ⟨b, hb, hend⟩ := he
  obtain ⟨i, hi⟩ := hend.has
  have owned : g.blockOf? a = some b :=
    BlockGraph.blockOf?_eq_some.2 ⟨block, hg.owner_of_has hb hend.has, hb⟩
  rw [jumpTargets, owned]
  have reads : (some i).bind (b.instructions[·]?) = some d := hi.1
  simp only [hg.indexOf_eq hb hi, bind, Except.bind, reads]

theorem mem_jumpTargets {targets : List Target} (hi : x.Immediate) (hg : g.Consistent) {block : Address}
    (he : g.Ends block a d) (hd : x.decodeAt a = .ok (some d)) (hf : d.flow = some f)
    (ht : f.transfers = true) (hj : x.jumpTargets g a = .ok targets) {c : Target} :
    c ∈ targets ↔ ∃ candidates e, x.decoder.jumpTargets d a = .ok candidates ∧ e ∈ candidates ∧
      x.program.resolve e = .ok (some c) := by
  rw [jumpTargets_eq hg he] at hj
  obtain ⟨candidates, hc, hj⟩ := bind_eq_ok.1 hj
  obtain ⟨⟨found, pending⟩, hr, hj⟩ := bind_eq_ok.1 hj
  obtain ⟨mem, none⟩ := resolveCandidates_eq_ok hr
  obtain rfl : pending = [] := none fun e he => hi hd hf ht hc he
  cases hj
  rw [mem]
  constructor
  · intro hc'
    rcases hc' with hc' | ⟨e, he, hr⟩
    · cases hc'
    · exact ⟨candidates, e, hc, he, hr⟩
  · rintro ⟨candidates', e, hc', he, hr⟩
    cases hc.symm.trans hc'
    exact Or.inr ⟨e, he, hr⟩

theorem target_iff_candidate {targets : List Target} (hi : x.Immediate) (hg : g.Consistent)
    {block : Address} (he : g.Ends block a d) (hd : x.decodeAt a = .ok (some d)) (hf : d.flow = some f)
    (ht : f.transfers = true) (hj : x.jumpTargets g a = .ok targets) :
    (∃ c ∈ targets, c.addressIn x.program = .ok (some v)) ↔ x.Candidate a v := by
  simp only [mem_jumpTargets hi hg he hd hf ht hj]
  constructor
  · rintro ⟨c, ⟨candidates, e, hc, he, hr⟩, hv⟩
    exact ⟨d, f, candidates, e, c, hd, hf, ht, hc, he, hr, hv⟩
  · rintro ⟨d', f', candidates, e, c, hd', -, -, hc, he, hr, hv⟩
    cases hd.symm.trans hd'
    exact ⟨c, ⟨candidates, e, hc, he, hr⟩, hv⟩

/-! ### What is reached -/

theorem not_waits_nil : ¬x.Waits [] u := by
  rintro ⟨item, hi, -⟩
  cases hi

theorem waits_cons : x.Waits (item :: work) u ↔
    item.target.addressIn x.program = .ok (some u) ∨ x.Waits work u := by
  simp [Waits]

/-- What the instruction at `a` leaves to be decoded lies behind it or at a target of it. -/
theorem waits_behind {targets : List Target} : x.Waits (workBehind f a next ++ rest ++
      (if f.transfers then targets.map fun t => { target := t, origin := some a } else [])) u ↔
    f.stops = false ∧ (Target.address next).addressIn x.program = .ok (some u) ∨ x.Waits rest u ∨
      f.transfers = true ∧ ∃ t ∈ targets, t.addressIn x.program = .ok (some u) := by
  cases hs : f.stops <;> cases ht : f.transfers <;> simp [Waits, workBehind, hs, or_and_right, exists_or]

namespace Reached

theorem mono (hr : x.Reached entries leads a) (he : ∀ e ∈ entries, e ∈ more)
    (hl : ∀ u v, leads u v → leads' u v) : x.Reached more leads' a := by
  induction hr with
  | entry hm ha hd => exact .entry (he _ hm) ha hd
  | next _ hd hf hs hn hv ih => exact .next ih hd hf hs hn hv
  | target _ ht hv ih => exact .target ih (hl _ _ ht) hv

theorem withOptions {options : Options} :
    { x with options := options }.Reached entries leads a ↔ x.Reached entries leads a := by
  constructor <;> intro hr
  all_goals
    induction hr with
    | entry hm ha hd => exact .entry hm ha hd
    | next _ hd hf hs hn hv ih => exact .next ih hd hf hs hn hv
    | target _ ht hv ih => exact .target ih ht hv

end Reached

namespace Covers

theorem empty : x.Covers [] .empty [] where
  decoded ha := by
    obtain ⟨s, ho⟩ := BlockGraph.isDecoded_iff.1 ha
    simp at ho
  waiting := by
    rintro a ⟨item, hi, -⟩
    cases hi
  entry he := by cases he
  next ha := by
    obtain ⟨s, ho⟩ := BlockGraph.isDecoded_iff.1 ha
    simp at ho
  target := by
    rintro a t ⟨s, d, f, ⟨b, hb, -⟩, -⟩
    simp at hb

/-- When no work is left, what is decoded is what is reached. -/
theorem isDecoded_iff (hc : x.Covers entries g []) :
    g.isDecoded a = true ↔ x.Reached entries g.Leads a := by
  refine ⟨hc.decoded, fun hr => ?_⟩
  induction hr with
  | entry he ha hd => exact (hc.entry he ha hd).resolve_right not_waits_nil
  | next _ hd hf hs hn hv ih => exact (hc.next ih hd hf hs hn hv).resolve_right not_waits_nil
  | target _ ht hv ih => exact (hc.target ht hv).resolve_right not_waits_nil

theorem starting (hc : x.Covers entries g []) (entry : Target) :
    x.Covers (entries ++ [entry]) g [{ target := entry, origin := none }] where
  decoded ha := (hc.decoded ha).mono (fun _ he => List.mem_append_left _ he) fun _ _ => id
  waiting := by
    rintro a ⟨item, hi, ha⟩ hd
    cases List.mem_singleton.1 hi
    exact .entry (List.mem_append_right _ (List.mem_singleton.2 rfl)) ha hd
  entry he ha hd := by
    rcases List.mem_append.1 he with he | he
    · exact Or.inl (hc.isDecoded_iff.2 (.entry he ha hd))
    · cases List.mem_singleton.1 he
      exact Or.inr ⟨_, List.mem_singleton.2 rfl, ha⟩
  next ha hd hf hs hn hv := Or.inl ((hc.next ha hd hf hs hn hv).resolve_right not_waits_nil)
  target ht hv := Or.inl ((hc.target ht hv).resolve_right not_waits_nil)

theorem congr (hc : x.Covers entries g work) (decoded : ∀ u, h.isDecoded u = g.isDecoded u)
    (same : ∀ u v, h.Leads u v ↔ g.Leads u v) : x.Covers entries h work := by
  have leads : h.Leads = g.Leads := by
    funext u v
    exact propext (same u v)
  refine ⟨?_, ?_, ?_, ?_, ?_⟩ <;> simp only [decoded, leads]
  exacts [hc.decoded, hc.waiting, hc.entry, hc.next, hc.target]

theorem drop (hc : x.Covers entries g (item :: rest))
    (hd : ∀ a, item.target.addressIn x.program = .ok (some a) → x.Decodes a → g.isDecoded a = true) :
    x.Covers entries g rest := by
  have settled : ∀ {u}, x.Decodes u → g.isDecoded u = true ∨ x.Waits (item :: rest) u →
      g.isDecoded u = true ∨ x.Waits rest u := by
    intro u hv hu
    rcases hu with hu | hu
    · exact Or.inl hu
    · exact (waits_cons.1 hu).imp_left fun ha => hd u ha hv
  constructor
  case decoded => exact hc.decoded
  case waiting => exact fun hu hv => hc.waiting (waits_cons.2 (Or.inr hu)) hv
  case entry => exact fun he ha hv => settled hv (hc.entry he ha hv)
  case next => exact fun ha hd hf hs hn hv => settled hv (hc.next ha hd hf hs hn hv)
  case target => exact fun ht hv => settled hv (hc.target ht hv)

/-- The work left when the target at `a` is decoded: its exits wait. -/
theorem decode {targets : List Target} (hc : x.Covers entries g (item :: rest))
    (ha : item.target.addressIn x.program = .ok (some a)) (hd : x.decodeAt a = .ok (some d))
    (hf : d.flow = some f) (hn : Address.plus a d.size = .ok next)
    (decoded : ∀ u, h.isDecoded u = true ↔ g.isDecoded u = true ∨ u = a)
    (exits : ∀ u v, h.Leads u v ↔
      g.Leads u v ∨ u = a ∧ f.transfers = true ∧ x.IsExit targets f next v) :
    x.Covers entries h (workBehind f a next ++ rest ++
      (if f.transfers then targets.map fun t => { target := t, origin := some a } else [])) := by
  have reached : ∀ {u}, x.Reached entries g.Leads u → x.Reached entries h.Leads u := fun hr =>
    hr.mono (fun _ => id) fun u v hl => (exits u v).2 (Or.inl hl)
  have here : x.Reached entries h.Leads a :=
    reached (hc.waiting (waits_cons.2 (Or.inl ha)) ⟨d, hd, by simp [Decoded.isValid, hf]⟩)
  have settled : ∀ {u}, g.isDecoded u = true ∨ x.Waits (item :: rest) u →
      h.isDecoded u = true ∨ x.Waits (workBehind f a next ++ rest ++
        (if f.transfers then targets.map fun t => { target := t, origin := some a } else [])) u := by
    intro u hu
    rcases hu with hu | hu
    · exact Or.inl ((decoded u).2 (Or.inl hu))
    · rcases waits_cons.1 hu with hu | hu
      · cases ha.symm.trans hu
        exact Or.inl ((decoded a).2 (Or.inr rfl))
      · exact Or.inr (waits_behind.2 (Or.inr (Or.inl hu)))
  constructor
  case decoded =>
    intro u hu
    rcases (decoded u).1 hu with hu | rfl
    · exact reached (hc.decoded hu)
    · exact here
  case waiting =>
    intro u hu hv
    rcases waits_behind.1 hu with ⟨hs, hu⟩ | hu | ⟨ht, t, hm, hu⟩
    · obtain rfl := eq_of_addressIn_address hu
      exact .next here hd hf hs hn hv
    · exact reached (hc.waiting (waits_cons.2 (Or.inr hu)) hv)
    · exact .target here ((exits a u).2 (Or.inr ⟨rfl, ht, Or.inl ⟨t, hm, hu⟩⟩)) hv
  case entry => exact fun he ha hv => settled (hc.entry he ha hv)
  case next =>
    intro u n e k hu he hk hs hn' hv
    rcases (decoded u).1 hu with hu | rfl
    · exact settled (hc.next hu he hk hs hn' hv)
    · cases hd.symm.trans he
      cases hf.symm.trans hk
      cases hn.symm.trans hn'
      -- an address is one of the program if something is decoded there
      obtain ⟨e, he, -⟩ := hv
      exact Or.inr (waits_behind.2 (Or.inl ⟨hs, addressIn_address ⟨e, he⟩⟩))
  case target =>
    intro u v hl hv
    rcases (exits u v).1 hl with hl | ⟨rfl, ht, ⟨t, hm, hu⟩ | ⟨hs, rfl⟩⟩
    · exact settled (hc.target hl hv)
    · exact Or.inr (waits_behind.2 (Or.inr (Or.inr ⟨ht, t, hm, hu⟩)))
    · obtain ⟨e, he, -⟩ := hv
      exact Or.inr (waits_behind.2 (Or.inl ⟨hs, addressIn_address ⟨e, he⟩⟩))

theorem step (hc : x.Covers entries s.graph s.work) (hw : s.work = item :: rest)
    (hv : x.Visits s item rest t) : x.Covers entries t.graph t.work := by
  rw [hw] at hc
  cases hv with
  | drops hd hw' decoded same =>
    rw [hw']
    exact (hc.drop hd).congr decoded same
  | decodes ha _ hd hf hn _ hw' decoded exits =>
    rw [hw']
    exact hc.decode ha hd hf hn decoded exits

end Covers

/-! ### Where transfers lead -/

namespace LeadsToTargets

theorem congr (hl : x.LeadsToTargets g) (decoded : ∀ u, h.isDecoded u = g.isDecoded u)
    (same : ∀ u v, h.Leads u v ↔ g.Leads u v) : x.LeadsToTargets h := by
  intro a d f ha hd hf ht
  simp only [same]
  exact hl (decoded a ▸ ha) hd hf ht

theorem step (hl : x.LeadsToTargets s.graph) (hr : x.Running entries s) (hs : x.Sound s)
    (hw : s.work = item :: rest) (hv : x.Visits s item rest t) : x.LeadsToTargets t.graph := by
  cases hv with
  | drops _ _ decoded same => exact hl.congr decoded same
  | @decodes a next d f targets ha fresh hd hf hn hj hw' decoded exits =>
    have new := BlockGraph.isDecoded_eq_false.2 (BlockGraph.isVisited_eq_false.1 fresh).1
    intro u e k hu he hk ht
    simp only [exits]
    rcases (decoded u).1 hu with hu | rfl
    · have other : u ≠ a := by
        rintro rfl
        rw [new] at hu
        cases hu
      simp only [other, false_and, or_false]
      exact hl hu he hk ht
    · cases hd.symm.trans he
      cases hf.symm.trans hk
      obtain ⟨k, hp, hj⟩ := hj ht
      have none : ∀ v, ¬s.graph.Leads u v := fun v hl => by
        rw [hl.isDecoded hs.consistent] at new
        cases new
      have consults : x.Consults u k :=
        .intro hr hw ha fresh hd (by simp [Decoded.isValid, hf]) hn hp
      exact ⟨k, targets, next, consults, hj, hn, fun v => by simp [none, ht]⟩

/-- Without a search, a transfer leads to its candidates and, unless it stops, behind itself. -/
theorem leads_iff (hl : x.LeadsToTargets g) (hi : x.Immediate) (ha : g.isDecoded a = true)
    (hd : x.decodeAt a = .ok (some d)) (hf : d.flow = some f) (ht : f.transfers = true) :
    g.Leads a v ↔ x.Candidate a v ∨ f.stops = false ∧ Address.plus a d.size = .ok v := by
  obtain ⟨k, targets, next, hc, hj, hn, leads⟩ := hl ha hd hf ht
  obtain ⟨hk, block, ends⟩ := hc.ends hd
  have mem := target_iff_candidate (v := v) hi hk ends hd hf ht hj
  simp only [leads, IsExit, mem, hn, Except.ok.injEq, eq_comm (a := v)]

/-- What is reached by the blocks' edges is then reached by the candidates alone. -/
theorem reached (hl : x.LeadsToTargets g) (hi : x.Immediate) (hg : g.Consistent) (hfaith : x.Faithful g)
    (hr : x.Reached entries g.Leads a) : x.Reached entries x.Candidate a := by
  induction hr with
  | entry he ha hd => exact .entry he ha hd
  | next _ hd hf hs hn hv ih => exact .next ih hd hf hs hn hv
  | @target a t hr ht hv ih =>
    obtain ⟨s, d, f, ⟨b, hb, he⟩, hf, htr, -⟩ := id ht
    have hd := (hfaith.decoded hb he.has).1
    rcases (hl.leads_iff hi (ht.isDecoded hg) hd hf htr).1 ht with hc | ⟨hs, hn⟩
    · exact .target ih hc hv
    · exact .next ih hd hf hs hn hv

theorem isDecoded_iff (hl : x.LeadsToTargets g) (hi : x.Immediate) (hg : g.Consistent)
    (hfaith : x.Faithful g) (hc : x.Covers entries g []) :
    g.isDecoded a = true ↔ x.Reached entries x.Candidate a := by
  rw [hc.isDecoded_iff]
  refine ⟨hl.reached hi hg hfaith, fun hr => ?_⟩
  induction hr with
  | entry he ha hd => exact .entry he ha hd
  | next _ hd hf hs hn hv ih => exact .next ih hd hf hs hn hv
  | target _ ht hv ih =>
    obtain ⟨d, f, _, _, _, hd, hf, htr, -⟩ := id ht
    exact .target ih ((hl.leads_iff hi (hc.isDecoded_iff.2 ih) hd hf htr).2 (Or.inl ht)) hv

end LeadsToTargets

theorem Faithful.ends_transfer (hf : x.Faithful g) (hg : g.Consistent) {s : Address}
    (ho : g.owner? a = some s) (hd : x.decodeAt a = .ok (some d)) (hflow : d.flow = some f)
    (ht : f.transfers = true) : g.Ends s a d := by
  obtain ⟨b, e, hb, he⟩ := hg.exists_has ho
  cases hd.symm.trans (hf.decoded hb he).1
  refine ⟨b, hb, he.endsWith fun hmem => ?_⟩
  obtain ⟨f', hf', ht', -⟩ := (hg.runsOn hb d hmem).flow
  cases hflow.symm.trans hf'
  rw [ht] at ht'
  cases ht'

theorem goes_iff_leads (hg : g.Consistent) {s : Address} (ends : g.Ends s a d) (hf : d.flow = some f)
    (ht : f.transfers = true) : g.Goes s v ↔ g.Leads a v := by
  constructor
  · exact fun hs => ⟨s, d, f, ends, hf, ht, hs⟩
  · rintro ⟨s', d', f', ends', -, -, hs⟩
    cases (ends'.owner hg).symm.trans (ends.owner hg)
    exact hs

theorem covers_invariant : x.Invariant
    (fun entries g => (g.Consistent ∧ x.Faithful g) ∧ x.Covers entries g [] ∧ x.LeadsToTargets g)
    (fun entries s => x.Sound s ∧ x.Covers entries s.graph s.work ∧ x.LeadsToTargets s.graph) where
  empty := by
    refine ⟨⟨.empty, .empty⟩, .empty, fun a _ _ ha => ?_⟩
    obtain ⟨s, ho⟩ := BlockGraph.isDecoded_iff.1 ha
    simp at ho
  start entry hg := ⟨.starting hg.1.1 hg.1.2 entry, hg.2.1.starting entry, hg.2.2⟩
  step hr hs hw ht := by
    have hv := hs.1.visits hw ht
    exact ⟨hs.1.step hw ht, hs.2.1.step hw hv, hs.2.2.step hr hs.1 hw hv⟩
  stop hs hw := ⟨⟨hs.1.consistent, hs.1.faithful⟩, hw ▸ hs.2.1, hs.2.2⟩
  cut _ hg hs := by
    obtain ⟨decoded, same⟩ := BlockGraph.same_makeStartIfDecoded hg.1.1 hs
    exact ⟨⟨hg.1.1.makeStartIfDecoded hs, hg.1.2.makeStartIfDecoded hg.1.1 hs⟩,
      hg.2.1.congr decoded same, hg.2.2.congr decoded same⟩

/-- Explorations decode exactly what control reaches from the entries, where each transfer ends a block
that goes to the targets found when it was decoded and, unless it stops, behind itself. If every
candidate resolves at once, these targets are those of the candidates, and what is decoded depends only
on the set of the entries. -/
theorem decodes_exactly_reached (he : x.exploreAll .empty entries = .ok g) :
    (∀ a, g.isDecoded a = true ↔ x.Reached entries g.Leads a) ∧
    (∀ {a d f}, g.isDecoded a = true → x.decodeAt a = .ok (some d) → d.flow = some f →
      f.transfers = true → ∃ s k targets next, g.Ends s a d ∧ x.Consults a k ∧
        x.jumpTargets k a = .ok targets ∧ Address.plus a d.size = .ok next ∧
        (∀ t, g.Goes s t ↔ x.IsExit targets f next t) ∧
        (x.Immediate → ∀ t, (∃ c ∈ targets, c.addressIn x.program = .ok (some t)) ↔ x.Candidate a t)) ∧
    (x.Immediate → (∀ a, g.isDecoded a = true ↔ x.Reached entries x.Candidate a) ∧
      ∀ {options more h}, (∀ e, e ∈ more ↔ e ∈ entries) →
        { x with options := options }.exploreAll .empty more = .ok h →
        ∀ a, h.isDecoded a = g.isDecoded a) := by
  obtain ⟨⟨hg, hf⟩, hc, hl⟩ := covers_invariant.exploreAll he
  refine ⟨fun a => hc.isDecoded_iff, ?_, fun hi => ⟨fun a => hl.isDecoded_iff hi hg hf hc, ?_⟩⟩
  · intro a d f ha hd hflow ht
    obtain ⟨s, ho⟩ := BlockGraph.isDecoded_iff.1 ha
    have ends := hf.ends_transfer hg ho hd hflow ht
    obtain ⟨k, targets, next, consults, hj, hn, leads⟩ := hl ha hd hflow ht
    refine ⟨s, k, targets, next, ends, consults, hj, hn, fun t => ?_, fun hi t => ?_⟩
    · rw [goes_iff_leads hg ends hflow ht, leads]
    · obtain ⟨hk, block, ends⟩ := consults.ends hd
      exact target_iff_candidate hi hk ends hd hflow ht hj
  · intro options more h same hm a
    obtain ⟨⟨hg', hf'⟩, hc', hl'⟩ := covers_invariant.exploreAll hm
    rw [Bool.eq_iff_iff, hl.isDecoded_iff hi hg hf hc, hl'.isDecoded_iff hi hg' hf' hc', Reached.withOptions]
    constructor
    · exact fun hr => hr.mono (fun e he => (same e).1 he) fun _ _ => id
    · exact fun hr => hr.mono (fun e he => (same e).2 he) fun _ _ => id

/-- A machine whose transfers all go to 0x1000, and code that branches there. -/
theorem loop_decodes_exactly_reached :
    let x : Explorer :=
      { Toy.explorer [0x00, 0x11, 0x00, 0xc3] with
        decoder := { Toy.decoder with jumpTargets := fun _ _ => .ok [.const 0x1000] } }
    ∃ g h, x.exploreAll .empty [.address 0x1000] = .ok g ∧
      x.exploreAll .empty [.address 0x1000, .address 0x1000] = .ok h ∧ x.Immediate ∧
      (∀ a, g.isDecoded a = true ↔ x.Reached [.address 0x1000] g.Leads a) ∧
      (∀ a, g.isDecoded a = true ↔ x.Reached [.address 0x1000] x.Candidate a) ∧
      (∀ a, h.isDecoded a = g.isDecoded a) ∧ g.isDecoded 0x1003 = true := by
  intro x
  have immediate : x.Immediate := by
    intro a d f candidates e _ _ _ hc he
    cases hc
    cases List.mem_singleton.1 he
    exact ⟨.address 0x1000, by cbv⟩
  have run : (do
      let g : BlockGraph ← x.exploreAll .empty [.address 0x1000]
      let _ ← x.exploreAll .empty [.address 0x1000, .address 0x1000]
      return g.isDecoded 0x1003) = .ok true := by
    cbv
  obtain ⟨g, hg, run⟩ := bind_eq_ok.1 run
  obtain ⟨h, hh, run⟩ := bind_eq_ok.1 run
  obtain ⟨reached, -, alone⟩ := decodes_exactly_reached hg
  obtain ⟨candidates, same⟩ := alone immediate
  have again : { x with options := x.options }.exploreAll .empty
      [.address 0x1000, .address 0x1000] = .ok h := hh
  exact ⟨g, h, hg, hh, immediate, reached, candidates, same (by simp) again, Except.ok.inj run⟩

end ReachableCode.Explorer
