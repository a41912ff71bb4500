import ReachableCode.Proofs.Exploration.Reachability

/-!
What explorations ask of a program. A target is asked for its address, and the decoder for what lies there.
The entries are asked for, what lies behind the decoded instructions and the targets of the transfers
among them: each of these waits in the work until it is taken, and to take it is to get an answer. The other
way round, a target is always taken if there are answers for it and for the instruction there.
-/

namespace ReachableCode.Explorer

open Interruption (during)

/-- The target can be asked for its address, and the decoder for what lies there. -/
def Answers (x : Explorer) (c : Target) : Prop :=
  ∃ a?, c.addressIn x.program = .ok a? ∧ ∀ a, a? = some a → ∃ d?, x.decodeAt a = .ok d?

/-- The target is in the work, or was answered. -/
def Attends (x : Explorer) (work : List WorkItem) (c : Target) : Prop :=
  (∃ item ∈ work, item.target = c) ∨ x.Answers c

/-- The instruction `d` at `a` can be taken into a block: there is an address behind it, and targets with
addresses are found if it transfers control. -/
structure Admits (x : Explorer) (a : Address) (d : Decoded) (f : Flow) : Prop where
  behind : ∃ next, Address.plus a d.size = .ok next
  targets : f.transfers = true → ∀ {g block}, g.Consistent → x.Faithful g → g.Ends block a d →
    ∃ targets, x.jumpTargets g a = .ok targets ∧ ∀ c ∈ targets, ∃ a?, c.addressIn x.program = .ok a?

/-- All that is asked for is in the work or was answered. -/
structure Answered (x : Explorer) (entries : List Target) (g : BlockGraph) (work : List WorkItem) :
    Prop where
  entry : ∀ {e}, e ∈ entries → x.Attends work e
  next : ∀ {a n d f}, g.isDecoded a = true → x.decodeAt a = .ok (some d) → d.flow = some f →
    f.stops = false → Address.plus a d.size = .ok n → x.Attends work (.address n)
  /-- Where a transfer leads is the address of a target, or lies behind it. -/
  exit : ∀ {a t}, g.Leads a t →
    ∃ c, x.Attends work c ∧ (c.addressIn x.program = .ok (some t) ∨ c = .address t)
  /-- Without backward searches the targets are those of the candidates. -/
  candidate : x.Immediate → ∀ {a d f candidates e c}, g.isDecoded a = true →
    x.decodeAt a = .ok (some d) → d.flow = some f → f.transfers = true →
    x.decoder.jumpTargets d a = .ok candidates → e ∈ candidates →
    x.program.resolve e = .ok (some c) → x.Attends work c

variable {x : Explorer} {s t : Exploration} {item : WorkItem} {rest work more : List WorkItem}
  {entries targets : List Target} {g h : BlockGraph} {a block next : Address} {d : Decoded} {f : Flow}
  {c : Target} {origin : Option Address}

theorem Attends.answers (hc : x.Attends [] c) : x.Answers c := by
  rcases hc with ⟨item, hi, -⟩ | hc
  · cases hi
  · exact hc

theorem Attends.mono (hc : x.Attends work c) (hm : ∀ item ∈ work, item ∈ more) : x.Attends more c :=
  hc.imp_left fun ⟨item, hi, he⟩ => ⟨item, hm item hi, he⟩

/-- A target that was answered need not wait. -/
theorem Attends.tail (hc : x.Attends (item :: rest) c) (ha : x.Answers item.target) : x.Attends rest c := by
  rcases hc with ⟨i, hi, rfl⟩ | hc
  · rcases List.mem_cons.1 hi with rfl | hi
    · exact Or.inr ha
    · exact Or.inl ⟨i, hi, rfl⟩
  · exact Or.inr hc

/-- To take a target is to get an answer: what was visited before was decoded then. -/
theorem Takes.answers (ht : x.Takes s item rest t) (hs : x.Sound s) : x.Answers item.target := by
  have found : ∀ {a d?}, item.target.addressIn x.program = .ok (some a) → x.decodeAt a = .ok d? →
      x.Answers item.target := fun ha hd =>
    ⟨_, ha, fun _ e => Option.some.inj e ▸ ⟨_, hd⟩⟩
  cases ht with
  | unresolved ha => exact ⟨none, ha, nofun⟩
  | unmapped ha _ hd => exact found ha hd
  | revisited ha hv =>
    obtain ⟨d, hd⟩ := hs.faithful.maps_of_isVisited hs.consistent hv
    exact found ha hd
  | invalid ha _ hd => exact found ha hd
  | plain ha _ hd => exact found ha hd
  | transfer ha _ hd => exact found ha hd

namespace Answered

theorem empty : x.Answered [] .empty [] where
  entry he := by cases he
  next ha := by
    obtain ⟨s, ho⟩ := BlockGraph.isDecoded_iff.1 ha
    simp at ho
  exit := by
    rintro a t ⟨s, d, f, ⟨b, hb, -⟩, -⟩
    simp at hb
  candidate _ _ _ _ _ _ _ ha := by
    obtain ⟨s, ho⟩ := BlockGraph.isDecoded_iff.1 ha
    simp at ho

/-- What is attended to in the one work is attended to in the other. -/
theorem weaken (ha : x.Answered entries g work) (hm : ∀ c, x.Attends work c → x.Attends more c) :
    x.Answered entries g more where
  entry he := hm _ (ha.entry he)
  next hd hdec hf hs hn := hm _ (ha.next hd hdec hf hs hn)
  exit hl := by
    obtain ⟨c, hc, at?⟩ := ha.exit hl
    exact ⟨c, hm c hc, at?⟩
  candidate hi _ _ _ _ _ _ hd hdec hf ht hj he hr := hm _ (ha.candidate hi hd hdec hf ht hj he hr)

theorem congr (ha : x.Answered entries g work) (decoded : ∀ u, h.isDecoded u = g.isDecoded u)
    (same : ∀ u v, h.Leads u v ↔ g.Leads u v) : x.Answered entries h work where
  entry := ha.entry
  next hd := ha.next (decoded _ ▸ hd)
  exit hl := ha.exit ((same _ _).1 hl)
  candidate hi _ _ _ _ _ _ hd := ha.candidate hi (decoded _ ▸ hd)

theorem starting (ha : x.Answered entries g []) (entry : Target) :
    x.Answered (entries ++ [entry]) g [{ target := entry, origin := none }] := by
  have ha : x.Answered entries g [{ target := entry, origin := none }] :=
    ha.weaken fun _ hc => hc.mono (by simp)
  refine ⟨fun he => ?_, ha.next, ha.exit, ha.candidate⟩
  rcases List.mem_append.1 he with he | he
  · exact ha.entry he
  · exact Or.inl ⟨_, List.mem_singleton.2 rfl, (List.mem_singleton.1 he).symm⟩

theorem step (ha : x.Answered entries s.graph s.work) (hr : x.Running entries s) (hs : x.Sound s)
    (hw : s.work = item :: rest) (ht : x.Takes s item rest t) : x.Answered entries t.graph t.work := by
  have ha : x.Answered entries s.graph rest := by
    rw [hw] at ha
    exact ha.weaken fun _ hc => hc.tail (ht.answers hs)
  cases hs.visits hw ht with
  | drops _ hw' decoded same =>
    rw [hw']
    exact ha.congr decoded same
  | @decodes a next d f targets haddr fresh hdec hf hn hj hw' decoded exits =>
    have ha : x.Answered entries s.graph t.work := ha.weaken fun _ hc => hc.mono fun item hi => by
      rw [hw']
      exact List.mem_append_left _ (List.mem_append_right _ hi)
    have behind : f.stops = false → x.Attends t.work (.address next) := fun hstop =>
      Or.inl ⟨⟨.address next, some a⟩, by simp [hw', workBehind, hstop], rfl⟩
    have target : f.transfers = true → ∀ c ∈ targets, x.Attends t.work c := fun htr c hc =>
      Or.inl ⟨⟨c, some a⟩, by simp [hw', htr, hc], rfl⟩
    constructor
    case entry => exact ha.entry
    case next =>
      intro u n e k hu he hk hstop hn'
      rcases (decoded u).1 hu with hu | rfl
      · exact ha.next hu he hk hstop hn'
      · cases hdec.symm.trans he
        cases hf.symm.trans hk
        cases hn.symm.trans hn'
        exact behind hstop
    case exit =>
      intro u v hl
      rcases (exits u v).1 hl with hl | ⟨rfl, htr, ⟨c, hc, hv⟩ | ⟨hstop, rfl⟩⟩
      · exact ha.exit hl
      · exact ⟨c, target htr c hc, Or.inl hv⟩
      · exact ⟨_, behind hstop, Or.inr rfl⟩
    case candidate =>
      intro hi u e k candidates y c hu he hk htr hcand hy hres
      rcases (decoded u).1 hu with hu | rfl
      · exact ha.candidate hi hu he hk htr hcand hy hres
      · cases hdec.symm.trans he
        cases hf.symm.trans hk
        obtain ⟨k, hp, hj⟩ := hj htr
        have consults : x.Consults u k :=
          .intro hr hw haddr fresh hdec (by simp [Decoded.isValid, hf]) hn hp
        obtain ⟨hg, block, ends⟩ := consults.ends hdec
        exact target htr c ((mem_jumpTargets hi hg ends hdec hf htr hj).2 ⟨candidates, y, hcand, hy, hres⟩)

end Answered

theorem answered_invariant : x.Invariant
    (fun entries g => (g.Consistent ∧ x.Faithful g) ∧ x.Answered entries g [])
    (fun entries s => x.Sound s ∧ x.Answered entries s.graph s.work) where
  empty := ⟨⟨.empty, .empty⟩, .empty⟩
  start entry hg := ⟨.starting hg.1.1 hg.1.2 entry, hg.2.starting entry⟩
  step hr hs hw ht := ⟨hs.1.step hw ht, hs.2.step hr hs.1 hw ht⟩
  stop hs hw := ⟨⟨hs.1.consistent, hs.1.faithful⟩, hw ▸ hs.2⟩
  cut _ hg hs := by
    obtain ⟨decoded, same⟩ := BlockGraph.same_makeStartIfDecoded hg.1.1 hs
    exact ⟨⟨hg.1.1.makeStartIfDecoded hs, hg.1.2.makeStartIfDecoded hg.1.1 hs⟩,
      hg.2.congr decoded same⟩

/-! ### Steps that are taken -/

theorem exists_during {α : Type} {y : Except Fault α} (hy : ∃ v, y = .ok v) : ∃ v, during g y = .ok v := by
  obtain ⟨v, hv⟩ := hy
  exact ⟨v, during_eq_ok.2 hv⟩

theorem exists_addTargets (ha : ∀ c ∈ targets, ∃ a?, c.addressIn x.program = .ok a?) (g : BlockGraph) :
    ∃ h, x.addTargets block targets g = .ok h := by
  induction targets generalizing g with
  | nil => exact ⟨g, rfl⟩
  | cons t rest ih =>
    have ih := ih fun c hc => ha c (List.mem_cons_of_mem _ hc)
    rw [addTargets]
    refine exists_bind_eq_ok (exists_during (ha t List.mem_cons_self)) fun a? _ => ?_
    cases a? with
    | none => exact ih g
    | some a => exact ih _

theorem exists_revisit (hg : g.Consistent) {current : Option Address} :
    ∃ h, revisit g current a origin = .ok h := by
  have left : g.SameCode (g.leaveFor current a) := BlockGraph.sameCode_leaveFor
  exact exists_bind_eq_ok (exists_during ((hg.sameCode left).exists_makeStartIfDecoded a)) fun h _ => ⟨_, rfl⟩

theorem Sound.exists_extend (hs : x.Sound s) (hw : s.work = item :: rest)
    (ha : item.target.addressIn x.program = .ok (some a)) (hv : s.graph.isVisited a = false)
    (hdec : x.decodeAt a = .ok (some d)) (hflow : d.flow = some f) (admits : x.Admits a d f) :
    ∃ t, x.extend rest (s.room a item.origin).2 (s.room a item.origin).1 a d f = .ok t := by
  obtain ⟨hg, b, hr⟩ := hs.steady.ready hw ha hv
  refine exists_bind_eq_ok (exists_during admits.behind) fun next hn => ?_
  rw [during_eq_ok] at hn
  have found : ∃ h, (s.room a item.origin).2.append (s.room a item.origin).1 a d = .ok h := by
    rw [BlockGraph.append, hr.found]
    exact ⟨_, rfl⟩
  refine exists_bind_eq_ok (exists_during found) fun h happ => ?_
  rw [during_eq_ok] at happ
  split
  next ht =>
    obtain ⟨hh, hf⟩ := hs.append hw ha hv hdec (by rw [Decoded.isValid, hflow]; rfl) hn happ
    have ends := (hr.ends_append hg happ).2 (Or.inl ⟨rfl, rfl, rfl⟩)
    obtain ⟨targets, hj, addresses⟩ := admits.targets ht hh hf ends
    refine exists_bind_eq_ok (exists_during ⟨targets, hj⟩) fun targets' hj' => ?_
    cases hj.symm.trans (during_eq_ok.1 hj')
    exact exists_bind_eq_ok (exists_addTargets addresses h) fun k _ => ⟨_, rfl⟩
  · exact ⟨_, rfl⟩

/-- A target is taken if it is answered for and the instruction there can be taken. -/
theorem Sound.exists_step (hs : x.Sound s) (hw : s.work = item :: rest) (answers : x.Answers item.target)
    (admits : ∀ {a d f}, item.target.addressIn x.program = .ok (some a) → x.decodeAt a = .ok (some d) →
      d.flow = some f → x.Admits a d f) : ∃ t, x.step s item rest = .ok t := by
  obtain ⟨a?, ha, hdec⟩ := answers
  refine exists_bind_eq_ok (exists_during ⟨a?, ha⟩) fun a?' ha' => ?_
  cases ha.symm.trans (during_eq_ok.1 ha')
  cases a? with
  | none => exact ⟨_, rfl⟩
  | some a =>
    dsimp only
    split
    · exact exists_bind_eq_ok (exists_revisit hs.consistent) fun g _ => ⟨_, rfl⟩
    next hv =>
      refine exists_bind_eq_ok (exists_during (hdec a rfl)) fun d? hdec => ?_
      rw [during_eq_ok] at hdec
      cases d? with
      | none => exact ⟨_, rfl⟩
      | some d =>
        dsimp only
        split
        · exact ⟨_, rfl⟩
        next f hflow => exact hs.exists_extend hw ha (by simpa using hv) hdec hflow (admits ha hdec hflow)

theorem exists_makeStarts (hg : g.Consistent) (labels : List Address) : ∃ h, makeStarts g labels = .ok h := by
  induction labels generalizing g with
  | nil => exact ⟨g, rfl⟩
  | cons a rest ih =>
    refine exists_bind_eq_ok (exists_during (hg.exists_makeStartIfDecoded a)) fun h hm => ?_
    exact ih (hg.makeStartIfDecoded (during_eq_ok.1 hm))

end ReachableCode.Explorer
