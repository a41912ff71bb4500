import ReachableCode.Code.Toy
import ReachableCode.Proofs.Graph.Consistent
import ReachableCode.Search.Exploration
import Mathlib.Data.List.Induction

/-!
What one step of an exploration does, and the states and graphs that steps lead to. A step takes one
target in one of six ways (`Takes`); an invariant of explorations is proved by these six cases once,
and holds then before each target is taken and of every graph that explorations make.
-/

namespace ReachableCode

open Interruption (during)

namespace Explorer

variable {x : Explorer} {s t : Exploration} {item : WorkItem} {rest : List WorkItem} {g h : BlockGraph}
  {a block : Address}

/-- Where control may go from the transfer at `a`: to the targets, and behind it unless it stops. -/
def IsExit (x : Explorer) (targets : List Target) (flow : Flow) (next e : Address) : Prop :=
  (∃ t ∈ targets, t.addressIn x.program = .ok (some e)) ∨ flow.stops = false ∧ e = next

/-- The six ways to take a target. -/
inductive Takes (x : Explorer) (s : Exploration) (item : WorkItem) (rest : List WorkItem) :
    Exploration → Prop
  /-- The target has no address. -/
  | unresolved : item.target.addressIn x.program = .ok none →
      Takes x s item rest { s with work := rest, current := none }
  /-- The address is that of a label, and no section maps it. -/
  | unmapped {a : Address} : item.target.addressIn x.program = .ok (some a) →
      s.graph.isVisited a = false → x.decodeAt a = .ok none →
      Takes x s item rest { s with work := rest, current := none }
  /-- The address was visited before. -/
  | revisited {a : Address} {g : BlockGraph} : item.target.addressIn x.program = .ok (some a) →
      s.graph.isVisited a = true → (s.graph.leaveFor s.current a).makeStartIfDecoded a = .ok g →
      Takes x s item rest { work := rest, current := none, graph := g.comeFrom a item.origin }
  /-- There is no instruction at the address. -/
  | invalid {a : Address} {d : Decoded} : item.target.addressIn x.program = .ok (some a) →
      s.graph.isVisited a = false → x.decodeAt a = .ok (some d) → d.flow = none →
      Takes x s item rest { work := rest, current := none, graph := (s.room a item.origin).2 }
  /-- The instruction at the address transfers no control. -/
  | plain {a next : Address} {d : Decoded} {flow : Flow} {g : BlockGraph} :
      item.target.addressIn x.program = .ok (some a) → s.graph.isVisited a = false →
      x.decodeAt a = .ok (some d) → d.flow = some flow → flow.transfers = false →
      Address.plus a d.size = .ok next →
      (s.room a item.origin).2.append (s.room a item.origin).1 a d = .ok g →
      Takes x s item rest
        { work := workBehind flow a next ++ rest
          current := if flow.stops then none else some (s.room a item.origin).1
          graph := g }
  /-- The instruction at the address transfers control. -/
  | transfer {a next : Address} {d : Decoded} {flow : Flow} {g : BlockGraph} {targets : List Target}
      {exits : List Address} :
      item.target.addressIn x.program = .ok (some a) → s.graph.isVisited a = false →
      x.decodeAt a = .ok (some d) → d.flow = some flow → flow.transfers = true →
      Address.plus a d.size = .ok next →
      (s.room a item.origin).2.append (s.room a item.origin).1 a d = .ok g →
      x.jumpTargets g a = .ok targets → (∀ e, e ∈ exits ↔ x.IsExit targets flow next e) →
      Takes x s item rest
        { work := workBehind flow a next ++ rest ++
            targets.map fun t => { target := t, origin := some a }
          current := none
          graph := g.addSuccessors (s.room a item.origin).1 exits }

theorem addTargets_eq_ok {targets : List Target} (ha : x.addTargets block targets g = .ok h) :
    ∃ exits, (∀ e, e ∈ exits ↔ ∃ t ∈ targets, t.addressIn x.program = .ok (some e)) ∧
      h = g.addSuccessors block exits := by
  induction targets generalizing g with
  | nil =>
    cases ha
    exact ⟨[], by simp, rfl⟩
  | cons t rest ih =>
    rw [addTargets] at ha
    obtain ⟨e?, he, ha⟩ := bind_eq_ok.1 ha
    rw [during_eq_ok] at he
    split at ha
    · obtain ⟨exits, hx, rfl⟩ := ih ha
      exact ⟨exits, by simp [hx, he], rfl⟩
    next e =>
      obtain ⟨exits, hx, rfl⟩ := ih ha
      exact ⟨e :: exits, by simp [hx, he, eq_comm], rfl⟩

theorem takes_of_step (h : x.step s item rest = .ok t) : x.Takes s item rest t := by
  obtain ⟨a?, ha, h⟩ := bind_eq_ok.1 h
  rw [during_eq_ok] at ha
  split at h
  · cases h
    exact .unresolved ha
  next a =>
    split at h
    next hv =>
      obtain ⟨g, hg, h⟩ := bind_eq_ok.1 h
      obtain ⟨g', hm, hg⟩ := bind_eq_ok.1 hg
      rw [during_eq_ok] at hm
      cases hg
      cases h
      exact .revisited ha hv hm
    next hv =>
      have hv : s.graph.isVisited a = false := by simpa using hv
      obtain ⟨d?, hd, h⟩ := bind_eq_ok.1 h
      rw [during_eq_ok] at hd
      split at h
      · cases h
        exact .unmapped ha hv hd
      next d =>
        dsimp only at h
        split at h
        next hf =>
          cases h
          exact .invalid ha hv hd hf
        next flow hf =>
          obtain ⟨next, hn, h⟩ := bind_eq_ok.1 h
          obtain ⟨g, hp, h⟩ := bind_eq_ok.1 h
          rw [during_eq_ok] at hn hp
          split at h
          next ht =>
            obtain ⟨targets, hj, h⟩ := bind_eq_ok.1 h
            obtain ⟨g', hg, h⟩ := bind_eq_ok.1 h
            rw [during_eq_ok] at hj
            obtain ⟨exits, hx, rfl⟩ := addTargets_eq_ok hg
            cases h
            have all : ∀ e, e ∈ (exits ++ if flow.stops then [] else [next]) ↔
                x.IsExit targets flow next e := by
              intro e
              rw [List.mem_append, hx, IsExit]
              cases flow.stops <;> simp
            have taken : x.Takes s item rest _ := .transfer ha hv hd hf ht hn hp hj all
            rw [BlockGraph.addSuccessors_append] at taken
            cases hs : flow.stops <;> simpa [hs] using taken
          next ht =>
            cases h
            exact .plain ha hv hd hf (by simpa using ht) hn hp

/-! ### The states and graphs of explorations -/

/-- The graphs that explorations make, one entry after another. -/
def Produced (x : Explorer) (g : BlockGraph) : Prop :=
  ∃ entries, x.exploreAll .empty entries = .ok g

/-- The states before a target is taken, when the entries are explored one after another and the last
of them has been come to. -/
inductive Running (x : Explorer) : List Target → Exploration → Prop
  | start {entries : List Target} {g : BlockGraph} (entry : Target) :
      x.exploreAll .empty entries = .ok g → Running x (entries ++ [entry]) (.starting g entry)
  | step {entries : List Target} {s t : Exploration} {item : WorkItem} {rest : List WorkItem} :
      Running x entries s → s.work = item :: rest → x.step s item rest = .ok t → Running x entries t

/-- `g` is the graph after the instruction at `a` was taken into a block, in which the targets of `a` are
looked for if it transfers control. -/
inductive Consults (x : Explorer) (a : Address) (g : BlockGraph) : Prop
  | intro {entries : List Target} {s : Exploration} {item : WorkItem} {rest : List WorkItem}
      {d : Decoded} {next : Address} :
      x.Running entries s → s.work = item :: rest →
      item.target.addressIn x.program = .ok (some a) → s.graph.isVisited a = false →
      x.decodeAt a = .ok (some d) → d.isValid = true → Address.plus a d.size = .ok next →
      (s.room a item.origin).2.append (s.room a item.origin).1 a d = .ok g → Consults x a g

/-- A label lies at `a`, and blocks are split so that it starts one. -/
def StartsLabel (x : Explorer) (a : Address) : Prop :=
  x.options.startAtLabels = true ∧ ∃ labels, x.program.labelAddresses = .ok labels ∧ a ∈ labels

/-- What holds of graphs between explorations (`G`) and of explorations between steps (`I`), for the
entries explored so far. -/
structure Invariant (x : Explorer) (G : List Target → BlockGraph → Prop)
    (I : List Target → Exploration → Prop) : Prop where
  empty : G [] .empty
  start : ∀ {entries g} entry, G entries g → I (entries ++ [entry]) (.starting g entry)
  step : ∀ {entries s item rest t}, x.Running entries s → I entries s → s.work = item :: rest →
    x.Takes s item rest t → I entries t
  stop : ∀ {entries s}, I entries s → s.work = [] → G entries s.graph
  cut : ∀ {entries g a h}, x.StartsLabel a → G entries g → g.makeStartIfDecoded a = .ok h → G entries h

theorem run_of_nil (hw : s.work = []) : x.run s = .ok s.graph := by
  rw [run]
  split
  · rfl
  next h => cases hw.symm.trans h

theorem run_of_step (hw : s.work = item :: rest) (ht : x.step s item rest = .ok t) :
    x.run s = x.run t := by
  rw [run]
  split
  next h => cases hw.symm.trans h
  next h =>
    cases hw.symm.trans h
    split
    next e => cases ht.symm.trans e
    next e =>
      cases ht.symm.trans e
      rfl

/-- What every step keeps holds when no work is left. -/
theorem run_induction {I : Exploration → Prop} (step : ∀ {s item rest t}, I s → s.work = item :: rest →
    x.step s item rest = .ok t → I t) (hs : I s) (hr : x.run s = .ok g) :
    ∃ t, I t ∧ t.work = [] ∧ t.graph = g := by
  fun_induction Explorer.run x s with
  | case1 s hw =>
    cases hr
    exact ⟨s, hs, hw, rfl⟩
  | case2 => cases hr
  | case3 s item rest hw t ht _ _ _ ih => exact ih (step hs hw ht) hr

/-- What every step keeps holds before the step that a fault ends. -/
theorem run_error {I : Exploration → Prop} {i : Interruption} (step : ∀ {s item rest t}, I s →
    s.work = item :: rest → x.step s item rest = .ok t → I t) (hs : I s) (hr : x.run s = .error i) :
    ∃ t item rest, I t ∧ t.work = item :: rest ∧ x.step t item rest = .error i := by
  fun_induction Explorer.run x s with
  | case1 => cases hr
  | case2 s item rest hw j hj =>
    cases hr
    exact ⟨s, item, rest, hs, hw, hj⟩
  | case3 s item rest hw t ht _ _ _ ih => exact ih (step hs hw ht) hr

theorem makeStarts_induction {P : BlockGraph → Prop} {labels : List Address}
    (cut : ∀ {g a h}, a ∈ labels → P g → g.makeStartIfDecoded a = .ok h → P h) (hg : P g)
    (hm : makeStarts g labels = .ok h) : P h := by
  induction labels generalizing g with
  | nil =>
    cases hm
    exact hg
  | cons a rest ih =>
    obtain ⟨g', hs, hm⟩ := bind_eq_ok.1 hm
    rw [during_eq_ok] at hs
    exact ih (fun ha => cut (List.mem_cons_of_mem _ ha)) (cut List.mem_cons_self hg hs) hm

theorem exploreAll_append {entries more : List Target} : x.exploreAll g (entries ++ more) = .ok h ↔
    ∃ g', x.exploreAll g entries = .ok g' ∧ x.exploreAll g' more = .ok h := by
  induction entries generalizing g with
  | nil => simp [exploreAll]
  | cons entry rest ih =>
    simp only [List.cons_append, exploreAll, bind_eq_ok, ih]
    constructor
    · rintro ⟨g₁, h₁, g₂, h₂, h⟩
      exact ⟨g₂, ⟨g₁, h₁, h₂⟩, h⟩
    · rintro ⟨g₂, ⟨g₁, h₁, h₂⟩, h⟩
      exact ⟨g₁, h₁, g₂, h₂, h⟩

/-- The last entry is explored in the graph that the others made. -/
theorem exploreAll_concat {entries : List Target} {entry : Target} :
    x.exploreAll g (entries ++ [entry]) = .ok h ↔
      ∃ g', x.exploreAll g entries = .ok g' ∧ x.explore g' entry = .ok h := by
  simp only [exploreAll_append, exploreAll, bind_eq_ok, Except.ok.injEq, exists_eq_right]

namespace Invariant

variable {G : List Target → BlockGraph → Prop} {I : List Target → Exploration → Prop}
  {entries : List Target}

theorem run (inv : x.Invariant G I) (hs : x.Running entries s) (hi : I entries s)
    (hr : x.run s = .ok g) : G entries g := by
  obtain ⟨t, ⟨-, ht⟩, hw, rfl⟩ := run_induction (I := fun s => x.Running entries s ∧ I entries s)
    (fun hs hw ht => ⟨hs.1.step hw ht, inv.step hs.1 hs.2 hw (takes_of_step ht)⟩) ⟨hs, hi⟩ hr
  exact inv.stop ht hw

theorem explore (inv : x.Invariant G I) {entry : Target} (ha : x.exploreAll .empty entries = .ok g)
    (hg : G entries g) (he : x.explore g entry = .ok h) : G (entries ++ [entry]) h := by
  obtain ⟨g', hr, he⟩ := bind_eq_ok.1 he
  have hg' := inv.run (.start entry ha) (inv.start entry hg) hr
  split at he
  next start =>
    obtain ⟨labels, hl, he⟩ := bind_eq_ok.1 he
    rw [during_eq_ok] at hl
    exact makeStarts_induction (fun ha => inv.cut ⟨start, labels, hl, ha⟩) hg' he
  · cases he
    exact hg'

theorem exploreAll (inv : x.Invariant G I) (he : x.exploreAll .empty entries = .ok g) :
    G entries g := by
  induction entries using List.reverseRecOn generalizing g with
  | nil =>
    cases he
    exact inv.empty
  | append_singleton entries entry ih =>
    obtain ⟨g', he, hl⟩ := exploreAll_concat.1 he
    exact inv.explore he (ih he) hl

theorem running (inv : x.Invariant G I) (hr : x.Running entries s) : I entries s := by
  induction hr with
  | start entry he => exact inv.start entry (inv.exploreAll he)
  | step hr hw hs ih => exact inv.step hr ih hw (takes_of_step hs)

end Invariant

end Explorer

/-- An explorer of toy code that lies at the address 0x1000. -/
def Toy.explorer (code : List UInt8) : Explorer where
  program :=
    { architecture := .unknown
      entryPoint := none
      sections := [Section.ofData ".text" 0x1000 code.toArray] }
  decoder := Toy.decoder

end ReachableCode
