import ReachableCode.Code.Scripted
import ReachableCode.Proofs.Exploration.Steady
import ReachableCode.Proofs.Exploration.Visits
import ReachableCode.Proofs.Memory.Relocations

/-!
Explorations end. How much work is left says nothing about that, since a transfer may add any number of
targets. But work is added only with an instruction at an address that was not decoded before, and addresses
are finitely many: an instruction without bytes, one that leads to itself and one that is led to twice are met
again as decoded, and taking them leaves less work.
-/

namespace ReachableCode.Explorer

/-- So many targets were taken from the one state to the other. -/
inductive Iterates (x : Explorer) : Exploration → Nat → Exploration → Prop
  | refl (s : Exploration) : Iterates x s 0 s
  | step {s t u : Exploration} {item : WorkItem} {rest : List WorkItem} {n : Nat} :
      s.work = item :: rest → x.step s item rest = .ok t → Iterates x t n u → Iterates x s (n + 1) u

/-- The state is the last one, with this result: no work is left, or taking the next target is a fault. -/
inductive Ends (x : Explorer) (s : Exploration) : Except Interruption BlockGraph → Prop
  | done : s.work = [] → Ends x s (.ok s.graph)
  | fault {item : WorkItem} {rest : List WorkItem} {i : Interruption} :
      s.work = item :: rest → x.step s item rest = .error i → Ends x s (.error i)

/-- A step only takes its target away, or takes a valid instruction in at a mapped address that was not
decoded. -/
inductive Progress (x : Explorer) (s : Exploration) (item : WorkItem) (rest : List WorkItem)
    (t : Exploration) : Prop
  | drops : t.work = rest → (∀ u, t.graph.isDecoded u = s.graph.isDecoded u) → Progress x s item rest t
  | decodes {a : Address} {place : Section} {d : Decoded} :
      item.target.addressIn x.program = .ok (some a) → x.program.sectionAt a = .ok (some place) →
      x.decodeAt a = .ok (some d) → d.isValid = true → s.graph.isDecoded a = false →
      (∀ u, t.graph.isDecoded u = true ↔ s.graph.isDecoded u = true ∨ u = a) → Progress x s item rest t

variable {x : Explorer} {s t u : Exploration} {item : WorkItem} {rest : List WorkItem} {g : BlockGraph}
  {a : Address} {d : Decoded} {m n : Nat}

theorem sectionAt_of_decodeAt (h : x.decodeAt a = .ok (some d)) :
    ∃ place, x.program.sectionAt a = .ok (some place) := by
  obtain ⟨c?, hc, h⟩ := bind_eq_ok.1 h
  obtain ⟨place?, hp, hc⟩ := bind_eq_ok.1 hc
  cases place? with
  | none =>
    cases hc
    cases h
  | some place => exact ⟨place, hp⟩

/-- What is decoded grows by the address of the instruction that is added. -/
theorem isDecoded_added (hs : s.Steady) (hw : s.work = item :: rest)
    (ha : item.target.addressIn x.program = .ok (some a)) (hv : s.graph.isVisited a = false)
    (hp : (s.room a item.origin).2.append (s.room a item.origin).1 a d = .ok g) (u : Address) :
    g.isDecoded u = true ↔ s.graph.isDecoded u = true ∨ u = a := by
  obtain ⟨-, b, hr⟩ := hs.ready hw ha hv
  rw [hr.isDecoded_append hp, Exploration.isDecoded_room]

theorem progress (hs : s.Steady) (hw : s.work = item :: rest) (ht : x.Takes s item rest t) :
    x.Progress s item rest t := by
  have fresh {a : Address} (hv : s.graph.isVisited a = false) : s.graph.isDecoded a = false :=
    BlockGraph.isDecoded_eq_false.2 (BlockGraph.isVisited_eq_false.1 hv).1
  cases ht with
  | unresolved => exact .drops rfl fun _ => rfl
  | unmapped => exact .drops rfl fun _ => rfl
  | @revisited a g ha hv hm =>
    have left : s.graph.SameCode (s.graph.leaveFor s.current a) := BlockGraph.sameCode_leaveFor
    refine .drops rfl fun u => ?_
    rw [BlockGraph.sameCode_comeFrom.isDecoded,
      (BlockGraph.same_makeStartIfDecoded (hs.consistent.sameCode left) hm).1, left.isDecoded]
  | invalid => exact .drops rfl fun u => Exploration.isDecoded_room
  | plain ha hv hd hf htr hn hp =>
    obtain ⟨place, hplace⟩ := sectionAt_of_decodeAt hd
    exact .decodes ha hplace hd (by simp [Decoded.isValid, hf]) (fresh hv) (isDecoded_added hs hw ha hv hp)
  | transfer ha hv hd hf htr hn hp =>
    obtain ⟨place, hplace⟩ := sectionAt_of_decodeAt hd
    refine .decodes ha hplace hd (by simp [Decoded.isValid, hf]) (fresh hv) fun u => ?_
    rw [BlockGraph.sameCode_addSuccessors.isDecoded]
    exact isDecoded_added hs hw ha hv hp u

namespace Iterates

theorem steady (h : x.Iterates s n t) (hs : s.Steady) : t.Steady := by
  induction h with
  | refl => exact hs
  | step hw ht _ ih => exact ih (hs.step hw (takes_of_step ht))

/-- No target is taken in a last state. -/
theorem eq_zero {r : Except Interruption BlockGraph} (h : x.Iterates s n t) (he : x.Ends s r) : n = 0 := by
  cases h with
  | refl => rfl
  | step hw ht =>
    cases he with
    | done hw' => cases hw.symm.trans hw'
    | fault hw' hf =>
      cases hw.symm.trans hw'
      cases ht.symm.trans hf

end Iterates

/-- From every state the last one comes, after a number of targets that depends on the state alone. -/
theorem exists_iterates (x : Explorer) (s : Exploration) : ∃ n t, x.Iterates s n t ∧ x.Ends t (x.run s) ∧
    ∀ m u, x.Iterates s m u → m ≤ n := by
  -- the recursion of a run is on the addresses that are not decoded, then on the work that is left
  fun_induction Explorer.run x s with
  | case1 s hw =>
    have ends : x.Ends s (.ok s.graph) := .done hw
    exact ⟨0, s, .refl s, ends, fun m u h => Nat.le_of_eq (h.eq_zero ends)⟩
  | case2 s item rest hw i hi =>
    have ends : x.Ends s (.error i) := .fault hw hi
    exact ⟨0, s, .refl s, ends, fun m u h => Nat.le_of_eq (h.eq_zero ends)⟩
  | case3 s item rest hw t ht _ _ _ ih =>
    obtain ⟨n, u, hu, ends, most⟩ := ih
    refine ⟨n + 1, u, .step hw ht hu, ends, fun m v h => ?_⟩
    cases h with
    | refl => exact Nat.zero_le _
    | step hw' ht' h =>
      cases hw.symm.trans hw'
      cases ht.symm.trans ht'
      exact Nat.succ_le_succ (most _ _ h)

/-- If no relocation reads memory, every expression is resolved without a bound on how often memory is read, and
whatever the decoder finds, an exploration from any entry, into any graph that explorations and splits lead to,
ends after finitely many targets. Each of them takes work away and decodes nothing, or decodes a mapped address
that was not decoded; only then work is added. -/
theorem explorations_end (hp : x.program.Direct) (hg : x.Attainable g) (entry : Target) :
    (∀ e : Expr, (∀ depth, e.resolveUpTo x.program depth = x.program.resolve e) ∧
      x.program.resolve e = e.resolveWith x.program x.program.resolve) ∧
    (∃ n t, x.Iterates (.starting g entry) n t ∧ x.Ends t (x.run (.starting g entry)) ∧
      ∀ m u, x.Iterates (.starting g entry) m u → m ≤ n) ∧
    ∀ m s item rest t, x.Iterates (.starting g entry) m s → s.work = item :: rest →
      x.step s item rest = .ok t → x.Progress s item rest t := by
  refine ⟨hp.resolve_eq, exists_iterates x _, fun m s item rest t h hw ht => ?_⟩
  exact progress (h.steady (.starting hg.consistent entry)) hw (takes_of_step ht)

/-- An instruction without bytes that branches to itself, twice, and to two that share a byte, of which one
jumps back. -/
def branchInPlace : Explorer where
  program :=
    { architecture := .unknown
      entryPoint := none
      sections := [Section.ofData ".text" 0x1000 #[0x00, 0x00, 0x00]] }
  decoder := Script.decoder <| Script.ofList
    [(0x1000, line 0 .branch [.const 0x1000, .const 0x1000, .const 0x1001, .const 0x1002]),
      (0x1001, line 2 .plain []), (0x1002, line 1 .jump [.const 0x1000])]
where
  line (size : UInt64) (flow : Flow) (targets : List Expr) : ScriptLine :=
    { size, mnemonic := "", operands := "", flow, jumpTargets := targets, set := Bindings.ofList [],
      lose := [] }

theorem branchInPlace_ends :
    branchInPlace.program.Direct ∧
    ∃ n t, branchInPlace.Iterates (.starting .empty (.address 0x1000)) n t ∧ t.work = [] ∧
      (∀ a ∈ [0x1000, 0x1001, 0x1002], t.graph.isDecoded a = true) ∧
      ∀ m u, branchInPlace.Iterates (.starting .empty (.address 0x1000)) m u → m ≤ n := by
  have direct : branchInPlace.program.Direct := by
    intro s hs offset r hr
    cases List.mem_singleton.1 hs
    simp [Section.ofData] at hr
  have run : (do
      let g ← branchInPlace.run (.starting .empty (.address 0x1000))
      return [0x1000, 0x1001, 0x1002].map g.isDecoded) = .ok [true, true, true] := by
    cbv
  obtain ⟨g, hg, run⟩ := bind_eq_ok.1 run
  obtain ⟨-, ⟨n, t, taken, ends, most⟩, -⟩ := explorations_end direct .empty (.address 0x1000)
  rw [hg] at ends
  cases ends with
  | done hw => exact ⟨direct, n, t, taken, hw, by simpa using run, most⟩

end ReachableCode.Explorer
