import ReachableCode.Proofs.Code.Safe
import ReachableCode.Proofs.Exploration.Answers
import ReachableCode.Proofs.Search.Depth

/-!
Explorations of programs with bounded sections come to a result. Every address they compute lies in a
section or at its end, since an instruction takes no byte that is not mapped; every block they extend is
there, since the graph is sound; and every cut they make is at an instruction of a block. So a step is
never given up while the decoder is safe for the program.
-/

namespace ReachableCode

open Interruption (during)

namespace Explorer

variable {x : Explorer} {s t : Exploration} {item : WorkItem} {rest : List WorkItem} {g h : BlockGraph}
  {a block next : Address} {d : Decoded} {f : Flow} {origin : Option Address} {entries : List Target}

/-! ### What the decoder is asked -/

section

variable (hp : x.program.Bounded) (hd : x.decoder.Safe x.program)

include hp hd

theorem exists_decodeAt (a : Address) : ∃ d?, x.decodeAt a = .ok d? := by
  obtain ⟨c?, hc, -⟩ := hp.cursorAt_eq_ok a
  refine exists_bind_eq_ok ⟨c?, hc⟩ fun c? hc' => ?_
  cases c? with
  | none => exact ⟨none, rfl⟩
  | some c => exact exists_bind_eq_ok (hd.decodes hc') fun r _ => ⟨_, rfl⟩

/-- What lies behind an instruction is in the address range. -/
theorem exists_behind (h : x.decodeAt a = .ok (some d)) : ∃ next, Address.plus a d.size = .ok next := by
  obtain ⟨c, after, hc, hdec⟩ := meets_of_decodeAt h
  exact hp.exists_plus_size hc (hd.fits hc hdec)

/-- Going back over the instructions of a graph never fails. -/
theorem not_fails (hf : x.Faithful g) {fault : Fault} :
    ¬BackwardSearch.Fails x.program x.decoder g fault := by
  intro hfail
  cases hfail with
  | @decoder s a b i d e _ hb hi he =>
    obtain ⟨hdec, hval⟩ := hf.decoded hb ⟨i, hi⟩
    obtain ⟨e?, ok⟩ := hd.back (meets_of_decodeAt hdec) hval e
    cases ok.symm.trans he
  | @resolution s a b i d e e' _ hb hi he hr =>
    obtain ⟨t?, ok⟩ := hp.resolve_eq_ok e'
    cases ok.symm.trans hr

/-- The targets of a transfer that ends a block are found. -/
theorem exists_jumpTargets (hg : g.Consistent) (hf : x.Faithful g) (he : g.Ends block a d)
    (hflow : d.flow = some f) (ht : f.transfers = true) : ∃ targets, x.jumpTargets g a = .ok targets := by
  obtain ⟨b, hb, hend⟩ := id he
  have met := meets_of_decodeAt (hf.decoded hb hend.has).1
  rw [jumpTargets_eq hg he]
  refine exists_bind_eq_ok (hd.jumps met hflow ht) fun candidates _ => ?_
  refine exists_bind_eq_ok (exists_resolveCandidates (fun e _ => hp.resolve_eq_ok e) _) fun ⟨found, pending⟩ _ => ?_
  dsimp only
  split
  · exact ⟨_, rfl⟩
  · refine exists_bind_eq_ok ?_ fun more _ => ⟨_, rfl⟩
    cases hr : g.searchBack x.program x.decoder x.options.searchDepth a pending with
    | ok more => exact ⟨more, rfl⟩
    | error fault => exact absurd (g.fails_of_searchBack hg hr) (not_fails hp hd hf)

theorem admits (hdec : x.decodeAt a = .ok (some d)) (hflow : d.flow = some f) : x.Admits a d f where
  behind := exists_behind hp hd hdec
  targets ht _ _ hg hf he := by
    obtain ⟨targets, hj⟩ := exists_jumpTargets hp hd hg hf he hflow ht
    exact ⟨targets, hj, fun c _ => hp.addressIn_eq_ok c⟩

theorem answers (c : Target) : x.Answers c := by
  obtain ⟨a?, ha⟩ := hp.addressIn_eq_ok c
  exact ⟨a?, ha, fun a _ => exists_decodeAt hp hd a⟩

/-- Taking target after target comes to an end. -/
theorem Sound.exists_run (hs : x.Sound s) : ∃ g, x.run s = .ok g := by
  fun_induction Explorer.run x s with
  | case1 s hw => exact ⟨_, rfl⟩
  | case2 s item rest hw i hi =>
    obtain ⟨t, ht⟩ := hs.exists_step hw (answers hp hd _) fun _ => admits hp hd
    cases ht.symm.trans hi
  | case3 s item rest hw t ht _ _ _ ih => exact ih (hs.step hw (takes_of_step ht))

theorem exists_explore (he : x.exploreAll .empty entries = .ok g) (entry : Target) :
    ∃ h, x.explore g entry = .ok h := by
  obtain ⟨hg, hf⟩ := sound_invariant.exploreAll he
  have start : x.Sound (.starting g entry) := .starting hg hf entry
  refine exists_bind_eq_ok (start.exists_run hp hd) fun h hr => ?_
  obtain ⟨hh, -⟩ := sound_invariant.run (.start entry he) start hr
  split
  · refine exists_bind_eq_ok (exists_during hp.exists_labelAddresses) fun labels _ => ?_
    exact exists_makeStarts hh labels
  · exact ⟨h, rfl⟩

theorem exists_exploreAll (entries : List Target) : ∃ g, x.exploreAll .empty entries = .ok g := by
  induction entries using List.reverseRecOn with
  | nil => exact ⟨_, rfl⟩
  | append_singleton entries entry ih =>
    obtain ⟨g, he⟩ := ih
    obtain ⟨h, hl⟩ := exists_explore hp hd he entry
    exact ⟨h, exploreAll_concat.2 ⟨g, he, hl⟩⟩

end

/-- In a program with bounded sections, explorations with a safe decoder come to a result, whatever they
start from. The decoders of the toy machine and the x86 machines are safe there, what is no longer than the
bytes seen from a cursor fits, and expressions are resolved however deep they read memory. -/
theorem explorations_finish (hp : x.program.Bounded) :
    (x.decoder.Safe x.program → ∀ entries, ∃ g, x.exploreAll .empty entries = .ok g) ∧
    Toy.decoder.Safe x.program ∧ (∀ m : X86.Machine, m.decoder.Safe x.program) ∧
    (∀ {a c count bytes d}, x.program.cursorAt a = .ok (some c) → c.peek count = .ok bytes →
      d.instruction.encoding.length ≤ bytes.length → c.Fits d) ∧
    ∀ e, x.program.resolve e = e.resolveWith x.program x.program.resolve :=
  ⟨fun hd => exists_exploreAll hp hd, Toy.safe_decoder hp, fun m => m.safe_decoder hp,
    fun hc h hd => hp.fits_of_peek hc h hd, hp.resolve_eq⟩

/-- A jump back that ends where the address range does. -/
theorem last_jump_finishes :
    let x : Explorer :=
      { Toy.explorer [] with
        program :=
          { architecture := .unknown
            entryPoint := none
            sections := [Section.ofData ".text" 0xfffffffffffffffc #[0x00, 0x10, 0xfd]] } }
    x.program.Bounded ∧ x.decoder.Safe x.program ∧
      ∃ g, x.exploreAll .empty [.address 0xfffffffffffffffc, .label "start"] = .ok g := by
  intro x
  have hp : x.program.Bounded := by
    intro s hs
    cases List.mem_singleton.1 hs
    exact ⟨by decide, by decide, by decide, by simp [Section.ofData], by simp [Section.ofData]⟩
  obtain ⟨finish, safe, -⟩ := explorations_finish hp
  exact ⟨hp, safe, finish safe _⟩

end Explorer

end ReachableCode
