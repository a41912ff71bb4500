import ReachableCode.Proofs.Exploration.Representation
import ReachableCode.Proofs.Search.Depth

/-!
What a backward search finds, told by the instructions it goes back over. From an instruction one goes
back to the one before it in its block, and from the first of a block to the last one of a block that
control comes from. A search stands between two instructions, and may stand at the end of a block it has
gone up to; the walks of its traces are these paths, and what it finds at their ends is what they yield.
-/

namespace ReachableCode

namespace BlockGraph

/-- Going back from the instruction at `a` one comes to the instruction at `c`. -/
inductive Precedes (g : BlockGraph) : Address → Address → Prop
  /-- It lies before `a` in the block. -/
  | inside {s a c : Address} {b : Block} {i : Nat} {d e : Decoded} : g.block? s = some b →
      b.Holds i c e → b.Holds (i + 1) a d → Precedes g c a
  /-- Its block ends there and has one of the addresses that control comes to the block at `a` from. -/
  | across {s a o c : Address} {b b' : Block} {d e : Decoded} : g.block? s = some b → b.Holds 0 a d →
      o ∈ b.predecessors → g.blockOf? o = some b' → b'.EndsWith c e → Precedes g c a

end BlockGraph

namespace BackwardSearch

open Relation (ReflTransGen)

variable {p : Program} {dec : Decoder} {g : BlockGraph} {origin : Address} {e₀ : Expr}

/-- Going back over `n` instructions, the last of them the one at `a`, the decoder rewrites what is wanted
before the one at `origin` to `e`. Nothing that it is rewritten to resolves. -/
inductive Rewrites (p : Program) (dec : Decoder) (g : BlockGraph) (origin : Address) (e₀ : Expr) :
    Nat → Address → Expr → Prop
  | start : Rewrites p dec g origin e₀ 0 origin e₀
  | back {n : Nat} {a c : Address} {d : Decoded} {e e' : Expr} : Rewrites p dec g origin e₀ n a e →
      g.Precedes c a → g.Has c d → dec.stepBack d c e = .ok (some e') → p.resolve e' = .ok none →
      Rewrites p dec g origin e₀ (n + 1) c e'

/-- Going back over `n` instructions rewrites what is wanted before the one at `origin` to an expression
that resolves to `t`, and the last of them is the first where it resolves. -/
inductive Yields (p : Program) (dec : Decoder) (g : BlockGraph) (origin : Address) (e₀ : Expr) :
    Nat → Target → Prop
  | intro {n : Nat} {a c : Address} {d : Decoded} {e e' : Expr} {t : Target} :
      Rewrites p dec g origin e₀ n a e → g.Precedes c a → g.Has c d →
      dec.stepBack d c e = .ok (some e') → p.resolve e' = .ok (some t) →
      Yields p dec g origin e₀ (n + 1) t

/-- The standpoint is the place before the instruction at `a`. -/
def Faces (g : BlockGraph) (k : Standpoint) (a : Address) : Prop :=
  ∃ b d, g.block? k.1 = some b ∧ b.Holds k.2.1 a d

/-- From the standpoint one goes back as from the instruction at `a`: one stands before it, or it is the
first of its block and one has gone up to the end of a block that control comes from. -/
inductive Leaves (g : BlockGraph) (k : Standpoint) (a : Address) : Prop
  | before : Faces g k a → Leaves g k a
  | above {s o : Address} {b c : Block} {d : Decoded} : g.block? s = some b → b.Holds 0 a d →
      o ∈ b.predecessors → g.blockOf? o = some c → g.block? k.1 = some c → c.instructions ≠ [] →
      k.2.1 = c.instructions.length → Leaves g k a

theorem exists_faces_of_precedes {a c : Address} (hp : g.Precedes c a) (e : Expr) :
    ∃ s i, Faces g (s, i, e) a := by
  cases hp with
  | inside hb _ ha => exact ⟨_, _, _, _, hb, ha⟩
  | across hb ha => exact ⟨_, _, _, _, hb, ha⟩

/-- Paths start at an instruction. -/
theorem Rewrites.exists_faces {n : Nat} {a c : Address} {e : Expr}
    (hr : Rewrites p dec g origin e₀ n a e) (hp : g.Precedes c a) (e' : Expr) :
    ∃ s i, Faces g (s, i, e') origin := by
  induction hr generalizing c with
  | start => exact exists_faces_of_precedes hp e'
  | back _ hp' _ _ _ ih => exact ih hp'

/-! ### From walks to paths -/

theorem Leaves.precedes {s a c : Address} {i : Nat} {e : Expr} {b : Block} {d : Decoded}
    (hl : Leaves g (s, i + 1, e) a) (hb : g.block? s = some b) (hi : b.Holds i c d) :
    g.Precedes c a := by
  cases hl with
  | before hf =>
    obtain ⟨b', d', hb', ha⟩ := hf
    obtain rfl : b = b' := Option.some.inj (hb.symm.trans hb')
    exact .inside hb hi ha
  | above hs ha ho hc hk hne hlen =>
    obtain rfl := Option.some.inj (hb.symm.trans hk)
    exact .across hs ha ho hc (hi.endsWith hlen)

/-- A walk goes back over as many instructions as the path along it. -/
theorem Walk.rewrites {from? : Standpoint → Prop} {candidates : List Expr} {m n : Nat} {k : Standpoint}
    (hg : g.Consistent)
    (hk : ∀ k, from? k → k.2.2 ∈ candidates ∧ Faces g k origin) (hw : Walk p dec g from? m n k) :
    ∃ e₀ ∈ candidates, ∃ a, Rewrites p dec g origin e₀ m a k.2.2 ∧ Leaves g k a := by
  induction hw with
  | start h =>
    obtain ⟨he, hf⟩ := hk _ h
    exact ⟨_, he, origin, .start, .before hf⟩
  | move hw hm ih =>
    obtain ⟨e₀, he₀, a, hr, hl⟩ := ih
    cases hm with
    | across hb hi he hres =>
      exact ⟨e₀, he₀, _, hr.back (hl.precedes hb hi) ⟨_, _, hb, _, hi⟩ he hres,
        .before ⟨_, _, hb, hi⟩⟩
    | up hb ho hc hne =>
      obtain ⟨s, -, hcb⟩ := BlockGraph.blockOf?_eq_some.1 hc
      have here := hg.start_eq hcb
      refine ⟨e₀, he₀, a, hr, ?_⟩
      cases hl with
      | before hf =>
        obtain ⟨b', d, hb', ha⟩ := hf
        exact .above hb' ha (Option.some.inj (hb.symm.trans hb') ▸ ho) hc (here ▸ hcb) hne rfl
      | above _ _ _ _ _ hne' hlen => exact absurd (List.length_eq_zero_iff.1 hlen.symm) hne'

/-! ### From paths to walks -/

/-- Where a search stands that goes back from `a` to the instruction at `c`, it has at most gone up. -/
theorem exists_of_precedes (p : Program) (dec : Decoder) {k : Standpoint} {a c : Address} {d : Decoded}
    (hg : g.Consistent) (hf : Faces g k a) (hp : g.Precedes c a) (hc : g.Has c d) :
    ∃ s b i, g.block? s = some b ∧ b.Holds i c d ∧
      ReflTransGen (Moves p dec g) k (s, i + 1, k.2.2) := by
  obtain ⟨s₀, i₀, e⟩ := k
  obtain ⟨b₀, d₀, hb₀, ha₀⟩ := hf
  obtain ⟨s', b', hb', i', hi'⟩ := hc
  cases hp with
  | inside hb hi ha =>
    obtain ⟨rfl, rfl, -⟩ := hg.place_unique hb ha hb₀ ha₀
    obtain ⟨-, -, rfl⟩ := hg.place_unique hb hi hb' hi'
    exact ⟨_, _, _, hb, hi, .refl⟩
  | across hb ha ho hown hend =>
    obtain ⟨rfl, rfl, -⟩ := hg.place_unique hb ha hb₀ ha₀
    obtain ⟨s, -, hcb⟩ := BlockGraph.blockOf?_eq_some.1 hown
    obtain ⟨i, hi, hlen⟩ := hend.holds
    obtain ⟨-, -, rfl⟩ := hg.place_unique hcb hi hb' hi'
    have up : Moves p dec g (_, 0, e) _ := .up hb ho hown hend.has.ne_nil
    rw [← hlen, hg.start_eq hcb] at up
    exact ⟨s, _, i, hcb, hi, .single up⟩

variable {k : Standpoint}

theorem Rewrites.moves {n : Nat} {a : Address} {e : Expr} (hg : g.Consistent)
    (hr : Rewrites p dec g origin k.2.2 n a e) (hk : Faces g k origin) :
    ∃ k', Faces g k' a ∧ k'.2.2 = e ∧ ReflTransGen (Moves p dec g) k k' := by
  induction hr with
  | start => exact ⟨k, hk, rfl, .refl⟩
  | back _ hp hc he hres ih =>
    obtain ⟨k', hf, rfl, moves⟩ := ih
    obtain ⟨s, b, i, hb, hi, up⟩ := exists_of_precedes p dec hg hf hp hc
    exact ⟨_, ⟨b, _, hb, hi⟩, rfl, (moves.trans up).tail (.across hb hi he hres)⟩

/-- What a path yields is found where moves along it lead. -/
theorem Yields.finds {n : Nat} {t : Target} (hg : g.Consistent)
    (hy : Yields p dec g origin k.2.2 n t) (hk : Faces g k origin) :
    ∃ k', ReflTransGen (Moves p dec g) k k' ∧ Finds p dec g k' t := by
  obtain ⟨hr, hp, hc, he, hres⟩ := hy
  obtain ⟨k', hf, rfl, moves⟩ := hr.moves hg hk
  obtain ⟨s, b, i, hb, hi, up⟩ := exists_of_precedes p dec hg hf hp hc
  exact ⟨_, moves.trans up, .intro hb hi he hres⟩

/-! ### What a search finds -/

theorem nodup_addTo {found : List Target} {t : Target} (h : found.Nodup) : (t.addTo found).Nodup := by
  rw [Target.addTo]
  split
  · exact h
  next new =>
    refine List.nodup_append.2 ⟨h, by simp, ?_⟩
    rintro u hu v hv rfl
    exact new (List.mem_singleton.1 hv ▸ hu)

theorem nodup_run {s : BackwardSearch} {out : List Target} (hn : s.found.Nodup)
    (hr : s.run p dec g = .ok out) : out.Nodup := by
  fun_induction BackwardSearch.run p dec g s with
  | case1 =>
    cases hr
    exact hn
  | case2 _ _ _ _ _ _ _ ih => exact ih hn hr
  | case3 _ _ _ _ _ _ _ _ ih => exact ih hn hr
  | case4 => cases hr
  | case5 _ _ _ _ _ _ _ _ _ _ ih => exact ih (nodup_addTo hn) hr
  | case6 _ _ _ _ _ _ _ _ _ _ _ _ ih => exact ih hn hr

end BackwardSearch

namespace BlockGraph

open BackwardSearch (Yields)

variable {p : Program} {dec : Decoder} {g : BlockGraph} {origin : Address} {candidates : List Expr}
  {depth : Nat} {found : List Target}

theorem yields_of_searchBack (hg : g.Consistent)
    (hr : g.searchBack p dec depth origin candidates = .ok found) {t : Target} (ht : t ∈ found) :
    ∃ e ∈ candidates, ∃ n, 1 ≤ n ∧ n ≤ depth ∧ Yields p dec g origin e n t := by
  rcases searchBack_cases hg p dec origin candidates with none | ⟨block, b, i, d, hb, hi, run⟩
  · cases (none depth).symm.trans hr
    cases ht
  · rw [run] at hr
    obtain ⟨followed, hs⟩ := BackwardSearch.searching_of_run hg hb hi hr
    obtain ⟨k, m, n, hf, finds⟩ := hs.sound ht
    obtain ⟨walk, hm⟩ := hs.walked hf
    have faces : ∀ k : Standpoint, (∃ e ∈ candidates, k = (block, i, e)) →
        k.2.2 ∈ candidates ∧ BackwardSearch.Faces g k origin := by
      rintro _ ⟨e, he, rfl⟩
      exact ⟨he, b, d, hb, hi⟩
    obtain ⟨e, he, a, hr, hl⟩ := walk.rewrites hg faces
    cases finds with
    | intro hb' hi' hstep hres =>
      exact ⟨e, he, m + 1, by omega, by omega,
        .intro hr (hl.precedes hb' hi') ⟨_, _, hb', _, hi'⟩ hstep hres⟩

end BlockGraph

namespace Explorer

open BackwardSearch (Yields)

/-- The graphs that searches go back through: those that explorations make, cut or not, and those in which
the targets of a transfer are looked for while one is going on. -/
inductive Searched (x : Explorer) (g : BlockGraph) : Prop
  | refined : x.Refined g → Searched x g
  | consulted {a : Address} : x.Consults a g → Searched x g

variable {x : Explorer} {g : BlockGraph}

theorem Searched.consistent (hs : x.Searched g) : g.Consistent ∧ x.Faithful g := by
  cases hs with
  | refined hr => exact hr.consistent
  | consulted hc =>
    obtain ⟨hr, hw, ha, hv, hd, hval, hn, hp⟩ := hc
    exact (sound_invariant.running hr).append hw ha hv hd hval hn hp

/-- A target that a search returns is what a path back from the instruction yields for a candidate, over
at least one and no more instructions than the depth allows, and it is returned once. -/
theorem search_returns_yields {p : Program} {dec : Decoder} {depth : Nat} {origin : Address}
    {candidates : List Expr} {found : List Target} (hs : x.Searched g)
    (hr : g.searchBack p dec depth origin candidates = .ok found) :
    (∀ t ∈ found, ∃ e ∈ candidates, ∃ n, 1 ≤ n ∧ n ≤ depth ∧ Yields p dec g origin e n t) ∧
      found.Nodup := by
  obtain ⟨hg, -⟩ := hs.consistent
  refine ⟨fun t ht => g.yields_of_searchBack hg hr ht, ?_⟩
  rcases g.searchBack_cases hg p dec origin candidates with none | ⟨block, b, i, d, hb, hi, run⟩
  · cases (none depth).symm.trans hr
    exact List.nodup_nil
  · rw [run] at hr
    exact BackwardSearch.nodup_run List.nodup_nil hr

/-- A register is set at the head of a loop, and control returns behind the loop. -/
def setInLoop : Explorer :=
  Toy.explorer [0x20, 0x02, 0x20, 0x10, 0x00, 0x00, 0x11, 0xf8, 0xc3]

theorem setInLoop_search : ∃ g, setInLoop.exploreAll .empty [.address 0x1000] = .ok g ∧
    g.searchBack setInLoop.program setInLoop.decoder 3 0x1008
      [Toy.register 2, Toy.register 3] = .ok [.address 0x1020] := by
  have run : (do
      let g ← setInLoop.exploreAll .empty [.address 0x1000]
      let b ← Interruption.during g ((g.block? 0x1008).elim (.error (.undecodedSplit 0x1008)) .ok)
      let index ← Interruption.during g (b.indexOf 0x1008)
      let found ← Interruption.during g <|
        BackwardSearch.runFor setInLoop.program setInLoop.decoder g 20
          (BackwardSearch.candidateTraces 3 0x1008 0x1008 0 [Toy.register 2, Toy.register 3]) [] []
      return (g.owner? 0x1008, index, found)) =
      .ok (some 0x1008, some 0, some [.address 0x1020]) := by
    cbv
  obtain ⟨g, hg, run⟩ := bind_eq_ok.1 run
  obtain ⟨b, hb, run⟩ := bind_eq_ok.1 run
  obtain ⟨index, hi, run⟩ := bind_eq_ok.1 run
  obtain ⟨found, hf, run⟩ := bind_eq_ok.1 run
  simp only [pure, Except.pure, Except.ok.injEq, Prod.mk.injEq] at run
  obtain ⟨ho, rfl, rfl⟩ := run
  rw [during_eq_ok, elim_eq_ok] at hb
  rw [during_eq_ok] at hi hf
  exact ⟨g, hg, g.searchBack_of_runFor ho hb hi hf⟩

theorem setInLoop_yields : ∃ g, setInLoop.Searched g ∧
    g.searchBack setInLoop.program setInLoop.decoder 3 0x1008
      [Toy.register 2, Toy.register 3] = .ok [.address 0x1020] ∧
    ∃ e ∈ [Toy.register 2, Toy.register 3], ∃ n, 1 ≤ n ∧ n ≤ 3 ∧
      Yields setInLoop.program setInLoop.decoder g 0x1008 e n (.address 0x1020) := by
  obtain ⟨g, hg, hr⟩ := setInLoop_search
  have hs : setInLoop.Searched g := .refined (.produced ⟨_, hg⟩)
  exact ⟨g, hs, hr, (search_returns_yields hs hr).1 _ (List.mem_singleton.2 rfl)⟩

end Explorer

end ReachableCode
