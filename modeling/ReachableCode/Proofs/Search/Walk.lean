import ReachableCode.Proofs.Graph.Consistent
import ReachableCode.Search.Backward

/-!
The walks that a backward search follows. A search tells traces apart by where they stand and by their
expression, and the address of a trace follows from where it stands. From one standpoint a trace moves
over an instruction, which costs depth, or up to the blocks before it, which costs none. How many
instructions a walk goes over is nearly settled by how often it goes up and where it ends.
-/

namespace ReachableCode

theorem Address.minus_eq_ok {a n b : Address} : minus a n = .ok b ↔ b.toNat + n.toNat = a.toNat := by
  unfold minus
  split
  next fits =>
    have diff : (a - n).toNat = a.toNat - n.toNat := UInt64.toNat_sub_of_le _ _ fits
    have := UInt64.le_iff_toNat_le.1 fits
    rw [Except.ok.injEq, ← UInt64.toNat_inj, diff]
    omega
  next wraps =>
    constructor
    · nofun
    · intro h
      exact absurd (UInt64.le_iff_toNat_le.2 (by omega)) wraps

/-- What a search tells traces apart by: the block and the index where it stands, and the expression. -/
abbrev Standpoint := Address × Nat × Expr

namespace Standpoint

/-- How many instructions a move goes over. -/
def overs (k : Standpoint) : Nat := if k.2.1 = 0 then 0 else 1

/-- How often a move goes up to another block. -/
def ups (k : Standpoint) : Nat := if k.2.1 = 0 then 1 else 0

variable {s : Address} {i : Nat} {e : Expr} {k : Standpoint}

@[simp] theorem overs_zero : overs (s, 0, e) = 0 := rfl

@[simp] theorem overs_succ : overs (s, i + 1, e) = 1 := rfl

@[simp] theorem ups_zero : ups (s, 0, e) = 1 := rfl

@[simp] theorem ups_succ : ups (s, i + 1, e) = 0 := rfl

theorem overs_add_ups : overs k + ups k = 1 := by
  obtain ⟨s, _ | i, e⟩ := k <;> rfl

end Standpoint

/-- A trace stands before an instruction of its block, or behind the last one. -/
def Trace.Placed (g : BlockGraph) (t : Trace) : Prop :=
  ∃ b, g.block? t.block = some b ∧ t.index ≤ b.instructions.length ∧
    Block.Spans t.block (b.instructions.take t.index) t.address

namespace BackwardSearch

/-- A trace that stands at one place goes on from another. -/
inductive Moves (p : Program) (dec : Decoder) (g : BlockGraph) : Standpoint → Standpoint → Prop
  | across {s a : Address} {b : Block} {i : Nat} {d : Decoded} {e e' : Expr} : g.block? s = some b →
      b.Holds i a d → dec.stepBack d a e = .ok (some e') → p.resolve e' = .ok none →
      Moves p dec g (s, i + 1, e) (s, i, e')
  | up {s origin : Address} {b c : Block} {e : Expr} : g.block? s = some b → origin ∈ b.predecessors →
      g.blockOf? origin = some c → c.instructions ≠ [] →
      Moves p dec g (s, 0, e) (c.start, c.instructions.length, e)

/-- A trace that stands at a place finds a target behind one more instruction. -/
inductive Finds (p : Program) (dec : Decoder) (g : BlockGraph) : Standpoint → Target → Prop
  | intro {s a : Address} {b : Block} {i : Nat} {d : Decoded} {e e' : Expr} {found : Target} :
      g.block? s = some b → b.Holds i a d → dec.stepBack d a e = .ok (some e') →
      p.resolve e' = .ok (some found) → Finds p dec g (s, i + 1, e) found

/-- Going back fails with the fault of the decoder, or with that of the resolution of an expression. -/
inductive Fails (p : Program) (dec : Decoder) (g : BlockGraph) : Fault → Prop
  | decoder {s a : Address} {b : Block} {i : Nat} {d : Decoded} {e : Expr} {f : Fault} :
      g.block? s = some b → b.Holds i a d → dec.stepBack d a e = .error f → Fails p dec g f
  | resolution {s a : Address} {b : Block} {i : Nat} {d : Decoded} {e e' : Expr} {f : Fault} :
      g.block? s = some b → b.Holds i a d → dec.stepBack d a e = .ok (some e') →
      p.resolve e' = .error f → Fails p dec g f

/-- A walk from one of the standpoints `from?` over `m` instructions and up `n` times. -/
inductive Walk (p : Program) (dec : Decoder) (g : BlockGraph) (from? : Standpoint → Prop) :
    Nat → Nat → Standpoint → Prop
  | start {k : Standpoint} : from? k → Walk p dec g from? 0 0 k
  | move {m n : Nat} {k k' : Standpoint} : Walk p dec g from? m n k → Moves p dec g k k' →
      Walk p dec g from? (m + k.overs) (n + k.ups) k'

variable {p : Program} {dec : Decoder} {g : BlockGraph} {from? : Standpoint → Prop} {m n m' n' : Nat}
  {k k' : Standpoint} {t u : Trace} {ts : List Trace} {origins : List Address} {block : Address}

/-! ### What one trace does -/

theorem mem_enter (h : t.enter g origins = .ok ts) : u ∈ ts ↔ ∃ origin ∈ origins, ∃ c stop,
    g.blockOf? origin = some c ∧ c.instructions ≠ [] ∧ c.endAddress = .ok stop ∧
      u = { t with address := stop, block := c.start, index := c.instructions.length } := by
  induction origins generalizing ts with
  | nil =>
    cases h
    simp
  | cons origin rest ih =>
    rw [Trace.enter] at h
    split at h
    next none => simp [ih h, none]
    next c hc =>
      split at h
      next empty => simp [ih h, hc, List.isEmpty_iff.1 empty]
      next full =>
        obtain ⟨stop, hs, h⟩ := bind_eq_ok.1 h
        obtain ⟨others, ho, h⟩ := bind_eq_ok.1 h
        cases h
        have full : c.instructions ≠ [] := fun e => full (List.isEmpty_iff.2 e)
        simp [ih ho, hc, full, hs]

theorem exists_enter (hg : g.Consistent) : ∃ ts, t.enter g origins = .ok ts := by
  induction origins with
  | nil => exact ⟨[], rfl⟩
  | cons origin rest ih =>
    obtain ⟨ts, ht⟩ := ih
    rw [Trace.enter]
    split
    · exact ⟨ts, ht⟩
    next c hc =>
      split
      · exact ⟨ts, ht⟩
      · obtain ⟨s, -, hb⟩ := BlockGraph.blockOf?_eq_some.1 hc
        obtain ⟨stop, hs⟩ := hg.exists_endAddress hb
        exact ⟨_, bind_eq_ok.2 ⟨stop, hs, bind_eq_ok.2 ⟨ts, ht, rfl⟩⟩⟩

theorem holds_of_placed (hg : g.Consistent) (ht : t.Placed g) {b : Block} {i : Nat}
    (hb : g.block? t.block = some b) (hi : t.index = i + 1) :
    ∃ d a, b.instructions[i]? = some d ∧ Address.minus t.address d.size = .ok a ∧ b.Holds i a d := by
  obtain ⟨b', hb', hlen, hs⟩ := ht
  obtain rfl : b = b' := Option.some.inj (hb.symm.trans hb')
  have hlt : i < b.instructions.length := by omega
  rw [hi, List.take_succ_eq_append_getElem hlt, Block.spans_append] at hs
  obtain ⟨a, ha, hs⟩ := hs
  obtain ⟨a', hn, hs⟩ := Block.spans_cons.1 hs
  obtain rfl := Block.spans_nil.1 hs
  refine ⟨b.instructions[i], a, List.getElem?_eq_getElem hlt, ?_, List.getElem?_eq_getElem hlt, ?_⟩
  · exact Address.minus_eq_ok.2 (Address.plus_eq_ok.1 hn)
  · rwa [hg.start_eq hb]

/-- The four things that going back does to a placed trace. -/
inductive Backs (p : Program) (dec : Decoder) (g : BlockGraph) (t : Trace) : Trace.Outcome → Prop
  | up {b : Block} {ts : List Trace} : t.index = 0 → g.block? t.block = some b →
      t.enter g b.predecessors.toList = .ok ts → Backs p dec g t (.goesOn ts)
  | lost {b : Block} {i : Nat} {a : Address} {d : Decoded} : t.index = i + 1 →
      g.block? t.block = some b → b.Holds i a d → dec.stepBack d a t.target = .ok none →
      Backs p dec g t (.goesOn [])
  | across {b : Block} {i : Nat} {a : Address} {d : Decoded} {e : Expr} : t.index = i + 1 →
      g.block? t.block = some b → b.Holds i a d → dec.stepBack d a t.target = .ok (some e) →
      p.resolve e = .ok none →
      Backs p dec g t (.goesOn [{ t with depth := t.depth - 1, address := a, index := i, target := e }])
  | finds {b : Block} {i : Nat} {a : Address} {d : Decoded} {e : Expr} {found : Target} :
      t.index = i + 1 → g.block? t.block = some b → b.Holds i a d →
      dec.stepBack d a t.target = .ok (some e) → p.resolve e = .ok (some found) →
      Backs p dec g t (.resolved found)

theorem backs_of_back (hg : g.Consistent) (ht : t.Placed g) {r : Trace.Outcome}
    (h : t.back p dec g = .ok r) : Backs p dec g t r := by
  obtain ⟨b, hb, -⟩ := id ht
  rw [Trace.back, hb] at h
  dsimp only at h
  split at h
  next hi =>
    obtain ⟨ts, he, h⟩ := map_eq_ok.1 h
    cases h
    exact .up hi hb he
  next i hi =>
    obtain ⟨d, a, hd, ha, holds⟩ := holds_of_placed hg ht hb hi
    rw [hd] at h
    obtain ⟨a', ha', h⟩ := bind_eq_ok.1 h
    cases ha.symm.trans ha'
    obtain ⟨e?, he, h⟩ := bind_eq_ok.1 h
    cases e? with
    | none =>
      cases h
      exact .lost hi hb holds he
    | some e =>
      obtain ⟨found?, hf, h⟩ := bind_eq_ok.1 h
      cases found? with
      | none =>
        cases h
        exact .across hi hb holds he hf
      | some found =>
        cases h
        exact .finds hi hb holds he hf

theorem fails_of_back (hg : g.Consistent) (ht : t.Placed g) {f : Fault}
    (h : t.back p dec g = .error f) : Fails p dec g f := by
  obtain ⟨b, hb, -⟩ := id ht
  rw [Trace.back, hb] at h
  dsimp only at h
  split at h
  next hi =>
    obtain ⟨ts, he⟩ : ∃ ts, t.enter g b.predecessors.toList = .ok ts := exists_enter hg
    rw [he] at h
    cases h
  next i hi =>
    obtain ⟨d, a, hd, ha, holds⟩ := holds_of_placed hg ht hb hi
    rw [hd] at h
    rcases bind_eq_error.1 h with h | ⟨a', ha', h⟩
    · cases ha.symm.trans h
    cases ha.symm.trans ha'
    rcases bind_eq_error.1 h with he | ⟨e?, he, h⟩
    · exact .decoder hb holds he
    cases e? with
    | none => cases h
    | some e =>
      rcases bind_eq_error.1 h with hf | ⟨found?, -, h⟩
      · exact .resolution hb holds he hf
      · cases found? <;> cases h

/-! ### What standpoints say of traces -/

section

variable {s a : Address} {b : Block} {i : Nat} {d : Decoded} {e : Expr} {found : Target}

theorem moves_up_iff (hb : g.block? s = some b) : Moves p dec g (s, 0, e) k ↔
    ∃ origin ∈ b.predecessors, ∃ c, g.blockOf? origin = some c ∧ c.instructions ≠ [] ∧
      k = (c.start, c.instructions.length, e) := by
  constructor
  · intro hm
    cases hm with
    | up hb' ho hc hne =>
      cases hb.symm.trans hb'
      exact ⟨_, ho, _, hc, hne, rfl⟩
  · rintro ⟨origin, ho, c, hc, hne, rfl⟩
    exact .up hb ho hc hne

theorem moves_over_iff (hb : g.block? s = some b) (hi : b.Holds i a d) :
    Moves p dec g (s, i + 1, e) k ↔
      ∃ e', dec.stepBack d a e = .ok (some e') ∧ p.resolve e' = .ok none ∧ k = (s, i, e') := by
  constructor
  · intro hm
    cases hm with
    | across hb' hi' he hr =>
      cases hb.symm.trans hb'
      obtain ⟨rfl, rfl⟩ := hi'.unique hi
      exact ⟨_, he, hr, rfl⟩
  · rintro ⟨e', he, hr, rfl⟩
    exact .across hb hi he hr

theorem finds_iff (hb : g.block? s = some b) (hi : b.Holds i a d) :
    Finds p dec g (s, i + 1, e) found ↔
      ∃ e', dec.stepBack d a e = .ok (some e') ∧ p.resolve e' = .ok (some found) := by
  constructor
  · intro hf
    cases hf with
    | intro hb' hi' he hr =>
      cases hb.symm.trans hb'
      obtain ⟨rfl, rfl⟩ := hi'.unique hi
      exact ⟨_, he, hr⟩
  · rintro ⟨e', he, hr⟩
    exact .intro hb hi he hr

theorem Moves.exists_block (hm : Moves p dec g k k') : ∃ b, g.block? k.1 = some b := by
  cases hm with
  | across hb => exact ⟨_, hb⟩
  | up hb => exact ⟨_, hb⟩

theorem not_finds_zero : ¬Finds p dec g (s, 0, e) found := nofun

end

theorem key_eq {i : Nat} (hi : t.index = i) : t.key = (t.block, i, t.target) := by
  rw [Trace.key, hi]

/-- A trace whose expression resolves has found the only target there, and goes nowhere. -/
theorem back_resolved (hg : g.Consistent) (ht : t.Placed g) {found : Target}
    (h : t.back p dec g = .ok (.resolved found)) :
    (∀ x, Finds p dec g t.key x ↔ x = found) ∧ ∀ k, ¬Moves p dec g t.key k := by
  cases backs_of_back hg ht h with
  | finds hi hb holds he hr =>
    rw [key_eq hi]
    constructor
    · intro x
      simp [finds_iff hb holds, he, hr, eq_comm]
    · intro k
      simp [moves_over_iff hb holds, he, hr]

/-- A trace that goes on stands at just those places next that one can move to from where it stood. -/
theorem back_goesOn (hg : g.Consistent) (ht : t.Placed g) (hd : t.depth ≠ 0)
    (h : t.back p dec g = .ok (.goesOn ts)) :
    (∀ x, ¬Finds p dec g t.key x) ∧
    (∀ u ∈ ts, u.Placed g ∧ u.depth + Standpoint.overs t.key = t.depth ∧ Moves p dec g t.key u.key) ∧
    ∀ k, Moves p dec g t.key k → ∃ u ∈ ts, u.key = k := by
  cases backs_of_back hg ht h with
  | @up b ts hi hb he =>
    rw [key_eq hi]
    refine ⟨fun _ => not_finds_zero, fun u hu => ?_, fun k hk => ?_⟩
    · obtain ⟨origin, ho, c, stop, hc, hne, hs, rfl⟩ := (mem_enter he).1 hu
      obtain ⟨s, -, hcb⟩ := BlockGraph.blockOf?_eq_some.1 hc
      rw [Block.endAddress_eq_ok] at hs
      refine ⟨⟨c, ?_, Nat.le_refl _, by simpa using hs⟩, rfl, ?_⟩
      · rw [hg.start_eq hcb]
        exact hcb
      · exact (moves_up_iff hb).2 ⟨origin, Std.ExtTreeSet.mem_toList.1 ho, c, hc, hne, rfl⟩
    · obtain ⟨origin, ho, c, hc, hne, rfl⟩ := (moves_up_iff hb).1 hk
      obtain ⟨s, -, hcb⟩ := BlockGraph.blockOf?_eq_some.1 hc
      obtain ⟨stop, hs⟩ := hg.exists_endAddress hcb
      exact ⟨_, (mem_enter he).2 ⟨origin, Std.ExtTreeSet.mem_toList.2 ho, c, stop, hc, hne, hs, rfl⟩, rfl⟩
  | lost hi hb holds he =>
    rw [key_eq hi]
    refine ⟨fun x => by simp [finds_iff hb holds, he], by simp, fun k => ?_⟩
    simp [moves_over_iff hb holds, he]
  | @across b i a d e hi hb holds he hr =>
    rw [key_eq hi]
    refine ⟨fun x => by simp [finds_iff hb holds, he, hr], fun u hu => ?_, fun k hk => ?_⟩
    · cases List.mem_singleton.1 hu
      have hlt := (List.getElem?_eq_some_iff.1 holds.1).1
      refine ⟨⟨b, hb, Nat.le_of_lt hlt, by simpa [hg.start_eq hb] using holds.2⟩, ?_, ?_⟩
      · simp only [Standpoint.overs_succ]
        omega
      · exact (moves_over_iff hb holds).2 ⟨e, he, hr, rfl⟩
    · obtain ⟨e', he', hr', rfl⟩ := (moves_over_iff hb holds).1 hk
      cases he.symm.trans he'
      exact ⟨_, List.mem_singleton.2 rfl, rfl⟩

/-! ### How long walks are -/

/-- What a walk from one place has gone over: within the first block, the way back from there; after
going up once, the first block and the way back in the one that it is in now; and no less later. It has
gone over an instruction between any two times it went up. -/
structure Walk.Bounds (g : BlockGraph) (block : Address) (index m n : Nat) (k : Standpoint) : Prop where
  intro ::
  ups_le : n ≤ m + 1
  ups_le_of_start : k.2.1 = 0 → n ≤ m
  within : n = 0 → k.1 = block ∧ m + k.2.1 = index
  once : n = 1 → ∀ {b}, g.block? k.1 = some b → m + k.2.1 = index + b.instructions.length
  more : 1 ≤ n → ∀ {b}, g.block? k.1 = some b → index + b.instructions.length ≤ m + k.2.1

theorem Walk.bounds {index : Nat} (hg : g.Consistent)
    (hk : ∀ k, from? k → k.1 = block ∧ k.2.1 = index) (hw : Walk p dec g from? m n k) :
    Walk.Bounds g block index m n k := by
  induction hw with
  | start h =>
    obtain ⟨hb, hi⟩ := hk _ h
    exact ⟨by omega, by omega, fun _ => ⟨hb, by omega⟩, by omega, by omega⟩
  | @move m n k k' _ hm ih =>
    cases hm with
    | across hb holds he hr =>
      refine ⟨?_, ?_, ?_, ?_, ?_⟩ <;> simp only [Standpoint.overs_succ, Standpoint.ups_succ, Nat.add_zero]
      · have := ih.ups_le
        omega
      · have := ih.ups_le
        omega
      · intro hn
        have := ih.within hn
        exact ⟨this.1, by simp only at this; omega⟩
      · intro hn b hb
        have := ih.once hn hb
        simp only at this
        omega
      · intro hn b hb
        have := ih.more hn hb
        simp only at this
        omega
    | @up s origin b c e hb ho hc hne =>
      -- where a walk goes up, it has gone over an instruction since it went up before
      have start := ih.ups_le_of_start rfl
      have full : c.instructions.length ≠ 0 := by simpa using hne
      have same : ∀ {c'}, g.block? c.start = some c' → c' = c := by
        intro c' hc'
        obtain ⟨u, -, hcb⟩ := BlockGraph.blockOf?_eq_some.1 hc
        rw [hg.start_eq hcb, hcb] at hc'
        exact (Option.some.inj hc').symm
      refine ⟨?_, ?_, ?_, ?_, ?_⟩ <;> simp only [Standpoint.overs_zero, Standpoint.ups_zero, Nat.add_zero]
      · omega
      · omega
      · omega
      · intro hn c' hc'
        have := (ih.within (by omega)).2
        simp only at this
        rw [same hc']
        omega
      · intro _ c' hc'
        rw [same hc']
        rcases Nat.eq_zero_or_pos n with hn | hn
        · have := (ih.within hn).2
          simp only at this
          omega
        · have := ih.more hn hb
          simp only at this
          omega

/-- A walk that goes over more instructions than another one to the same place, and not further in
all, goes over less than twice as many. -/
theorem Walk.overs_lt {index : Nat} (hg : g.Consistent)
    (hk : ∀ k, from? k → k.1 = block ∧ k.2.1 = index) (hw : Walk p dec g from? m n k)
    (hw' : Walk p dec g from? m' n' k) {b : Block} (hb : g.block? k.1 = some b)
    (hle : m + n ≤ m' + n') : m ≤ m' ∨ m < 2 * m' := by
  have w := hw.bounds hg hk
  have w' := hw'.bounds hg hk
  by_cases hm : m ≤ m'
  · exact Or.inl hm
  · have := w'.ups_le
    have := w'.more (by omega) hb
    rcases Nat.lt_trichotomy n 1 with zero | one | more
    · have := (w.within (by omega)).2
      omega
    · have := w.once one hb
      omega
    · omega

end BackwardSearch

end ReachableCode
