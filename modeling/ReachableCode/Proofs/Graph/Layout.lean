import ReachableCode.Graph.Block
import ReachableCode.Success

/-!
How the instructions of a block lie in the address range. Each lies behind the bytes of those before
it, so the place of an instruction is the start of the block plus the number of those bytes, and a
block can be cut between any two of its instructions. Everything a block computes about places
(`placed`, `endAddress`, `indexOf`, `cutFrom`) is read off this sum.
-/

namespace ReachableCode

namespace Address

theorem plus_eq_ok {a n b : Address} : plus a n = .ok b ↔ a.toNat + n.toNat = b.toNat := by
  have ha := a.toNat_lt
  have hb := b.toNat_lt
  unfold plus
  split
  next fits =>
    have sum : (a + n).toNat = a.toNat + n.toNat := by
      rw [UInt64.toNat_add, Nat.mod_eq_of_lt (by simpa [count] using fits)]
    rw [Except.ok.injEq, ← UInt64.toNat_inj, sum]
  next wraps =>
    constructor
    · nofun
    · intro h
      exact absurd (by simpa [count, h] using hb) wraps

theorem exists_of_le {n : Nat} {b : Address} (h : n ≤ b.toNat) : ∃ a : Address, a.toNat = n :=
  ⟨UInt64.ofNat n, UInt64.toNat_ofNat_of_lt' (Nat.lt_of_le_of_lt h b.toNat_lt)⟩

end Address

namespace Decoded

/-- Control continues behind the instruction and nowhere else, and that is not the instruction
itself. -/
structure RunsOn (d : Decoded) : Prop where
  sized : d.size ≠ 0
  flow : ∃ f, d.flow = some f ∧ f.transfers = false ∧ f.stops = false

end Decoded

namespace Block

/-- The number of bytes of a list of instructions. -/
def byteCount : List Decoded → Nat
  | [] => 0
  | d :: rest => d.size.toNat + byteCount rest

/-- The instructions lie behind one another from `start` up to `stop`. -/
def Spans (start : Address) (ds : List Decoded) (stop : Address) : Prop :=
  start.toNat + byteCount ds = stop.toNat

/-- The instruction of index `i` is `d` and lies at `a`. -/
def Holds (b : Block) (i : Nat) (a : Address) (d : Decoded) : Prop :=
  b.instructions[i]? = some d ∧ Spans b.start (b.instructions.take i) a

/-- The instruction at `a` is `d`. -/
def Has (b : Block) (a : Address) (d : Decoded) : Prop :=
  ∃ i, b.Holds i a d

/-- The last instruction is `d` and lies at `a`. -/
def EndsWith (b : Block) (a : Address) (d : Decoded) : Prop :=
  ∃ before, b.instructions = before ++ [d] ∧ Spans b.start before a

/-! ### Counting bytes -/

variable {start stop a : Address} {ds before after : List Decoded} {d : Decoded} {b : Block}

@[simp] theorem byteCount_nil : byteCount [] = 0 := rfl

@[simp] theorem byteCount_cons : byteCount (d :: ds) = d.size.toNat + byteCount ds := rfl

@[simp] theorem byteCount_append :
    byteCount (before ++ after) = byteCount before + byteCount after := by
  induction before with
  | nil => simp
  | cons d before ih => simp only [List.cons_append, byteCount_cons, ih, Nat.add_assoc]

theorem byteCount_pos (h : ∀ d ∈ ds, d.RunsOn) (hne : ds ≠ []) : 0 < byteCount ds := by
  cases ds with
  | nil => exact absurd rfl hne
  | cons d rest =>
    have : d.size.toNat ≠ 0 := fun e => (h d (by simp)).sized (UInt64.toNat_inj.1 e)
    simp only [byteCount_cons]
    omega

@[simp] theorem spans_nil : Spans start [] stop ↔ start = stop := by
  simp [Spans, UInt64.toNat_inj]

theorem spans_cons :
    Spans start (d :: ds) stop ↔ ∃ next, Address.plus start d.size = .ok next ∧ Spans next ds stop := by
  simp only [Spans, byteCount_cons, Address.plus_eq_ok]
  constructor
  · intro h
    obtain ⟨next, hn⟩ := Address.exists_of_le (b := stop) (n := start.toNat + d.size.toNat) (by omega)
    exact ⟨next, by omega, by omega⟩
  · rintro ⟨next, hn, h⟩
    omega

theorem spans_append :
    Spans start (before ++ after) stop ↔ ∃ mid, Spans start before mid ∧ Spans mid after stop := by
  simp only [Spans, byteCount_append]
  constructor
  · intro h
    obtain ⟨mid, hm⟩ := Address.exists_of_le (b := stop) (n := start.toNat + byteCount before)
      (by omega)
    exact ⟨mid, by omega, by omega⟩
  · rintro ⟨mid, hm, h⟩
    omega

theorem Spans.unique {stop' : Address} (h : Spans start ds stop) (h' : Spans start ds stop') :
    stop = stop' :=
  UInt64.toNat_inj.1 (h.symm.trans h')

theorem Spans.take (h : Spans start ds stop) (i : Nat) : ∃ mid, Spans start (ds.take i) mid := by
  rw [← List.take_append_drop i ds, spans_append] at h
  obtain ⟨mid, hm, -⟩ := h
  exact ⟨mid, hm⟩

/-! ### Places are distinct -/

theorem mem_dropLast_of_getElem? {i : Nat} (h : ds[i]? = some d) (hi : i + 1 < ds.length) :
    d ∈ ds.dropLast := by
  obtain ⟨hlt, rfl⟩ := List.getElem?_eq_some_iff.1 h
  rw [← List.getElem_dropLast (i := i) (by simp; omega)]
  exact List.getElem_mem _

theorem byteCount_take_lt {i j : Nat} (h : ∀ d ∈ ds.dropLast, d.RunsOn) (hij : i < j)
    (hj : j < ds.length) : byteCount (ds.take i) < byteCount (ds.take j) := by
  have split : ds.take j = ds.take i ++ (ds.take j).drop i := by
    conv => lhs; rw [← List.take_append_drop i (ds.take j), List.take_take, Nat.min_eq_left (Nat.le_of_lt hij)]
  rw [split, byteCount_append]
  -- what lies between is not empty: only the last instruction may have no bytes, and it lies behind
  have between : ∀ d ∈ (ds.take j).drop i, d.RunsOn := fun d hd => by
    obtain ⟨k, hk⟩ := List.getElem?_of_mem (List.mem_of_mem_drop hd)
    rw [List.getElem?_take] at hk
    split at hk
    · exact h d (mem_dropLast_of_getElem? hk (by omega))
    · cases hk
  have := byteCount_pos between (by simp; omega)
  omega

theorem Holds.index_unique {i j : Nat} {d' : Decoded} (h : ∀ d ∈ b.instructions.dropLast, d.RunsOn)
    (hi : b.Holds i a d) (hj : b.Holds j a d') : i = j := by
  have bound : ∀ {k e}, b.Holds k a e → k < b.instructions.length := fun hk =>
    (List.getElem?_eq_some_iff.1 hk.1).1
  have same : byteCount (b.instructions.take i) = byteCount (b.instructions.take j) := by
    have := hi.2
    have := hj.2
    simp only [Spans] at *
    omega
  rcases Nat.lt_trichotomy i j with lt | eq | gt
  · have := byteCount_take_lt h lt (bound hj)
    omega
  · exact eq
  · have := byteCount_take_lt h gt (bound hi)
    omega

theorem holds_iff {i : Nat} : b.Holds i a d ↔
    ∃ before after, b.instructions = before ++ d :: after ∧ before.length = i ∧ Spans b.start before a := by
  constructor
  · rintro ⟨hd, hs⟩
    obtain ⟨hi, rfl⟩ := List.getElem?_eq_some_iff.1 hd
    refine ⟨b.instructions.take i, b.instructions.drop (i + 1), ?_, by simp; omega, hs⟩
    rw [← List.drop_eq_getElem_cons hi, List.take_append_drop]
  · rintro ⟨before, after, hb, rfl, hs⟩
    rw [Holds, hb]
    exact ⟨by simp, by simpa using hs⟩

theorem exists_holds {i : Nat} (hs : Spans b.start b.instructions stop) (hd : b.instructions[i]? = some d) :
    ∃ a, b.Holds i a d := by
  obtain ⟨a, ha⟩ := hs.take i
  exact ⟨a, hd, ha⟩

theorem has_iff : b.Has a d ↔
    ∃ before after, b.instructions = before ++ d :: after ∧ Spans b.start before a := by
  simp only [Has, holds_iff]
  constructor
  · rintro ⟨_, before, after, hb, -, hs⟩
    exact ⟨before, after, hb, hs⟩
  · rintro ⟨before, after, hb, hs⟩
    exact ⟨_, before, after, hb, rfl, hs⟩

theorem EndsWith.has (h : b.EndsWith a d) : b.Has a d := by
  obtain ⟨before, hb, hs⟩ := h
  exact has_iff.2 ⟨before, [], hb, hs⟩

theorem EndsWith.mem {e : Decoded} (h : b.EndsWith a d) (he : e ∈ b.instructions) :
    e ∈ b.instructions.dropLast ∨ e = d := by
  obtain ⟨before, hb, -⟩ := h
  rw [hb, List.dropLast_concat]
  simpa [hb] using he

theorem Holds.endsWith {i : Nat} (h : b.Holds i a d) (hl : i + 1 = b.instructions.length) :
    b.EndsWith a d := by
  obtain ⟨before, after, hb, rfl, hs⟩ := holds_iff.1 h
  rw [hb] at hl
  obtain rfl : after = [] := by simpa using hl
  exact ⟨before, hb, hs⟩

theorem EndsWith.holds (h : b.EndsWith a d) : ∃ i, b.Holds i a d ∧ i + 1 = b.instructions.length := by
  obtain ⟨before, hb, hs⟩ := h
  exact ⟨before.length, holds_iff.2 ⟨before, [], hb, rfl, hs⟩, by simp [hb]⟩

/-- An instruction that is not the first of its block lies right behind another one. -/
theorem Holds.exists_before {i : Nat} (h : b.Holds (i + 1) a d) : ∃ c e, b.Holds i c e ∧
    e ∈ b.instructions.dropLast ∧ Address.plus c e.size = .ok a := by
  obtain ⟨before, after, hb, hlen, hs⟩ := holds_iff.1 h
  have hne : before ≠ [] := List.ne_nil_of_length_eq_add_one hlen
  have hi := (List.dropLast_concat_getLast hne).symm
  generalize before.dropLast = init, before.getLast hne = e at hi
  subst hi
  obtain ⟨c, hc, hs⟩ := spans_append.1 hs
  obtain ⟨next, hn, hs⟩ := spans_cons.1 hs
  cases spans_nil.1 hs
  rw [List.append_assoc, List.singleton_append] at hb
  refine ⟨c, e, holds_iff.2 ⟨init, d :: after, hb, by simpa using hlen, hc⟩, ?_, hn⟩
  rw [hb, List.dropLast_append_of_ne_nil (by simp), List.dropLast_cons_of_ne_nil (by simp)]
  simp

theorem Has.endsWith (h : b.Has a d) (hd : d ∉ b.instructions.dropLast) : b.EndsWith a d := by
  obtain ⟨before, after, hb, hs⟩ := has_iff.1 h
  cases after with
  | nil => exact ⟨before, hb, hs⟩
  | cons e after =>
    refine absurd ?_ hd
    rw [hb, List.dropLast_append_of_ne_nil (by simp), List.dropLast_cons_of_ne_nil (by simp)]
    simp

theorem Has.mem (h : b.Has a d) : d ∈ b.instructions := by
  obtain ⟨before, after, hb, -⟩ := has_iff.1 h
  simp [hb]

theorem Has.ne_nil (h : b.Has a d) : b.instructions ≠ [] :=
  List.ne_nil_of_mem h.mem

theorem has_congr {b' : Block} (hs : b'.start = b.start) (hi : b'.instructions = b.instructions) :
    b'.Has a d ↔ b.Has a d := by
  simp only [has_iff, hs, hi]

theorem has_start (h : b.instructions ≠ []) : ∃ d, b.Has b.start d := by
  obtain ⟨d, rest, hb⟩ := List.exists_cons_of_ne_nil h
  exact ⟨d, has_iff.2 ⟨[], rest, hb, spans_nil.2 rfl⟩⟩

theorem exists_endsWith (h : b.instructions ≠ []) (hs : Spans b.start b.instructions stop) :
    ∃ a d, b.EndsWith a d := by
  have hb := (List.dropLast_concat_getLast h).symm
  rw [hb, spans_append] at hs
  obtain ⟨a, ha, -⟩ := hs
  exact ⟨a, _, b.instructions.dropLast, hb, ha⟩

/-- The instructions of a block in two parts are those of the one and those of the other. -/
theorem has_append {b₁ b₂ : Block} (hb : b.instructions = b₁.instructions ++ b₂.instructions)
    (h₁ : b₁.start = b.start) (h₂ : Spans b.start b₁.instructions b₂.start) :
    b.Has a d ↔ b₁.Has a d ∨ b₂.Has a d := by
  simp only [has_iff, hb, List.append_eq_append_iff, h₁]
  constructor
  · rintro ⟨before, after, ⟨as, rfl, ha⟩ | ⟨bs, hb₁, ha⟩, hs⟩
    · refine Or.inr ⟨as, after, ha, ?_⟩
      simp only [Spans, byteCount_append] at *
      omega
    · cases bs with
      | nil =>
        simp only [List.append_nil, List.nil_append] at hb₁ ha
        subst hb₁
        exact Or.inr ⟨[], after, ha.symm, spans_nil.2 (h₂.unique hs)⟩
      | cons e bs =>
        cases ha
        exact Or.inl ⟨before, bs, hb₁, hs⟩
  · intro hd
    rcases hd with ⟨before, after, hi, hs⟩ | ⟨before, after, hi, hs⟩
    · exact ⟨before, after ++ b₂.instructions, Or.inr ⟨d :: after, hi, rfl⟩, hs⟩
    · refine ⟨b₁.instructions ++ before, after, Or.inl ⟨before, rfl, hi⟩, ?_⟩
      simp only [Spans, byteCount_append] at *
      omega

/-- One more instruction at the end of a block adds its place and no other. -/
theorem has_concat {b' : Block} {t : Address} {e : Decoded} (hb : b'.instructions = b.instructions ++ [d])
    (h : b.start = b'.start) (hs : Spans b'.start b.instructions a) :
    b'.Has t e ↔ b.Has t e ∨ t = a ∧ e = d := by
  have parts : b'.Has t e ↔ b.Has t e ∨ Has { openedAt a with instructions := [d] } t e :=
    has_append hb h hs
  rw [parts]
  refine or_congr_right ?_
  simp only [has_iff, openedAt]
  constructor
  · rintro ⟨before, after, hi, ht⟩
    cases before with
    | nil =>
      cases hi
      exact ⟨(spans_nil.1 ht).symm, rfl⟩
    | cons _ _ => simp at hi
  · rintro ⟨rfl, rfl⟩
    exact ⟨[], [], rfl, spans_nil.2 rfl⟩

theorem Has.le (h : b.Has a d) : b.start.toNat ≤ a.toNat := by
  obtain ⟨before, after, -, hs⟩ := has_iff.1 h
  simp only [Spans] at hs
  omega

theorem Has.lt (h : b.Has a d) (hr : ∀ d ∈ b.instructions, d.RunsOn)
    (hs : Spans b.start b.instructions stop) : a.toNat < stop.toNat := by
  obtain ⟨before, after, hb, ha⟩ := has_iff.1 h
  have : 0 < byteCount (d :: after) :=
    byteCount_pos (fun e he => hr e (by simp [hb, List.mem_cons.1 he])) (by simp)
  rw [hb] at hs
  simp only [Spans, byteCount_append] at *
  omega

theorem Has.exists_behind (h : b.Has a d) (hs : Spans b.start b.instructions stop) :
    ∃ next, Address.plus a d.size = .ok next := by
  obtain ⟨before, after, hb, ha⟩ := has_iff.1 h
  rw [hb, spans_append] at hs
  obtain ⟨mid, hm, hs⟩ := hs
  obtain rfl := ha.unique hm
  obtain ⟨next, hn, -⟩ := spans_cons.1 hs
  exact ⟨next, hn⟩

theorem Holds.unique {i : Nat} {d' : Decoded} {a' : Address} (h : b.Holds i a d)
    (h' : b.Holds i a' d') : a = a' ∧ d = d' :=
  ⟨h.2.unique h'.2, Option.some.inj (h.1.symm.trans h'.1)⟩

/-! ### What a block computes -/

/-- The bytes of a block are counted by one checked addition after the other. -/
theorem foldlM_plus_eq_ok :
    ds.foldlM (fun n d => Address.plus n d.size) start = .ok stop ↔ Spans start ds stop := by
  induction ds generalizing start with
  | nil => simp
  | cons d rest ih =>
    rw [List.foldlM_cons, bind_eq_ok, spans_cons]
    simp only [ih]

theorem endAddress_eq_ok : b.endAddress = .ok stop ↔ Spans b.start b.instructions stop := by
  rw [endAddress, byteLength, bind_eq_ok]
  simp only [foldlM_plus_eq_ok, Address.plus_eq_ok, Spans]
  constructor
  · rintro ⟨n, hn, h⟩
    simp at hn
    omega
  · intro h
    obtain ⟨n, hn⟩ := Address.exists_of_le (b := stop) (n := byteCount b.instructions) (by omega)
    exact ⟨n, by simp [hn], by omega⟩

theorem exists_place (h : Spans start ds stop) : ∃ ps, place start ds = .ok ps := by
  induction ds generalizing start with
  | nil => exact ⟨[], rfl⟩
  | cons d rest ih =>
    obtain ⟨next, hn, hs⟩ := spans_cons.1 h
    obtain ⟨ps, hp⟩ := ih hs
    exact ⟨(start, d) :: ps, bind_eq_ok.2 ⟨next, hn, bind_eq_ok.2 ⟨ps, hp, rfl⟩⟩⟩

theorem getElem?_place {ps : List (Address × Decoded)} (h : place start ds = .ok ps) {i : Nat} :
    ps[i]? = some (a, d) ↔ ds[i]? = some d ∧ Spans start (ds.take i) a := by
  induction ds generalizing start ps i with
  | nil =>
    cases h
    simp
  | cons e rest ih =>
    obtain ⟨next, hn, h⟩ := bind_eq_ok.1 h
    obtain ⟨qs, hq, h⟩ := bind_eq_ok.1 h
    cases h
    cases i with
    | zero =>
      simp only [List.getElem?_cons_zero, Option.some.injEq, Prod.mk.injEq, List.take_zero, spans_nil]
      exact and_comm
    | succ i =>
      simp only [List.getElem?_cons_succ, ih hq, List.take_succ_cons, spans_cons, hn,
        Except.ok.injEq, exists_eq_left']

theorem mem_placed {ps : List (Address × Decoded)} (h : b.placed = .ok ps) :
    (a, d) ∈ ps ↔ b.Has a d := by
  simp only [List.mem_iff_getElem?, getElem?_place h, Has, Holds]

theorem indexFrom_of_place {i : Nat} (hs : Spans start ds stop) (hr : ∀ d ∈ ds.dropLast, d.RunsOn)
    (hd : ds[i]? = some d) (ha : Spans start (ds.take i) a) :
    indexFrom start a ds = .ok (some i) := by
  induction ds generalizing start i with
  | nil => cases hd
  | cons e rest ih =>
    obtain ⟨next, hn, hs⟩ := spans_cons.1 hs
    rw [indexFrom]
    refine bind_eq_ok.2 ⟨next, hn, ?_⟩
    cases i with
    | zero => simp [spans_nil.1 ha, pure, Except.pure]
    | succ i =>
      obtain ⟨next', hn', ha⟩ := spans_cons.1 ha
      obtain rfl : next = next' := Except.ok.inj (hn.symm.trans hn')
      have hne : rest ≠ [] := by
        rintro rfl
        cases hd
      have sized := (hr e (by simp [List.dropLast_cons_of_ne_nil hne])).sized
      have apart : start ≠ a := by
        rintro rfl
        have := Address.plus_eq_ok.1 hn
        have : e.size.toNat ≠ 0 := fun h => sized (UInt64.toNat_inj.1 h)
        simp only [Spans] at ha
        omega
      rw [if_neg apart]
      refine bind_eq_ok.2 ⟨some i, ih hs (fun d h => hr d ?_) hd ha, rfl⟩
      rw [List.dropLast_cons_of_ne_nil hne]
      exact List.mem_cons_of_mem _ h

/-- A cut is found where an index is. -/
theorem cutFrom_of_indexFrom {i : Nat} (h : indexFrom start a ds = .ok (some i)) :
    cutFrom start a ds = .ok (some (ds.take i, ds.drop i)) := by
  induction ds generalizing start i with
  | nil => cases h
  | cons e rest ih =>
    obtain ⟨next, hn, h⟩ := bind_eq_ok.1 h
    rw [cutFrom]
    split at h
    next found =>
      cases h
      exact if_pos found
    next apart =>
      obtain ⟨j?, hj, h⟩ := bind_eq_ok.1 h
      rw [pure_eq_ok, Option.map_eq_some_iff] at h
      obtain ⟨j, rfl, rfl⟩ := h
      rw [if_neg apart]
      exact bind_eq_ok.2 ⟨next, hn, bind_eq_ok.2 ⟨_, ih hj, rfl⟩⟩

theorem cutFrom_eq_some {before after : List Decoded}
    (h : cutFrom start a ds = .ok (some (before, after))) :
    ds = before ++ after ∧ Spans start before a ∧ after ≠ [] := by
  induction ds generalizing start before with
  | nil => cases h
  | cons e rest ih =>
    rw [cutFrom] at h
    split at h
    next found =>
      cases h
      exact ⟨rfl, spans_nil.2 found, by simp⟩
    · obtain ⟨next, hn, h⟩ := bind_eq_ok.1 h
      obtain ⟨r, hr, h⟩ := bind_eq_ok.1 h
      cases r with
      | none => cases h
      | some cut =>
        cases h
        obtain ⟨hd, hs, hne⟩ := ih hr
        exact ⟨by simp [hd], spans_cons.2 ⟨next, hn, hs⟩, hne⟩

end Block

end ReachableCode
