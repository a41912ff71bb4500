import ReachableCode.Memory.Program
import ReachableCode.Success

/-!
Looking for the section that maps an address. Counted without end, a section covers the addresses from its
base on, as many as it maps, and the first section that covers an address decides: it is what is found, if
it ends within the address range, and else looking is given up. A change made there changes that section
alone and none of the extents, so that what is found later is found in the same places.
-/

namespace ReachableCode

/-- A range of addresses, which may go on past the last one. -/
structure Extent where
  start : Nat
  size : Nat
  deriving DecidableEq

namespace Extent

def Covers (e : Extent) (a : Nat) : Prop :=
  e.start ≤ a ∧ a < e.start + e.size

/-- The end of the range is no address. -/
def Wraps (e : Extent) : Prop :=
  Address.count ≤ e.start + e.size

instance (e : Extent) (a : Nat) : Decidable (e.Covers a) :=
  inferInstanceAs (Decidable (_ ∧ _))

instance (e : Extent) : Decidable e.Wraps :=
  inferInstanceAs (Decidable (_ ≤ _))

end Extent

/-- Of the ranges that cover the address, the end of the first one is no address. -/
def WrapsAt (es : List Extent) (a : Nat) : Prop :=
  ∃ e, es.find? (fun e => e.Covers a) = some e ∧ e.Wraps

def Section.extent (s : Section) : Extent where
  start := s.base.toNat
  size := s.mappedSize.toNat

def Program.extents (p : Program) : List Extent :=
  p.sections.map Section.extent

/-- The section maps the byte at an offset, and its end is an address. -/
def Section.Maps (s : Section) (offset : Offset) : Prop :=
  offset < s.mappedSize ∧ ¬s.extent.Wraps

variable {p q : Program} {s : Section} {ss ts before after : List Section} {a : Address}
  {f : Offset → Section → Section}

/-! ### The larger and the smaller of two addresses -/

theorem Address.toNat_max (m n : Address) : (max m n).toNat = max m.toNat n.toNat := by
  show (if m ≤ n then n else m).toNat = if m.toNat ≤ n.toNat then n.toNat else m.toNat
  simp only [UInt64.le_iff_toNat_le]
  split <;> rfl

theorem Address.toNat_min (m n : Address) : (min m n).toNat = min m.toNat n.toNat := by
  show (if m ≤ n then m else n).toNat = if m.toNat ≤ n.toNat then m.toNat else n.toNat
  simp only [UInt64.le_iff_toNat_le]
  split <;> rfl

/-! ### One section -/

/-- Nothing past a section that wraps is an address, so it covers every address from its base on. -/
theorem Section.contains_eq (s : Section) (a : Address) : s.contains a =
    if s.extent.Covers a.toNat then if s.extent.Wraps then .error .addOverflow else .ok true
    else .ok false := by
  have small : a.toNat < Address.count := a.toNat_lt
  rw [contains, endAddress, Address.plus]
  by_cases below : a < s.base
  · have outside : ¬s.extent.Covers a.toNat := fun h => by
      have := UInt64.lt_iff_toNat_lt.1 below
      have : s.base.toNat ≤ a.toNat := h.1
      omega
    rw [if_pos below, if_neg outside]
  rw [if_neg below]
  rw [UInt64.not_lt, UInt64.le_iff_toNat_le] at below
  by_cases fits : s.base.toNat + s.mappedSize.toNat < Address.count
  · have sum : (s.base + s.mappedSize).toNat = s.base.toNat + s.mappedSize.toNat := by
      rw [UInt64.toNat_add]
      exact Nat.mod_eq_of_lt fits
    have bounded : ¬s.extent.Wraps := Nat.not_le.2 fits
    rw [if_pos fits, if_neg bounded]
    show Except.ok (decide (a < s.base + s.mappedSize)) = _
    rw [show decide (a < s.base + s.mappedSize) = decide (s.extent.Covers a.toNat) from
      decide_eq_decide.2 (by
        rw [UInt64.lt_iff_toNat_lt, sum]
        exact ⟨fun h => ⟨below, h⟩, fun h => h.2⟩)]
    split <;> simp_all
  · have covered : s.extent.Covers a.toNat :=
      ⟨below, Nat.lt_of_lt_of_le small (Nat.not_lt.1 fits)⟩
    rw [if_neg fits, if_pos covered, if_pos (show s.extent.Wraps from Nat.not_lt.1 fits)]
    rfl

/-- The offset of a covered address is that of a mapped byte. -/
theorem Section.maps_sub (covered : s.extent.Covers a.toNat) (fits : ¬s.extent.Wraps) :
    s.Maps (a - s.base) := by
  obtain ⟨above, below⟩ := covered
  have diff : (a - s.base).toNat = a.toNat - s.base.toNat :=
    UInt64.toNat_sub_of_le _ _ (UInt64.le_iff_toNat_le.2 above)
  refine ⟨?_, fits⟩
  rw [UInt64.lt_iff_toNat_lt, diff]
  simp only [extent] at above below
  omega

/-- A covered address is its offset behind the base. -/
theorem Section.plus_sub (covered : s.extent.Covers a.toNat) : Address.plus s.base (a - s.base) = .ok a := by
  have above : s.base ≤ a := UInt64.le_iff_toNat_le.2 covered.1
  have sum : s.base.toNat + (a - s.base).toNat = a.toNat := by
    rw [UInt64.toNat_sub_of_le _ _ above]
    exact Nat.add_sub_cancel' covered.1
  rw [Address.plus, if_pos (sum ▸ a.toNat_lt)]
  exact congrArg _ (UInt64.toNat_inj.1 (by rw [UInt64.toNat_add, sum, Nat.mod_eq_of_lt a.toNat_lt]))

/-! ### Looking for a section -/

instance (es : List Extent) (a : Nat) : Decidable (WrapsAt es a) :=
  decidable_of_iff ((es.find? fun e => e.Covers a).any fun e => e.Wraps) 
    (by simp [WrapsAt, Option.any_eq_true])

theorem wrapsAt_cons {e : Extent} {es : List Extent} {n : Nat} :
    WrapsAt (e :: es) n ↔ if e.Covers n then e.Wraps else WrapsAt es n := by
  by_cases covered : e.Covers n <;> simp [WrapsAt, covered]

theorem not_wrapsAt_nil {n : Nat} : ¬WrapsAt [] n :=
  fun ⟨_, found, _⟩ => nomatch found

namespace Program

theorem firstMapping_cons : firstMapping a (s :: ss) =
    if s.extent.Covers a.toNat then if s.extent.Wraps then .error .addOverflow else .ok (some s)
    else firstMapping a ss := by
  rw [firstMapping, s.contains_eq]
  by_cases covered : s.extent.Covers a.toNat
  · by_cases wraps : s.extent.Wraps <;> simp [covered, wraps, bind, Except.bind, pure, Except.pure]
  · simp [covered, bind, Except.bind]

theorem firstMapping_of_split (uncovered : ∀ u ∈ before, ¬u.extent.Covers a.toNat)
    (covered : s.extent.Covers a.toNat) (fits : ¬s.extent.Wraps) :
    firstMapping a (before ++ s :: after) = .ok (some s) := by
  induction before with
  | nil => rw [List.nil_append, firstMapping_cons, if_pos covered, if_neg fits]
  | cons u rest ih =>
    obtain ⟨hu, uncovered⟩ := List.forall_mem_cons.1 uncovered
    rw [List.cons_append, firstMapping_cons, if_neg hu, ih uncovered]

/-- The section found is the first one that covers the address. -/
theorem split_of_firstMapping (h : firstMapping a ss = .ok (some s)) :
    ∃ before after, ss = before ++ s :: after ∧ (∀ u ∈ before, ¬u.extent.Covers a.toNat) ∧
      s.extent.Covers a.toNat ∧ ¬s.extent.Wraps := by
  induction ss with
  | nil => cases h
  | cons u rest ih =>
    rw [firstMapping_cons] at h
    by_cases covered : u.extent.Covers a.toNat
    · by_cases wraps : u.extent.Wraps
      · rw [if_pos covered, if_pos wraps] at h
        cases h
      · rw [if_pos covered, if_neg wraps] at h
        cases h
        exact ⟨[], rest, rfl, nofun, covered, wraps⟩
    · rw [if_neg covered] at h
      obtain ⟨before, after, rfl, uncovered, hs, fits⟩ := ih h
      exact ⟨u :: before, after, rfl, List.forall_mem_cons.2 ⟨covered, uncovered⟩, hs, fits⟩

theorem stopsIff_firstMapping :
    StopsIff (WrapsAt (ss.map Section.extent) a.toNat) (fun _ => True) (firstMapping a ss) := by
  induction ss with
  | nil => exact ⟨not_wrapsAt_nil, trivial⟩
  | cons s rest ih =>
    rw [firstMapping_cons, List.map_cons, wrapsAt_cons]
    by_cases covered : s.extent.Covers a.toNat
    · by_cases wraps : s.extent.Wraps <;> simp [covered, wraps, StopsIff]
    · simpa only [if_neg covered] using ih

theorem updateMapping_cons : updateMapping a f (s :: ss) =
    if s.extent.Covers a.toNat then
      if s.extent.Wraps then .error .addOverflow else .ok (f (a - s.base) s :: ss)
    else do return s :: (← updateMapping a f ss) := by
  rw [updateMapping, s.contains_eq]
  by_cases covered : s.extent.Covers a.toNat
  · by_cases wraps : s.extent.Wraps <;> simp [covered, wraps, bind, Except.bind, pure, Except.pure]
  · simp [covered, bind, Except.bind]

theorem updateMapping_of_split (uncovered : ∀ u ∈ before, ¬u.extent.Covers a.toNat)
    (covered : s.extent.Covers a.toNat) (fits : ¬s.extent.Wraps) :
    updateMapping a f (before ++ s :: after) = .ok (before ++ f (a - s.base) s :: after) := by
  induction before with
  | nil => rw [List.nil_append, updateMapping_cons, if_pos covered, if_neg fits, List.nil_append]
  | cons u rest ih =>
    obtain ⟨hu, uncovered⟩ := List.forall_mem_cons.1 uncovered
    rw [List.cons_append, updateMapping_cons, if_neg hu, ih uncovered]
    rfl

/-- A change is made in the first section that covers the address, or nowhere if there is none. -/
theorem updateMapping_cases (h : updateMapping a f ss = .ok ts) :
    ((∀ u ∈ ss, ¬u.extent.Covers a.toNat) ∧ ts = ss) ∨
      ∃ before s after, ss = before ++ s :: after ∧ (∀ u ∈ before, ¬u.extent.Covers a.toNat) ∧
        s.extent.Covers a.toNat ∧ ¬s.extent.Wraps ∧ ts = before ++ f (a - s.base) s :: after := by
  induction ss generalizing ts with
  | nil =>
    cases h
    exact Or.inl ⟨nofun, rfl⟩
  | cons s rest ih =>
    rw [updateMapping_cons] at h
    by_cases covered : s.extent.Covers a.toNat
    · by_cases wraps : s.extent.Wraps
      · rw [if_pos covered, if_pos wraps] at h
        cases h
      · rw [if_pos covered, if_neg wraps] at h
        cases h
        exact Or.inr ⟨[], s, rest, rfl, nofun, covered, wraps, rfl⟩
    · rw [if_neg covered] at h
      obtain ⟨us, hu, h⟩ := bind_eq_ok.1 h
      cases h
      rcases ih hu with ⟨uncovered, rfl⟩ | ⟨before, t, after, rfl, uncovered, ht, fits, rfl⟩
      · exact Or.inl ⟨List.forall_mem_cons.2 ⟨covered, uncovered⟩, rfl⟩
      · exact Or.inr
          ⟨s :: before, t, after, rfl, List.forall_mem_cons.2 ⟨covered, uncovered⟩, ht, fits, rfl⟩

/-- What holds of every section and is kept by a change where a section maps its offset holds of every section
afterwards. -/
theorem forall_updateAt {holds : Section → Prop} (hp : ∀ s ∈ p.sections, holds s)
    (keeps : ∀ offset s, holds s → s.Maps offset → holds (f offset s)) (h : p.updateAt a f = .ok q) :
    ∀ s ∈ q.sections, holds s := by
  obtain ⟨ts, ht, h⟩ := bind_eq_ok.1 h
  cases h
  rcases updateMapping_cases ht with ⟨-, same⟩ | ⟨before, s, after, old, -, covered, fits, new⟩
  · exact same ▸ hp
  · simp only [old, List.forall_mem_append, List.forall_mem_cons] at hp
    simp only [new, List.forall_mem_append, List.forall_mem_cons]
    obtain ⟨hb, hs, ha⟩ := hp
    exact ⟨hb, keeps _ _ hs (Section.maps_sub covered fits), ha⟩

end Program

end ReachableCode
