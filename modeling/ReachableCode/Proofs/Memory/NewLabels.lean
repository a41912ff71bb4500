import ReachableCode.Proofs.Memory.Labels
import ReachableCode.Proofs.Memory.Mapping

/-!
Making labels. A label made for an address goes into the section that maps the address, in place of one that
has its name there. Lookup takes the first section that exports a name, so a section before that one hides the
label where it exports the name as well, and the label itself hides those of its name in the sections behind.
-/

namespace ReachableCode

variable {p q : Program} {s : Section} {ss before after : List Section} {a : Address} {offset : Offset}
  {stem l m : String}

/-! ### One section -/

theorem Section.labelSum?_of_mem_labelsAt (covered : s.extent.Covers a.toNat) (h : m ∈ s.labelsAt (a - s.base)) :
    s.labelSum? m = some (.ok a) := by
  rw [labelSum?, mem_labelsAt.1 h, Option.map_some, plus_sub covered]

theorem Section.labelSum?_withLabel (covered : s.extent.Covers a.toNat) :
    (s.withLabel l (a - s.base)).labelSum? m = if m = l then some (.ok a) else s.labelSum? m := by
  show ((s.exports.insert l (a - s.base))[m]?).map (Address.plus s.base) = _
  rw [Std.ExtTreeMap.getElem?_insert]
  by_cases same : m = l
  · simp [same, plus_sub covered]
  · simp [same, Ne.symm same, labelSum?]

/-- A label put where there is none is the one that is found there. -/
theorem Section.labelsAt_withLabel (free : s.labelsAt offset = []) :
    ∃ others, (s.withLabel l offset).labelsAt offset = l :: others := by
  have mem (m : String) : m ∈ (s.withLabel l offset).labelsAt offset ↔ m = l := by
    have absent : s.exports[m]? ≠ some offset := fun h => by
      have := mem_labelsAt.2 h
      rw [free] at this
      cases this
    rw [mem_labelsAt, withLabel, Std.ExtTreeMap.getElem?_insert]
    by_cases same : m = l
    · simp [same]
    · simp [same, Ne.symm same, absent]
  cases h : (s.withLabel l offset).labelsAt offset with
  | nil => exact absurd ((mem l).2 rfl) (by simp [h])
  | cons first others => exact ⟨others, by rw [(mem first).1 (by simp [h])]⟩

namespace Program

/-- Lookup after `l` was put at the address, in the first section that covers it. -/
theorem labelAddress_withLabel (hp : p.sections = before ++ s :: after) (covered : s.extent.Covers a.toNat)
    (hq : q.sections = before ++ s.withLabel l (a - s.base) :: after) :
    q.labelAddress m = if m = l ∧ ∀ u ∈ before, l ∉ u.exports then .ok (some a) else p.labelAddress m := by
  have put := Section.labelSum?_withLabel (l := l) (m := m) covered
  by_cases same : m = l
  · subst same
    by_cases first : ∀ u ∈ before, m ∉ u.exports
    · rw [if_pos ⟨rfl, first⟩]
      rw [if_pos rfl] at put
      exact labelAddress_of_first hq first put
    · rw [if_neg fun h => first h.2]
      exact labelAddress_of_hidden hp hq first
  · rw [if_neg same] at put
    rw [if_neg fun h => same h.1, labelAddress_eq, labelAddress_eq, hp, hq, List.findSome?_append,
      List.findSome?_append, List.findSome?_cons, List.findSome?_cons, put]

/-! ### The label made -/

/-- A label is taken from the first section that covers the address or, if there is none at it, put there. -/
theorem labelFor_cases (h : p.labelFor a stem = .ok (some (l, q))) :
    ∃ before s after, p.sections = before ++ s :: after ∧ (∀ u ∈ before, ¬u.extent.Covers a.toNat) ∧
      s.extent.Covers a.toNat ∧ ¬s.extent.Wraps ∧
        ((∃ others, s.labelsAt (a - s.base) = l :: others) ∧ q = p ∨
          s.labelsAt (a - s.base) = [] ∧ l = stem ++ "_" ++ Hex.digits a.toNat ∧
            q = { p with sections := before ++ s.withLabel l (a - s.base) :: after }) := by
  obtain ⟨s?, hs, h⟩ := bind_eq_ok.1 h
  cases s? with
  | none => cases h
  | some s =>
    obtain ⟨before, after, hp, uncovered, covered, fits⟩ := split_of_firstMapping hs
    refine ⟨before, s, after, hp, uncovered, covered, fits, ?_⟩
    cases hl : s.labelsAt (a - s.base) with
    | cons first others =>
      simp only [hl] at h
      cases h
      exact Or.inl ⟨⟨others, rfl⟩, rfl⟩
    | nil =>
      simp only [hl] at h
      obtain ⟨q', hq, h⟩ := bind_eq_ok.1 h
      cases h
      obtain ⟨ts, ht, hq⟩ := bind_eq_ok.1 hq
      cases hq
      rw [hp, updateMapping_of_split uncovered covered fits] at ht
      cases ht
      exact Or.inr ⟨rfl, rfl, rfl⟩

theorem labelFor_of_labelsAt {others : List String} (hp : p.sections = before ++ s :: after)
    (uncovered : ∀ u ∈ before, ¬u.extent.Covers a.toNat) (covered : s.extent.Covers a.toNat) (fits : ¬s.extent.Wraps)
    (hl : s.labelsAt (a - s.base) = l :: others) : p.labelFor a stem = .ok (some (l, p)) := by
  have found : p.sectionAt a = .ok (some s) := by
    rw [sectionAt, hp, firstMapping_of_split uncovered covered fits]
  refine bind_eq_ok.2 ⟨some s, found, ?_⟩
  simp only [hl]
  rfl

/-- The label that is made stands where it should in the first section that covers the address; it is put there
only if there is none, nothing else is changed, and making one again finds it. Lookup finds it there unless an
earlier section exports the name, and then what it finds stays as it was. So the label can be used just if no
earlier section exports it or the address was found for it already, and just if lookup finds another address for
it, and finds it in no earlier section, a label is moved. -/
theorem made_label_is_found_unless_hidden (h : p.labelFor a stem = .ok (some (l, q))) :
    ∃ before s after, p.sections = before ++ s :: after ∧ (∀ u ∈ before, ¬u.extent.Covers a.toNat) ∧
      s.extent.Covers a.toNat ∧
      (l ∈ s.labelsAt (a - s.base) ∧ q = p ∨
        s.labelsAt (a - s.base) = [] ∧ l = stem ++ "_" ++ Hex.digits a.toNat ∧
          q = { p with sections := before ++ s.withLabel l (a - s.base) :: after }) ∧
      (∀ stem', q.labelFor a stem' = .ok (some (l, q))) ∧
      (∀ m, q.labelAddress m = if m = l ∧ ∀ u ∈ before, l ∉ u.exports then .ok (some a) else p.labelAddress m) ∧
      (q.labelAddress l = .ok (some a) ↔ (∀ u ∈ before, l ∉ u.exports) ∨ p.labelAddress l = .ok (some a)) ∧
      ((∀ m b, p.labelAddress m = .ok (some b) → q.labelAddress m = .ok (some b)) ↔
        (∃ u ∈ before, l ∈ u.exports) ∨ ∀ b, p.labelAddress l = .ok (some b) → b = a) := by
  obtain ⟨before, s, after, hp, uncovered, covered, fits, made⟩ := labelFor_cases h
  have again (stem' : String) : q.labelFor a stem' = .ok (some (l, q)) := by
    rcases made with ⟨⟨others, hl⟩, rfl⟩ | ⟨free, -, rfl⟩
    · exact labelFor_of_labelsAt hp uncovered covered fits hl
    · obtain ⟨others, hl⟩ := Section.labelsAt_withLabel free (l := l)
      exact labelFor_of_labelsAt (s := s.withLabel l (a - s.base)) rfl uncovered covered fits hl
  have found (m : String) : q.labelAddress m =
      if m = l ∧ ∀ u ∈ before, l ∉ u.exports then .ok (some a) else p.labelAddress m := by
    rcases made with ⟨⟨others, hl⟩, rfl⟩ | ⟨-, -, rfl⟩
    · split
      next first =>
        obtain ⟨rfl, first⟩ := first
        exact labelAddress_of_first hp first (Section.labelSum?_of_mem_labelsAt covered (hl ▸ List.mem_cons_self))
      · rfl
    · exact labelAddress_withLabel hp covered rfl
  refine ⟨before, s, after, hp, uncovered, covered, ?_, again, found, ?_, ?_⟩
  · rcases made with ⟨⟨others, hl⟩, same⟩ | made
    · exact Or.inl ⟨hl ▸ List.mem_cons_self, same⟩
    · exact Or.inr made
  · by_cases first : ∀ u ∈ before, l ∉ u.exports
    · exact iff_of_true (by rw [found, if_pos ⟨rfl, first⟩]) (Or.inl first)
    · rw [found, if_neg fun h => first h.2]
      exact (or_iff_right first).symm
  · by_cases first : ∀ u ∈ before, l ∉ u.exports
    · constructor
      · intro kept
        refine Or.inr fun b hb => ?_
        have moved := kept l b hb
        rw [found, if_pos ⟨rfl, first⟩] at moved
        cases moved
        rfl
      · rintro (⟨u, hu, hidden⟩ | only) m b hb
        · exact absurd hidden (first u hu)
        · rw [found]
          split
          next here => rw [only b (here.1 ▸ hb)]
          · exact hb
    · refine iff_of_true (fun m b hb => ?_) (Or.inl (by simpa using first))
      rw [found, if_neg fun h => first h.2]
      exact hb

/-- A section with a label that is named after an address where it is not. -/
def misnaming : Section :=
  ((Section.ofData ".text" 0x1000 (.replicate 16 0)).withLabel "start" 0).withLabel "loc_1002" 5

/-- A section with a label of the same name. -/
def starting : Section :=
  (Section.ofData ".data" 0x2000 (.replicate 16 0)).withLabel "start" 0

def twoStarts : Program :=
  { empty .unknown with sections := [misnaming, starting] }

theorem made_label_in_second_section : ∃ q, twoStarts.labelFor 0x2001 "loc" = .ok (some ("loc_2001", q)) ∧
    q.labelAddress "loc_2001" = .ok (some 0x2001) ∧
      ∀ m b, twoStarts.labelAddress m = .ok (some b) → q.labelAddress m = .ok (some b) := by
  have made : twoStarts.labelFor 0x2001 "loc" =
      .ok (some ("loc_2001", { twoStarts with sections := [misnaming, starting.withLabel "loc_2001" 1] })) := by
    with_unfolding_all rfl
  obtain ⟨before, s, after, hp, -, -, -, -, -, usable, kept⟩ := made_label_is_found_unless_hidden made
  have nowhere : ∀ u ∈ twoStarts.sections, "loc_2001" ∉ u.exports := by decide
  have unknown : twoStarts.labelAddress "loc_2001" = .ok none := rfl
  refine ⟨_, made, usable.2 (Or.inl fun u hu => nowhere u (hp ▸ List.mem_append_left _ hu)), kept.2 (Or.inr ?_)⟩
  intro b hb
  cases unknown.symm.trans hb

/-- The label that is found at an address is looked up in another section, and one that is made takes the place of
one of its name. -/
theorem made_label_elsewhere : twoStarts.labelFor 0x2000 "loc" = .ok (some ("start", twoStarts)) ∧
    twoStarts.labelAddress "start" = .ok (some 0x1000) ∧
      ∃ q, twoStarts.labelFor 0x1002 "loc" = .ok (some ("loc_1002", q)) ∧
        twoStarts.labelAddress "loc_1002" = .ok (some 0x1005) ∧ q.labelAddress "loc_1002" = .ok (some 0x1002) :=
  ⟨rfl, rfl, { twoStarts with sections := [misnaming.withLabel "loc_1002" 2, starting] },
    by with_unfolding_all rfl, rfl, rfl⟩

end Program

end ReachableCode
