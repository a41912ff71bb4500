import ReachableCode.Proofs.Memory.Lookup
import Std.Data.DTreeMap.Internal.WF.Lemmas

/-!
Looking for labels. A label lies some bytes after the base of the section that exports it. Where that is
an address for each label of each section, looking for labels always comes to a result.
-/

namespace ReachableCode

/-- The values of a table are those of its entries. -/
theorem values_eq_map_toList {α β : Type} {cmp : α → α → Ordering} [Std.TransCmp cmp]
    (table : Std.ExtTreeMap α β cmp) : table.values = table.toList.map (·.2) := by
  have collect : ∀ l : List ((_ : α) × β), l.foldr (fun x values => x.2 :: values) [] = l.map (·.2) := by
    intro l
    induction l with
    | nil => rfl
    | cons x rest ih => rw [List.foldr_cons, ih, List.map_cons]
  obtain ⟨table⟩ := table
  refine Std.ExtDTreeMap.inductionOn table fun table => ?_
  show table.inner.values = (Std.DTreeMap.Internal.Impl.Const.toList table.inner).map (·.2)
  rw [Std.DTreeMap.Internal.Impl.values, Std.DTreeMap.Internal.Impl.foldr_eq_foldr, collect,
    Std.DTreeMap.Internal.Impl.Const.toList_eq_toListModel_map, List.map_map]
  rfl

theorem Address.exists_plus {a n : Address} (h : a.toNat + n.toNat < count) : ∃ b, plus a n = .ok b :=
  ⟨a + n, by rw [plus, if_pos h]⟩

/-- The sum that is the address of the section's label of that name. -/
def Section.labelSum? (s : Section) (label : String) : Option (Except Fault Address) :=
  s.exports[label]?.map (Address.plus s.base)

/-- Every label of the section lies at an address. -/
def Section.PlacesLabels (s : Section) : Prop :=
  ∀ (label : String) (offset : Offset), s.exports[label]? = some offset →
    s.base.toNat + offset.toNat < Address.count

/-- The section exports a label that lies at the address. -/
def Section.HasLabelAt (s : Section) (a : Address) : Prop :=
  ∃ (label : String) (offset : Offset), s.exports[label]? = some offset ∧ Address.plus s.base offset = .ok a

/-- A section exports a label that lies at the address, whichever section maps it. -/
def Program.HasLabelAt (p : Program) (a : Address) : Prop :=
  ∃ s ∈ p.sections, s.HasLabelAt a

variable {p q : Program} {s : Section} {ss before after : List Section} {label : String} {offset : Offset}
  {a : Address} {as : List Address}

namespace Section

theorem mem_labelsAt : label ∈ s.labelsAt offset ↔ s.exports[label]? = some offset := by
  rw [labelsAt, List.mem_map, ← Std.ExtTreeMap.mem_toList_iff_getElem?_eq_some]
  constructor
  · rintro ⟨⟨label, o⟩, ho, rfl⟩
    obtain ⟨mem, here⟩ := List.mem_filter.1 ho
    obtain rfl : o = offset := of_decide_eq_true here
    exact mem
  · exact fun mem => ⟨(label, offset), List.mem_filter.2 ⟨mem, decide_eq_true rfl⟩, rfl⟩

theorem labelSum?_eq_none_iff : s.labelSum? label = none ↔ label ∉ s.exports := by
  rw [labelSum?, Option.map_eq_none_iff, getElem?_eq_none_iff]

theorem mem_exports_values : offset ∈ s.exports.values ↔ ∃ label : String, s.exports[label]? = some offset := by
  rw [values_eq_map_toList, List.mem_map]
  constructor
  · rintro ⟨⟨label, offset⟩, ho, rfl⟩
    exact ⟨label, Std.ExtTreeMap.mem_toList_iff_getElem?_eq_some.1 ho⟩
  · rintro ⟨label, ho⟩
    exact ⟨(label, offset), Std.ExtTreeMap.mem_toList_iff_getElem?_eq_some.2 ho, rfl⟩

theorem PlacesLabels.exists_labelAddresses (hs : s.PlacesLabels) : ∃ as, s.labelAddresses = .ok as := by
  refine exists_mapM_eq_ok fun offset ho => Address.exists_plus ?_
  obtain ⟨label, ho⟩ := mem_exports_values.1 ho
  exact hs label offset ho

/-- Looking for labels finds each of them. -/
theorem exists_address_of_label (h : s.labelAddresses = .ok as) (ho : s.exports[label]? = some offset) :
    ∃ a ∈ as, Address.plus s.base offset = .ok a :=
  (mem_of_mapM_eq_ok h).1 offset (mem_exports_values.2 ⟨label, ho⟩)

theorem mem_labelAddresses (h : s.labelAddresses = .ok as) : a ∈ as ↔ s.HasLabelAt a := by
  constructor
  · intro ha
    obtain ⟨offset, ho, hp⟩ := (mem_of_mapM_eq_ok h).2 a ha
    obtain ⟨label, ho⟩ := mem_exports_values.1 ho
    exact ⟨label, offset, ho, hp⟩
  · rintro ⟨label, offset, ho, hp⟩
    obtain ⟨b, hb, hp'⟩ := exists_address_of_label h ho
    cases hp.symm.trans hp'
    exact hb

end Section

namespace Program

theorem labelPlace_eq_findSome? :
    p.labelPlace label = p.sections.findSome? fun s => s.exports[label]?.map (s, ·) := by
  rw [labelPlace, exporter?]
  induction p.sections with
  | nil => rfl
  | cons s rest ih =>
    rw [List.find?_cons, List.findSome?_cons, Std.ExtTreeMap.contains_eq_isSome_getElem?]
    cases h : s.exports[label]? with
    | none => exact ih
    | some offset => simp [h]

theorem labelAddress_eq : p.labelAddress label =
    match p.sections.findSome? (·.labelSum? label) with
    | none => .ok none
    | some sum => some <$> sum := by
  rw [labelAddress, labelPlace_eq_findSome?]
  induction p.sections with
  | nil => rfl
  | cons s rest ih =>
    rw [List.findSome?_cons, List.findSome?_cons, Section.labelSum?]
    cases s.exports[label]? with
    | none => exact ih
    | some offset => rfl

theorem findSome?_labelSum?_eq_none_iff :
    ss.findSome? (·.labelSum? label) = none ↔ ∀ u ∈ ss, label ∉ u.exports := by
  simp only [List.findSome?_eq_none_iff, Section.labelSum?_eq_none_iff]

theorem labelAddress_of_first {sum : Except Fault Address} (hp : p.sections = before ++ s :: after)
    (first : ∀ u ∈ before, label ∉ u.exports) (hs : s.labelSum? label = some sum) :
    p.labelAddress label = some <$> sum := by
  rw [labelAddress_eq, hp, List.findSome?_append, findSome?_labelSum?_eq_none_iff.2 first, Option.none_or,
    List.findSome?_cons, hs]

/-- What the sections from one on are does not matter for a label that one before it exports. -/
theorem labelAddress_of_hidden {ts : List Section} (hp : p.sections = before ++ ss) (hq : q.sections = before ++ ts)
    (hidden : ¬∀ u ∈ before, label ∉ u.exports) : q.labelAddress label = p.labelAddress label := by
  cases h : before.findSome? (·.labelSum? label) with
  | none => exact absurd (findSome?_labelSum?_eq_none_iff.1 h) hidden
  | some sum =>
    rw [labelAddress_eq, labelAddress_eq, hp, hq, List.findSome?_append, List.findSome?_append, h, Option.some_or,
      Option.some_or]

theorem exists_labelAddress (hp : ∀ s ∈ p.sections, s.PlacesLabels) (label : String) :
    ∃ a?, p.labelAddress label = .ok a? := by
  rw [labelAddress]
  split
  · exact ⟨none, rfl⟩
  next s offset place =>
    obtain ⟨mem, found⟩ := labelPlace_eq_some place
    obtain ⟨a, ha⟩ := Address.exists_plus (hp s mem label offset found)
    exact ⟨some a, map_eq_ok.2 ⟨a, ha, rfl⟩⟩

theorem exists_labelAddresses (hp : ∀ s ∈ p.sections, s.PlacesLabels) : ∃ as, p.labelAddresses = .ok as := by
  obtain ⟨ls, hl⟩ := exists_mapM_eq_ok fun s hs => (hp s hs).exists_labelAddresses
  exact ⟨_, map_eq_ok.2 ⟨ls, hl, rfl⟩⟩

/-- Looking for the labels of a program is looking for those of each section. -/
theorem labelAddresses_of_mem (h : p.labelAddresses = .ok as) (hs : s ∈ p.sections) :
    ∃ bs, s.labelAddresses = .ok bs ∧ ∀ b ∈ bs, b ∈ as := by
  obtain ⟨ls, hl, rfl⟩ := map_eq_ok.1 h
  obtain ⟨bs, hm, hb⟩ := (mem_of_mapM_eq_ok hl).1 s hs
  exact ⟨bs, hb, fun b hb => List.mem_flatten.2 ⟨bs, hm, hb⟩⟩

theorem mem_labelAddresses (h : p.labelAddresses = .ok as) : a ∈ as ↔ p.HasLabelAt a := by
  constructor
  · intro ha
    obtain ⟨ls, hl, rfl⟩ := map_eq_ok.1 h
    obtain ⟨bs, hm, ha⟩ := List.mem_flatten.1 ha
    obtain ⟨s, hs, hb⟩ := (mem_of_mapM_eq_ok hl).2 bs hm
    exact ⟨s, hs, (Section.mem_labelAddresses hb).1 ha⟩
  · rintro ⟨s, hs, ha⟩
    obtain ⟨bs, hb, sub⟩ := labelAddresses_of_mem h hs
    exact sub a ((Section.mem_labelAddresses hb).2 ha)

/-- Looking for labels finds one at an address for each that is exported. -/
theorem exists_address_of_label (h : p.labelAddresses = .ok as) (hs : s ∈ p.sections)
    (ho : s.exports[label]? = some offset) : ∃ a ∈ as, Address.plus s.base offset = .ok a := by
  obtain ⟨bs, hb, sub⟩ := labelAddresses_of_mem h hs
  obtain ⟨a, ha, hp⟩ := Section.exists_address_of_label hb ho
  exact ⟨a, sub a ha, hp⟩

end Program

end ReachableCode
