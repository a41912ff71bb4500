import ReachableCode.Proofs.Image.Overflow

/-!
Where the labels of a loaded program are. Loading puts the labels of the image in order, and the label of the
entry last. Each goes into the first section that covers its address, unless that section has one of the name
already.
-/

namespace ReachableCode

/-- Each section exports the name at the first of the addresses that it covers and no section before it does. -/
def ExportsFirst (name : String) : List Section → List Address → Prop
  | [], _ => True
  | s :: rest, xs =>
    s.exports[name]? = (xs.find? fun x => s.extent.Covers x.toNat).map (· - s.base) ∧
      ExportsFirst name rest (xs.filter fun x => ¬s.extent.Covers x.toNat)

/-- The addresses for the name, in order. -/
def addressesOf (name : String) (ls : List (String × Address)) : List Address :=
  ls.filterMap fun l => if l.1 = name then some l.2 else none

/-- The sections export the labels as if these were put one after another. -/
def Program.Labelled (p : Program) (ls : List (String × Address)) : Prop :=
  ∀ name, ExportsFirst name p.sections (addressesOf name ls)

variable {b : Image} {p q : Program} {s : Section} {ss ts : List Section} {name m : String} {a : Address}
  {xs : List Address} {ls : List (String × Address)} {r : Relocation}

/-! ### Putting labels -/

theorem addressesOf_append {ls' : List (String × Address)} :
    addressesOf name (ls ++ ls') = addressesOf name ls ++ addressesOf name ls' :=
  List.filterMap_append

namespace ExportsFirst

theorem nil (h : ∀ s ∈ ss, s.exports = ∅) : ExportsFirst name ss [] := by
  induction ss with
  | nil => trivial
  | cons s rest ih =>
    obtain ⟨none, h⟩ := List.forall_mem_cons.1 h
    exact ⟨by simp [none], ih h⟩

/-- What leaves the labels of the name and the places of the sections alone does not matter. -/
theorem of_updateMapping {f : Offset → Section → Section} (hs : ExportsFirst name ss xs)
    (h : Program.updateMapping a f ss = .ok ts)
    (keeps : ∀ offset s, (f offset s).exports[name]? = s.exports[name]? ∧ (f offset s).base = s.base ∧
      (f offset s).mappedSize = s.mappedSize) : ExportsFirst name ts xs := by
  induction ss generalizing xs ts with
  | nil =>
    cases h
    trivial
  | cons s rest ih =>
    obtain ⟨here, behind⟩ := hs
    rw [Program.updateMapping_cons] at h
    split at h
    · split at h
      · cases h
      · cases h
        obtain ⟨exports, base, size⟩ := keeps (a - s.base) s
        have extent : (f (a - s.base) s).extent = s.extent := by simp only [Section.extent, base, size]
        rw [ExportsFirst, exports, extent, base]
        exact ⟨here, behind⟩
    · obtain ⟨ts', ht, h⟩ := bind_eq_ok.1 h
      cases h
      exact ⟨here, ih behind ht⟩

/-- A label goes behind those of its name. -/
theorem insert (hs : ExportsFirst name ss xs)
    (h : Program.updateMapping a (fun offset s => { s with exports := s.exports.insertIfNew name offset }) ss =
      .ok ts) : ExportsFirst name ts (xs ++ [a]) := by
  induction ss generalizing xs ts with
  | nil =>
    cases h
    trivial
  | cons s rest ih =>
    obtain ⟨here, behind⟩ := hs
    rw [Program.updateMapping_cons] at h
    by_cases covered : s.extent.Covers a.toNat
    · rw [if_pos covered] at h
      split at h
      · cases h
      · cases h
        refine ⟨?_, ?_⟩
        · show (s.exports.insertIfNew name (a - s.base))[name]? =
            ((xs ++ [a]).find? fun x => s.extent.Covers x.toNat).map (· - s.base)
          rw [Std.ExtTreeMap.getElem?_insertIfNew, List.find?_append, here]
          cases found : xs.find? fun x => s.extent.Covers x.toNat with
          | none =>
            have free : name ∉ s.exports := by
              rw [← getElem?_eq_none_iff, here, found]
              rfl
            simp [free, covered]
          | some x =>
            have taken : name ∈ s.exports := by
              rw [Std.ExtTreeMap.mem_iff_isSome_getElem?, here, found]
              rfl
            simp [taken]
        · show ExportsFirst name rest ((xs ++ [a]).filter fun x => ¬s.extent.Covers x.toNat)
          simpa [covered] using behind
    · rw [if_neg covered] at h
      obtain ⟨ts', ht, h⟩ := bind_eq_ok.1 h
      cases h
      refine ⟨?_, by simpa [covered] using ih behind ht⟩
      rw [here]
      simp [covered]

/-- The name is found in the first section that covers one of its addresses. -/
theorem findSome?_labelSum? (hs : ExportsFirst name ss xs) :
    ss.findSome? (·.labelSum? name) =
      ((ss.map Section.extent).findSome? fun e => xs.find? fun x => e.Covers x.toNat).map .ok := by
  induction ss generalizing xs with
  | nil => rfl
  | cons s rest ih =>
    obtain ⟨here, behind⟩ := hs
    rw [List.map_cons, List.findSome?_cons, List.findSome?_cons, Section.labelSum?, here]
    cases found : xs.find? fun x => s.extent.Covers x.toNat with
    | none =>
      have uncovered : (xs.filter fun x => ¬s.extent.Covers x.toNat) = xs := by
        simpa using found
      rw [uncovered] at behind
      exact ih behind
    | some x =>
      have covered : s.extent.Covers x.toNat := by
        simpa using List.find?_some found
      simp [Section.plus_sub covered]

end ExportsFirst

namespace Program

namespace Labelled

theorem exportLabel (hp : p.Labelled ls) (h : p.exportLabel m a = .ok q) : q.Labelled (ls ++ [(m, a)]) := by
  intro name
  obtain ⟨ts, ht, h⟩ := bind_eq_ok.1 h
  cases h
  rw [addressesOf_append]
  by_cases same : m = name
  · subst same
    simpa [addressesOf] using (hp m).insert ht
  · have kept := (hp name).of_updateMapping ht fun offset s =>
      ⟨by simp [Std.ExtTreeMap.getElem?_insertIfNew, same], rfl, rfl⟩
    simpa [addressesOf, same] using kept

theorem relocate (hp : p.Labelled ls) (h : p.relocate a r = .ok q) : q.Labelled ls := by
  intro name
  obtain ⟨ts, ht, h⟩ := bind_eq_ok.1 h
  cases h
  exact (hp name).of_updateMapping ht fun _ _ => ⟨rfl, rfl, rfl⟩

theorem labelAddress (hp : p.Labelled ls) (name : String) : p.labelAddress name =
    .ok (p.extents.findSome? fun e => (addressesOf name ls).find? fun x => e.Covers x.toNat) := by
  rw [labelAddress_eq, (hp name).findSome?_labelSum?]
  show _ = Except.ok ((p.sections.map Section.extent).findSome? _)
  generalize (p.sections.map Section.extent).findSome? _ = found
  cases found <;> rfl

end Labelled

end Program

/-! ### The formats -/

namespace Image

end Image

end ReachableCode
