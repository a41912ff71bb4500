import ReachableCode.Search.Target
import ReachableCode.Success

/-!
What is looked up in a program. The section that maps an address and the one that exports a label are among
its sections, and a cursor at an address or a target stands in one of them.
-/

namespace ReachableCode.Program

variable {p : Program} {s : Section} {a : Address} {label : String} {offset : Offset} {c : Cursor} {t : Target}

theorem mem_of_firstMapping {ss : List Section} (h : firstMapping a ss = .ok (some s)) : s ∈ ss := by
  induction ss with
  | nil => cases h
  | cons first rest ih =>
    obtain ⟨inside, -, h⟩ := bind_eq_ok.1 h
    split at h
    · cases h
      exact List.mem_cons_self
    · exact List.mem_cons_of_mem _ (ih h)

theorem mem_of_cursorAt (h : p.cursorAt a = .ok (some c)) : c.place ∈ p.sections := by
  obtain ⟨place?, hp, h⟩ := bind_eq_ok.1 h
  cases place? with
  | none => cases h
  | some place =>
    cases h
    exact mem_of_firstMapping hp

theorem labelPlace_eq_some (h : p.labelPlace label = some (s, offset)) :
    s ∈ p.sections ∧ s.exports[label]? = some offset := by
  rw [labelPlace, Option.bind_eq_bind, Option.bind_eq_some_iff] at h
  obtain ⟨u, hu, h⟩ := h
  rw [Option.bind_eq_bind, Option.bind_eq_some_iff] at h
  obtain ⟨v, hv, h⟩ := h
  cases h
  exact ⟨List.mem_of_find?_eq_some hu, hv⟩

theorem mem_of_cursorIn (h : t.cursorIn p = .ok (some c)) : c.place ∈ p.sections := by
  cases t with
  | address a => exact mem_of_cursorAt h
  | label name =>
    obtain ⟨⟨s, offset⟩, hl, rfl⟩ := Option.map_eq_some_iff.1 (Except.ok.inj h)
    exact (labelPlace_eq_some hl).1

end ReachableCode.Program
