import ReachableCode.Proofs.Graph.Layout
import ReachableCode.Proofs.Memory.Labels
import ReachableCode.Proofs.Memory.Mapping
import ReachableCode.Proofs.Memory.Relocations

/-!
Programs whose sections lie within the address range. Whatever is looked up in them comes to a result,
and what is read at an address ends where the section that maps it ends.
-/

namespace ReachableCode

/-- The section ends within the address range, with room for one more instruction in its offsets, its data
and labels lie in it, and its relocations read no memory. -/
structure Section.Bounded (s : Section) : Prop where
  ends : s.base.toNat + s.mappedSize.toNat < Address.count
  room : s.mappedSize.toNat + maxInstructionSize < Address.count
  data : s.data.size ≤ s.mappedSize.toNat
  exports : ∀ {label : String} {offset : Offset}, s.exports[label]? = some offset → offset ≤ s.mappedSize
  relocations : ∀ {offset : Offset} {r : Relocation}, s.relocations[offset]? = some r → r.target.readsMemory = false

def Program.Bounded (p : Program) : Prop :=
  ∀ s ∈ p.sections, s.Bounded

/-- The section maps the address. -/
def Section.Covers (s : Section) (a : Address) : Prop :=
  s.base.toNat ≤ a.toNat ∧ a.toNat < s.base.toNat + s.mappedSize.toNat

/-- The cursor stands in a section of the program, at most at its end. -/
structure Cursor.Within (c : Cursor) (p : Program) : Prop where
  mem : c.place ∈ p.sections
  le : c.offset.toNat ≤ c.place.mappedSize.toNat

variable {p : Program} {s : Section} {a count : Address} {c after : Cursor} {w : Width} {o : ByteOrder}
  {bytes : List UInt8} {t : Target} {e value : Expr}

/-! ### Sections -/

namespace Section.Bounded

theorem exists_plus_offset (hs : s.Bounded) {offset : Offset} (h : offset ≤ s.mappedSize) :
    ∃ a, Address.plus s.base offset = .ok a := by
  have := hs.ends
  have := UInt64.le_iff_toNat_le.1 h
  exact Address.exists_plus (by omega)

theorem placesLabels (hs : s.Bounded) : s.PlacesLabels := by
  intro label offset found
  have := hs.ends
  have := UInt64.le_iff_toNat_le.1 (hs.exports found)
  omega

end Section.Bounded

theorem Program.firstMapping_eq_ok {ss : List Section} (h : ∀ s ∈ ss, s.Bounded) :
    ∃ s?, firstMapping a ss = .ok s? ∧ ∀ s, s? = some s → s ∈ ss ∧ s.Covers a := by
  have fits : ¬WrapsAt (ss.map Section.extent) a.toNat := by
    rintro ⟨e, found, wraps⟩
    obtain ⟨s, hs, rfl⟩ := List.mem_map.1 (List.mem_of_find?_eq_some found)
    exact Nat.not_le.2 (h s hs).ends wraps
  obtain ⟨s?, hs⟩ := stopsIff_firstMapping.exists_iff.2 fits
  refine ⟨s?, hs, ?_⟩
  rintro s rfl
  obtain ⟨before, after, rfl, -, covered, -⟩ := split_of_firstMapping hs
  exact ⟨by simp, covered⟩

theorem Section.length_bytesFrom {offset n : Nat} (hd : s.data.size ≤ s.mappedSize.toNat)
    (ho : offset ≤ s.mappedSize.toNat) : offset + (s.bytesFrom offset n).length ≤ s.mappedSize.toNat := by
  induction n generalizing offset with
  | zero => exact ho
  | succ n ih =>
    rw [bytesFrom]
    split
    · exact ho
    next b hb =>
      have inside : offset < s.mappedSize.toNat := by
        rw [byteAt] at hb
        split at hb
        · omega
        · split at hb
          · assumption
          · cases hb
      have : offset + 1 + (s.bytesFrom (offset + 1) n).length ≤ s.mappedSize.toNat := ih inside
      simp only [List.length_cons]
      omega

/-! ### Cursors -/

namespace Cursor.Within

theorem peek_eq_ok (hc : c.Within p) (hp : p.Bounded) (hn : count.toNat ≤ maxInstructionSize) :
    ∃ bytes, c.peek count = .ok bytes := by
  have := (hp _ hc.mem).room
  have := hc.le
  obtain ⟨stop, hs⟩ := Address.exists_plus (a := c.offset) (n := count) (by omega)
  exact ⟨_, bind_eq_ok.2 ⟨stop, hs, rfl⟩⟩

theorem advance_eq_ok (hc : c.Within p) (hp : p.Bounded) (hn : count.toNat ≤ maxInstructionSize) :
    ∃ after, c.advance count = .ok after := by
  have := (hp _ hc.mem).room
  have := hc.le
  obtain ⟨stop, hs⟩ := Address.exists_plus (a := c.offset) (n := count) (by omega)
  exact ⟨_, bind_eq_ok.2 ⟨stop, hs, rfl⟩⟩

/-- What is seen from a cursor ends in the section. -/
theorem length_peek (hc : c.Within p) (hp : p.Bounded) (h : c.peek count = .ok bytes) :
    c.offset.toNat + bytes.length ≤ c.place.mappedSize.toNat := by
  obtain ⟨stop, -, h⟩ := bind_eq_ok.1 h
  cases h
  exact Section.length_bytesFrom (hp _ hc.mem).data hc.le

theorem readInt_eq_ok (hc : c.Within p) (hp : p.Bounded) : ∃ r, c.readInt w o = .ok r := by
  have small : (UInt64.ofNat w.bytes).toNat ≤ maxInstructionSize := by cases w <;> decide
  refine exists_bind_eq_ok (hc.peek_eq_ok hp small) fun raw _ => ?_
  split
  · exact ⟨none, rfl⟩
  · exact exists_bind_eq_ok (hc.advance_eq_ok hp small) fun after _ => ⟨_, rfl⟩

theorem readExpr_eq_ok (hc : c.Within p) (hp : p.Bounded) : ∃ r, c.readExpr w o = .ok r := by
  have small : (UInt64.ofNat w.bytes).toNat ≤ maxInstructionSize := by cases w <;> decide
  rw [readExpr]
  split
  · exact exists_bind_eq_ok (hc.advance_eq_ok hp small) fun after _ => ⟨_, rfl⟩
  · exact exists_bind_eq_ok (hc.readInt_eq_ok hp) fun r _ => ⟨_, rfl⟩

end Cursor.Within

/-! ### Programs -/

namespace Program.Bounded

theorem sectionAt_eq_ok (hp : p.Bounded) (a : Address) :
    ∃ s?, p.sectionAt a = .ok s? ∧ ∀ s, s? = some s → s ∈ p.sections ∧ s.Covers a :=
  firstMapping_eq_ok hp

/-- A cursor at an address stands there, before a mapped byte. -/
theorem cursorAt_eq_ok (hp : p.Bounded) (a : Address) : ∃ c?, p.cursorAt a = .ok c? ∧ ∀ c, c? = some c →
    c.Within p ∧ c.place.base.toNat + c.offset.toNat = a.toNat ∧
      c.offset.toNat < c.place.mappedSize.toNat := by
  obtain ⟨s?, hs, spec⟩ := hp.sectionAt_eq_ok a
  refine ⟨_, bind_eq_ok.2 ⟨s?, hs, rfl⟩, fun c hc => ?_⟩
  obtain ⟨s, rfl, rfl⟩ := Option.map_eq_some_iff.1 hc
  obtain ⟨mem, above, below⟩ := spec s rfl
  have diff : (a - s.base).toNat = a.toNat - s.base.toNat :=
    UInt64.toNat_sub_of_le _ _ (UInt64.le_iff_toNat_le.2 above)
  refine ⟨⟨mem, ?_⟩, ?_, ?_⟩ <;> simp only [diff] <;> omega

theorem labelPlace_eq_some {label : String} {offset : Offset} (hp : p.Bounded)
    (h : p.labelPlace label = some (s, offset)) : s ∈ p.sections ∧ offset ≤ s.mappedSize := by
  obtain ⟨mem, found⟩ := Program.labelPlace_eq_some h
  exact ⟨mem, (hp s mem).exports found⟩

theorem addressIn_eq_ok (hp : p.Bounded) (t : Target) : ∃ a?, t.addressIn p = .ok a? := by
  cases t with
  | address a =>
    obtain ⟨s?, hs, -⟩ := hp.sectionAt_eq_ok a
    exact exists_bind_eq_ok ⟨s?, hs⟩ fun s? _ => ⟨_, rfl⟩
  | label name => exact Program.exists_labelAddress (fun s mem => (hp s mem).placesLabels) name

theorem cursorIn_eq_ok (hp : p.Bounded) (t : Target) :
    ∃ c?, t.cursorIn p = .ok c? ∧ ∀ c, c? = some c → c.Within p := by
  cases t with
  | address a =>
    obtain ⟨c?, hc, spec⟩ := hp.cursorAt_eq_ok a
    exact ⟨c?, hc, fun c h => (spec c h).1⟩
  | label name =>
    refine ⟨_, rfl, fun c hc => ?_⟩
    obtain ⟨⟨s, offset⟩, hl, rfl⟩ := Option.map_eq_some_iff.1 hc
    obtain ⟨mem, ho⟩ := hp.labelPlace_eq_some hl
    exact ⟨mem, UInt64.le_iff_toNat_le.1 ho⟩

theorem exists_labelAddresses (hp : p.Bounded) : ∃ as, p.labelAddresses = .ok as :=
  Program.exists_labelAddresses fun s mem => (hp s mem).placesLabels

/-! ### Resolution -/

theorem resolveWith_eq_ok {follow : Expr → Except Fault (Option Target)} (hp : p.Bounded)
    (hf : ∀ e, ∃ t?, follow e = .ok t?) (e : Expr) : ∃ t?, e.resolveWith p follow = .ok t? := by
  induction e with
  | load a w o ih =>
    rw [Expr.resolveWith]
    refine exists_bind_eq_ok ih fun t? _ => ?_
    cases t? with
    | none => exact ⟨none, rfl⟩
    | some t =>
      obtain ⟨c?, hc, within⟩ := hp.cursorIn_eq_ok t
      refine exists_bind_eq_ok ⟨c?, hc⟩ fun c? hc' => ?_
      cases hc.symm.trans hc'
      cases c? with
      | none => exact ⟨none, rfl⟩
      | some c =>
        refine exists_bind_eq_ok ((within c rfl).readExpr_eq_ok hp) fun r _ => ?_
        cases r with
        | none => exact ⟨none, rfl⟩
        | some r => exact hf r.1
  | _ => exact ⟨_, rfl⟩

theorem resolve_eq_ok (hp : p.Bounded) (e : Expr) : ∃ t?, p.resolve e = .ok t? := by
  suffices h : ∀ depth (e : Expr), ∃ t?, e.resolveUpTo p depth = .ok t? from h _ e
  intro depth
  induction depth with
  | zero => exact hp.resolveWith_eq_ok fun value => ⟨_, rfl⟩
  | succ depth ih => exact hp.resolveWith_eq_ok ih

theorem direct (hp : p.Bounded) : p.Direct :=
  fun s hs _ _ => (hp s hs).relocations

/-- What resolving follows is resolved in turn, however often memory is read. -/
theorem resolve_eq (hp : p.Bounded) (e : Expr) : p.resolve e = e.resolveWith p p.resolve :=
  (hp.direct.resolve_eq e).2

end Program.Bounded

end ReachableCode
