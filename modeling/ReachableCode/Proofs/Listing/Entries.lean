import Mathlib
import ReachableCode.Listing.Request
import ReachableCode.Proofs.Listing.Addresses
import ReachableCode.Proofs.Listing.Json
import ReachableCode.Proofs.Text.Hex

/-!
The texts that name the places to start from. A text that begins with the mark of hexadecimal numbers is taken as the
address that it spells or refused, and the addresses that listings show are taken back as they are.
-/

namespace ReachableCode

namespace Target

/-- The text begins as one for an address does. -/
def IsMarked (s : String) : Prop :=
  ∃ mark rest : String, (mark = "0x" ∨ mark = "0X") ∧ s = mark ++ rest

/-- The text is `0x` or `0X`, then a plus sign or nothing, and then a numeral of the address. -/
def Spells (s : String) (a : Address) : Prop :=
  ∃ mark number : String, (mark = "0x" ∨ mark = "0X") ∧ s = mark ++ number ∧ Hex.Reads number a.toNat

variable {s mark rest : String} {a : Address}

theorem parse_marked (hm : mark = "0x" ∨ mark = "0X") : parse (mark ++ rest) = address <$> Hex.parse rest := by
  rcases hm with rfl | rfl <;> simp [parse]

theorem parse_of_not_isMarked (h : ¬IsMarked s) : parse s = .ok (label s) := by
  have unmarked : ∀ mark : String, mark = "0x" ∨ mark = "0X" → ∀ rest, s.toList ≠ mark.toList ++ rest := by
    intro mark hm rest hs
    exact h ⟨mark, String.ofList rest, hm, String.toList_injective (by simpa using hs)⟩
  rw [parse]
  split
  · next hs => exact absurd hs (unmarked "0x" (.inl rfl) _)
  · next hs => exact absurd hs (unmarked "0X" (.inr rfl) _)
  · rfl

theorem parse_eq_ok_address : parse s = .ok (.address a) ↔ Spells s a := by
  constructor
  · intro h
    by_cases marked : IsMarked s
    · obtain ⟨mark, number, hm, rfl⟩ := marked
      rw [parse_marked hm] at h
      obtain ⟨v, hv, same⟩ := map_eq_ok.1 h
      cases same
      exact ⟨mark, number, hm, rfl, Hex.parse_eq_ok.1 hv⟩
    · rw [parse_of_not_isMarked marked] at h
      cases h
  · rintro ⟨mark, number, hm, rfl, reads⟩
    rw [parse_marked hm, map_eq_ok]
    exact ⟨a, Hex.parse_eq_ok.2 reads, rfl⟩

theorem exists_parse_eq_error (hs : IsMarked s) (h : ¬∃ a, Spells s a) : ∃ cause, parse s = .error cause := by
  obtain ⟨mark, number, hm, rfl⟩ := hs
  cases hn : Hex.parse number with
  | error cause => exact ⟨cause, by rw [parse_marked hm, hn]; rfl⟩
  | ok a => exact absurd ⟨a, mark, number, hm, rfl, Hex.parse_eq_ok.1 hn⟩ h

theorem spells_text : Spells (address a).text a :=
  ⟨"0x", Hex.digits a.toNat, .inl rfl, rfl, Hex.reads_digits a.toNat⟩

end Target

namespace Request

theorem targets_addresses (as : List Address) :
    targets (as.map fun a => (Target.address a).text) = .ok (as.map Target.address) := by
  induction as with
  | nil => rfl
  | cons a as ih =>
    rw [List.map_cons, targets, Target.parse_eq_ok_address.2 Target.spells_text]
    exact bind_eq_ok.2 ⟨_, ih, rfl⟩

end Request

namespace Target

/-- The text of an address is read as that address, the texts that are read as an address are those that spell it,
and others that begin alike are refused. The addresses of all listings have this text, so that each can be given as
a place to start from. -/
theorem printed_addresses_are_entries :
    (∀ a : Address, parse (address a).text = .ok (.address a)) ∧
    (∀ s a, parse s = .ok (.address a) ↔ Spells s a) ∧
    (∀ s, IsMarked s → (¬∃ a, Spells s a) →
      ∃ cause, parse s = .error cause ∧ Request.targets [s] = .error (.entry s cause)) ∧
    (∀ as : List Address, Request.targets (as.map fun a => (address a).text) = .ok (as.map address)) ∧
    ∀ (p : Program) (g : BlockGraph) (text : String),
      (g.jsonListing p = .ok text → ∃ v, Json.parse text = some v ∧
        ∀ s, v.HoldsAddress s ↔ ∃ a, (p.entryPoint = some a ∨ g.Mentions a) ∧ s = (address a).text) ∧
      (g.jsonLines p = .ok text → ∃ (lines : List String) (vs : List Json.Value),
        text = String.join (lines.map (· ++ "\n")) ∧ lines.map Json.parse = vs.map some ∧
        ∀ s, (∃ v ∈ vs, v.HoldsAddress s) ↔ ∃ a, g.Mentions a ∧ s = (address a).text) ∧
      (g.csvListing = .ok text → ∃ rows, Csv.parse text = some rows ∧
        ∀ s, Csv.HoldsAddress rows s ↔ ∃ a, g.Places a ∧ s = (address a).text) := by
  refine ⟨fun a => parse_eq_ok_address.2 spells_text, fun s a => parse_eq_ok_address, fun s marked none => ?_,
    Request.targets_addresses, fun p g text => ⟨BlockGraph.jsonListing_holds, BlockGraph.jsonLines_holds,
      BlockGraph.csvListing_holds⟩⟩
  obtain ⟨cause, h⟩ := exists_parse_eq_error marked none
  exact ⟨cause, h, by rw [Request.targets, h]⟩

/-- The address in the listings of a graph of one block is read back. A number of seventeen digits is refused, and
one of two digits behind zeros is not. -/
theorem address_of_listed_block_is_entry : ∃ (g : BlockGraph) (json text csv : String),
    Explorer.specialTexts.explore .empty (.address 0x1000) = .ok g ∧
    g.jsonListing Explorer.specialTexts.program = .ok json ∧
    g.jsonLines Explorer.specialTexts.program = .ok text ∧ g.csvListing = .ok csv ∧
    (∃ v, Json.parse json = some v ∧ v.HoldsAddress "0x1000") ∧
    (∃ (lines : List String) (vs : List Json.Value), text = String.join (lines.map (· ++ "\n")) ∧
      lines.map Json.parse = vs.map some ∧ ∃ v ∈ vs, v.HoldsAddress "0x1000") ∧
    (∃ rows, Csv.parse csv = some rows ∧ Csv.HoldsAddress rows "0x1000") ∧
    parse "0x1000" = .ok (.address 0x1000) ∧
    IsMarked "0x10000000000000000" ∧ (¬∃ a, Spells "0x10000000000000000" a) ∧
    parse "0x10000000000000000" = .error .tooLarge ∧
    Request.targets ["0x10000000000000000"] = .error (.entry "0x10000000000000000" .tooLarge) ∧
    Spells "0X+00000000000000000fF" 0xff := by
  obtain ⟨read, spelt, refused, -, listings⟩ := printed_addresses_are_entries
  obtain ⟨g, b, d, he, -, -, hb, start, -, -, code, -⟩ := Explorer.specialTexts_run
  have hg := Explorer.attainable_of_explore .empty he
  obtain ⟨objects, hv, listed⟩ := hg.exists_objects
  obtain ⟨whole, hj, -⟩ := BlockGraph.jsonListing_eq hv listed
  have hl := BlockGraph.jsonLines_eq hv listed
  have hc := hg.consistent.csvListing_eq
  obtain ⟨v, parsed, held⟩ := (listings _ _ _).1 hj
  obtain ⟨lines, vs, joined, parsedLines, heldLines⟩ := (listings _ _ _).2.1 hl
  obtain ⟨rows, parsedRows, heldRows⟩ := (listings Explorer.specialTexts.program _ _).2.2 hc
  have printed : (address 0x1000).text = "0x1000" := by cbv
  have mentions : g.Mentions 0x1000 := ⟨_, b, hb, .inl start.symm⟩
  have places : g.Places 0x1000 :=
    ⟨_, b, hb, 0x1000, d, Block.has_iff.2 ⟨[], [], code, Block.spans_nil.2 start⟩, .inr rfl⟩
  have marked : IsMarked "0x10000000000000000" := ⟨"0x", "10000000000000000", .inl rfl, rfl⟩
  have large : parse "0x10000000000000000" = .error .tooLarge := by cbv
  have none : ¬∃ a, Spells "0x10000000000000000" a := by
    rintro ⟨a, h⟩
    cases large.symm.trans ((spelt _ a).2 h)
  have zeros : parse "0X+00000000000000000fF" = .ok (.address 0xff) := by cbv
  obtain ⟨cause, same, reported⟩ := refused _ marked none
  cases large.symm.trans same
  exact ⟨g, _, _, _, he, hj, hl, hc, ⟨v, parsed, (held _).2 ⟨_, .inr mentions, printed.symm⟩⟩,
    ⟨lines, vs, joined, parsedLines, (heldLines _).2 ⟨_, mentions, printed.symm⟩⟩,
    ⟨rows, parsedRows, (heldRows _).2 ⟨_, places, printed.symm⟩⟩, printed ▸ read 0x1000, marked, none, large,
    reported, (spelt _ _).1 zeros⟩

end Target

end ReachableCode
