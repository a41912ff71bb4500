import Mathlib
import ReachableCode.Listing.Csv
import ReachableCode.Listing.Json
import ReachableCode.Proofs.Graph.Sites
import ReachableCode.Proofs.Text.Csv
import ReachableCode.Proofs.Text.Json

/-!
The addresses in listings of a graph. A listing is read back, and what then stands in the fields for addresses are the
addresses of the graph in one form, and nothing else.
-/

namespace ReachableCode

namespace Block

/-- The address is where the block starts or an instruction of it lies, or where control comes from or goes to. -/
def Mentions (b : Block) (a : Address) : Prop :=
  a = b.start ∨ (∃ d, b.Has a d) ∨ a ∈ b.predecessors ∨ a ∈ b.successors

/-- The address is where an instruction of the block lies, or where the block starts if it has one. -/
def Places (b : Block) (a : Address) : Prop :=
  ∃ c d, b.Has c d ∧ (a = b.start ∨ a = c)

variable {b : Block} {placed : List (Address × Decoded)} {s : String}

theorem exists_mentions (hp : b.placed = .ok placed) : (∃ a, b.Mentions a ∧ s = a.text) ↔
    s = b.start.text ∨ (∃ i ∈ placed, s = i.1.text) ∨ (∃ a ∈ b.predecessors, s = a.text) ∨
      ∃ a ∈ b.successors, s = a.text := by
  simp [Mentions, ← mem_placed hp, or_and_right, exists_or]

theorem exists_places (hp : b.placed = .ok placed) : (∃ a, b.Places a ∧ s = a.text) ↔
    ∃ i ∈ placed, s = b.start.text ∨ s = i.1.text := by
  simp only [Places, ← mem_placed hp]
  constructor
  · rintro ⟨_, ⟨c, d, hi, rfl | rfl⟩, rfl⟩
    · exact ⟨_, hi, .inl rfl⟩
    · exact ⟨_, hi, .inr rfl⟩
  · rintro ⟨⟨c, d⟩, hi, rfl | rfl⟩
    · exact ⟨b.start, ⟨c, d, hi, .inl rfl⟩, rfl⟩
    · exact ⟨c, ⟨c, d, hi, .inr rfl⟩, rfl⟩

end Block

namespace BlockGraph

def Mentions (g : BlockGraph) (a : Address) : Prop :=
  ∃ start b, g.block? start = some b ∧ b.Mentions a

def Places (g : BlockGraph) (a : Address) : Prop :=
  ∃ start b, g.block? start = some b ∧ b.Places a

section Blocks

variable {β : Type} {g : BlockGraph} {list : Block → Except Fault β} {holds : β → Prop} {of : Block → Address → Prop}
  {s : String}

/-- If it is known which addresses what is listed of a block has, it is known of what is listed of all blocks. -/
theorem exists_holds {listed : List β} (h : g.blocks.values.mapM list = .ok listed)
    (each : ∀ b v, list b = .ok v → (holds v ↔ ∃ a, of b a ∧ s = a.text)) :
    (∃ v ∈ listed, holds v) ↔ ∃ a, (∃ start b, g.block? start = some b ∧ of b a) ∧ s = a.text := by
  obtain ⟨all, only⟩ := mem_of_mapM_eq_ok h
  constructor
  · rintro ⟨v, hv, hold⟩
    obtain ⟨b, hb, hv⟩ := only v hv
    obtain ⟨start, hb⟩ := mem_values.1 hb
    obtain ⟨a, ha, hs⟩ := (each b v hv).1 hold
    exact ⟨a, ⟨start, b, hb, ha⟩, hs⟩
  · rintro ⟨a, ⟨start, b, hb, ha⟩, hs⟩
    obtain ⟨v, hv, made⟩ := all b (mem_values.2 ⟨start, hb⟩)
    exact ⟨v, hv, (each b v made).2 ⟨a, ha, hs⟩⟩

/-- The same of several things that are listed of each block. -/
theorem exists_holds_flatten {list : Block → Except Fault (List β)} {listed : List (List β)}
    (h : g.blocks.values.mapM list = .ok listed)
    (each : ∀ b vs, list b = .ok vs → ((∃ v ∈ vs, holds v) ↔ ∃ a, of b a ∧ s = a.text)) :
    (∃ v ∈ listed.flatten, holds v) ↔ ∃ a, (∃ start b, g.block? start = some b ∧ of b a) ∧ s = a.text := by
  rw [← exists_holds h each]
  constructor
  · rintro ⟨v, hv, hold⟩
    obtain ⟨vs, hvs, hv⟩ := List.mem_flatten.1 hv
    exact ⟨vs, hvs, v, hv, hold⟩
  · rintro ⟨vs, hvs, v, hv, hold⟩
    exact ⟨v, List.mem_flatten.2 ⟨vs, hvs, hv⟩, hold⟩

end Blocks

end BlockGraph

namespace Json.Value

/-- The keys under which listings have an address or a list of addresses. -/
def addressKeys : List String :=
  ["entry_point", "start", "predecessors", "successors", "address", "block_start"]

/-- The value is the text or a list that the text is in. -/
def Gives (s : String) : Value → Prop
  | string t => s = t
  | array items => string s ∈ items
  | _ => False

/-- The text stands in the value under a key for addresses. -/
inductive HoldsAddress (s : String) : Value → Prop
  | here {k v fields} (hf : (k, v) ∈ fields) (hk : k ∈ addressKeys) (hv : v.Gives s) : HoldsAddress s (object fields)
  | field {k v fields} (hf : (k, v) ∈ fields) (hv : HoldsAddress s v) : HoldsAddress s (object fields)
  | item {v items} (hi : v ∈ items) (hv : HoldsAddress s v) : HoldsAddress s (array items)

variable {s t : String} {n : Nat} {items : List Value} {fields : List (String × Value)}

@[simp] theorem not_holdsAddress_string : ¬HoldsAddress s (string t) := nofun

@[simp] theorem not_holdsAddress_number : ¬HoldsAddress s (number n) := nofun

@[simp] theorem holdsAddress_array : HoldsAddress s (array items) ↔ ∃ v ∈ items, HoldsAddress s v := by
  constructor
  · intro h
    cases h with
    | item hi hv => exact ⟨_, hi, hv⟩
  · rintro ⟨v, hi, hv⟩
    exact .item hi hv

@[simp] theorem holdsAddress_object : HoldsAddress s (object fields) ↔
    ∃ f ∈ fields, f.1 ∈ addressKeys ∧ f.2.Gives s ∨ HoldsAddress s f.2 := by
  constructor
  · rintro (⟨hf, hk, hv⟩ | ⟨hf, hv⟩)
    · exact ⟨_, hf, .inl ⟨hk, hv⟩⟩
    · exact ⟨_, hf, .inr hv⟩
  · rintro ⟨⟨k, v⟩, hf, ⟨hk, hv⟩ | hv⟩
    · exact .here hf hk hv
    · exact .field hf hv

variable {a : Address} {i : Instruction} {b : Block}

theorem holdsAddress_ofInstruction : HoldsAddress s (ofInstruction a i) ↔ s = a.text := by
  simp [ofInstruction, ofAddress, addressKeys, Gives]

theorem holdsAddress_instructionLine : HoldsAddress s (instructionLine b a i) ↔ s = a.text ∨ s = b.start.text := by
  simp [instructionLine, ofAddress, addressKeys, Gives]

@[simp] theorem gives_ofAddress : (ofAddress a).Gives s ↔ s = a.text := Iff.rfl

@[simp] theorem gives_ofAddresses {as : List Address} : (ofAddresses as).Gives s ↔ ∃ a ∈ as, s = a.text := by
  simp [ofAddresses, ofAddress, Gives, eq_comm]

@[simp] theorem not_holdsAddress_ofAddress : ¬HoldsAddress s (ofAddress a) := nofun

@[simp] theorem not_holdsAddress_ofAddresses {as : List Address} : ¬HoldsAddress s (ofAddresses as) := by
  simp [ofAddresses, ofAddress]

@[simp] theorem not_holdsAddress_ofLabels {labels : List String} : ¬HoldsAddress s (ofLabels labels) := by
  simp [ofLabels]

variable {p : Program} {g : BlockGraph}

theorem holdsAddress_ofBlock {v : Value} (hv : ofBlock p b = .ok v) :
    v.HoldsAddress s ↔ ∃ a, b.Mentions a ∧ s = a.text := by
  obtain ⟨labels, -, hv⟩ := bind_eq_ok.1 hv
  obtain ⟨placed, hp, hv⟩ := bind_eq_ok.1 hv
  cases hv
  rw [Block.exists_mentions hp]
  simp [addressKeys, holdsAddress_ofInstruction]

/-- The lines of the instructions have the start of the block too, which adds nothing to what its own line has. -/
theorem holdsAddress_blockLines {vs : List Value} (hv : blockLines p b = .ok vs) :
    (∃ v ∈ vs, v.HoldsAddress s) ↔ ∃ a, b.Mentions a ∧ s = a.text := by
  obtain ⟨labels, -, hv⟩ := bind_eq_ok.1 hv
  obtain ⟨placed, hp, hv⟩ := bind_eq_ok.1 hv
  cases hv
  rw [Block.exists_mentions hp]
  calc
    _ ↔ ((∃ a ∈ b.predecessors, s = a.text) ∨ s = b.start.text ∨ ∃ a ∈ b.successors, s = a.text) ∨
        ∃ i ∈ placed, s = i.1.text ∨ s = b.start.text := by
      simp [addressKeys, holdsAddress_instructionLine]
    _ ↔ _ := by grind

end Json.Value

namespace Csv

/-- The columns that have an address. -/
def addressColumns : List String :=
  ["block_address", "address"]

/-- The text stands in a row below the header, in a column for addresses. -/
def HoldsAddress (rows : List (List String)) (s : String) : Prop :=
  ∃ header body, rows = header :: body ∧ ∃ row ∈ body, ∃ key ∈ addressColumns, (key, s) ∈ header.zip row

theorem holds_blockRows {b : Block} {rows : List (List String)} {s : String} (h : blockRows b = .ok rows) :
    (∃ row ∈ rows, ∃ key ∈ addressColumns, (key, s) ∈ columns.zip row) ↔ ∃ a, b.Places a ∧ s = a.text := by
  obtain ⟨placed, hp, h⟩ := bind_eq_ok.1 h
  cases h
  rw [Block.exists_places hp]
  simp [addressColumns, columns, instructionFields]

theorem two_le_length {b : Block} {rows : List (List String)} (h : blockRows b = .ok rows) :
    ∀ row ∈ rows, 2 ≤ row.length := by
  obtain ⟨placed, -, h⟩ := bind_eq_ok.1 h
  cases h
  intro row hr
  obtain ⟨i, -, rfl⟩ := List.mem_map.1 hr
  simp [instructionFields]

end Csv

namespace BlockGraph

variable {p : Program} {g : BlockGraph} {text : String}

theorem jsonListing_holds (h : g.jsonListing p = .ok text) : ∃ v, Json.parse text = some v ∧
    ∀ s, v.HoldsAddress s ↔ ∃ a, (p.entryPoint = some a ∨ g.Mentions a) ∧ s = a.text := by
  obtain ⟨v, hv, made⟩ := bind_eq_ok.1 h
  cases made
  obtain ⟨blocks, hb, hv⟩ := bind_eq_ok.1 hv
  cases hv
  refine ⟨_, Json.Value.parse_pretty 0 _, fun s => ?_⟩
  have held : (∃ v ∈ blocks, v.HoldsAddress s) ↔ ∃ a, g.Mentions a ∧ s = a.text :=
    exists_holds hb fun b v => Json.Value.holdsAddress_ofBlock
  simp only [or_and_right, exists_or, ← held]
  cases p.entryPoint <;> simp [Json.Value.addressKeys]

theorem jsonLines_holds (h : g.jsonLines p = .ok text) : ∃ (lines : List String) (vs : List Json.Value),
    text = String.join (lines.map (· ++ "\n")) ∧ lines.map Json.parse = vs.map some ∧
    ∀ s, (∃ v ∈ vs, v.HoldsAddress s) ↔ ∃ a, g.Mentions a ∧ s = a.text := by
  obtain ⟨blocks, hb, made⟩ := bind_eq_ok.1 h
  cases made
  refine ⟨blocks.flatten.map Json.Value.compact, blocks.flatten, ?_, ?_, fun s => ?_⟩
  · rw [List.map_map]
    rfl
  · rw [List.map_map]
    exact List.map_congr_left fun v _ => Json.Value.parse_compact v
  · exact exists_holds_flatten hb fun b vs => Json.Value.holdsAddress_blockLines

theorem csvListing_holds (h : g.csvListing = .ok text) : ∃ rows, Csv.parse text = some rows ∧
    ∀ s, Csv.HoldsAddress rows s ↔ ∃ a, g.Places a ∧ s = a.text := by
  obtain ⟨blocks, hb, made⟩ := bind_eq_ok.1 h
  cases made
  have held (s : String) : (∃ row ∈ blocks.flatten, ∃ key ∈ Csv.addressColumns, (key, s) ∈ Csv.columns.zip row) ↔
      ∃ a, g.Places a ∧ s = a.text :=
    exists_holds_flatten hb fun b rows => Csv.holds_blockRows
  by_cases none : blocks.flatten = []
  · refine ⟨[], ?_, fun s => ?_⟩
    · rw [none]
      rfl
    · rw [← held, none]
      simp [Csv.HoldsAddress]
  · refine ⟨Csv.columns :: blocks.flatten, ?_, fun s => ?_⟩
    · rw [if_neg (by simpa using none)]
      refine Csv.parse_rows _ (List.forall_mem_cons.2 ⟨by decide, fun row hr => ?_⟩)
      obtain ⟨rows, hl, hr⟩ := List.mem_flatten.1 hr
      obtain ⟨b, -, made⟩ := (mem_of_mapM_eq_ok hb).2 rows hl
      exact Csv.two_le_length made row hr
    · rw [← held]
      simp [Csv.HoldsAddress]

end BlockGraph

end ReachableCode
