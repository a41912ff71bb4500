import Mathlib
import ReachableCode.Listing.Json
import ReachableCode.Proofs.Exploration.Mapped
import ReachableCode.Proofs.Listing.Csv
import ReachableCode.Proofs.Text.Json

/-!
The two listings of a graph in JSON say the same. The one value has an object for each block of the graph, and the
lines have one for each block and, behind it, one for each of its instructions, with the same fields.
-/

namespace ReachableCode

namespace Json.Value

/-- The values of some fields of an object, if it has them all. -/
def fields? (keys : List String) : Value → Option (List Value)
  | object fields => keys.mapM fun key => (fields.find? (·.1 = key)).map (·.2)
  | _ => none

variable {p : Program} {b : Block} {a : Address} {i : Instruction} {labels : List String}

def blockKeys : List String :=
  ["start", "labels", "predecessors", "successors"]

/-- What is said of a block, under the keys for blocks. -/
def blockFacts (labels : List String) (b : Block) : List Value :=
  [string b.start.text, array (labels.map string), array (b.predecessors.toList.map fun a => string a.text),
    array (b.successors.toList.map fun a => string a.text)]

def instructionKeys : List String :=
  ["address", "size", "mnemonic", "operands", "bytes"]

/-- What is said of an instruction, under the keys for instructions. -/
def instructionFacts (a : Address) (i : Instruction) : List Value :=
  [string a.text, number i.encoding.length, string i.mnemonic, string i.operands, string i.bytesText]

theorem fields?_ofInstruction : (ofInstruction a i).fields? instructionKeys = some (instructionFacts a i) := by
  simp [fields?, ofInstruction, instructionKeys, instructionFacts, ofAddress]

theorem fields?_instructionLine : (instructionLine b a i).fields? instructionKeys = some (instructionFacts a i) := by
  simp [fields?, instructionLine, instructionKeys, instructionFacts, ofAddress]

theorem instructionLine_kind : (instructionLine b a i).fields? ["type", "block_start"] =
    some [string "instruction", string b.start.text] := by
  simp [fields?, instructionLine, ofAddress]

theorem exists_ofBlock (hl : p.labelsAt b.start = .ok labels) (hp : b.placed = .ok b.code) :
    ∃ v, ofBlock p b = .ok v ∧ v.fields? blockKeys = some (blockFacts labels b) ∧
      v.fields? ["instructions"] = some [array (b.code.map fun (a, d) => ofInstruction a d.instruction)] := by
  refine ⟨_, bind_eq_ok.2 ⟨labels, hl, bind_eq_ok.2 ⟨b.code, hp, rfl⟩⟩, ?_, ?_⟩
  · simp [fields?, blockKeys, blockFacts, ofAddress, ofAddresses, ofLabels]
  · simp [fields?]

theorem exists_blockLines (hl : p.labelsAt b.start = .ok labels) (hp : b.placed = .ok b.code) :
    ∃ v, blockLines p b = .ok (v :: b.code.map fun (a, d) => instructionLine b a d.instruction) ∧
      v.fields? blockKeys = some (blockFacts labels b) ∧ v.fields? ["type"] = some [string "block"] := by
  refine ⟨_, bind_eq_ok.2 ⟨labels, hl, bind_eq_ok.2 ⟨b.code, hp, rfl⟩⟩, ?_, ?_⟩
  · simp [fields?, blockKeys, blockFacts, ofAddress, ofAddresses, ofLabels]
  · simp [fields?]

end Json.Value

open Json (Value)

/-- What the two listings have for a block: an object in the one value, and in the lines an object for the block and
behind it those of its instructions. -/
structure BlockObjects where
  block : Block
  whole : Value
  head : Value
  rest : List Value

namespace BlockObjects

open Json.Value (blockKeys blockFacts instructionKeys instructionFacts)

/-- Both listings say of a block, and of its instructions in order, what is so. -/
structure Agrees (p : Program) (o : BlockObjects) : Prop where
  whole : ∃ labels, p.labelsAt o.block.start = .ok labels ∧
    o.whole.fields? blockKeys = some (blockFacts labels o.block)
  head : o.head.fields? blockKeys = o.whole.fields? blockKeys
  head_kind : o.head.fields? ["type"] = some [.string "block"]
  instructions : ∃ items, o.whole.fields? ["instructions"] = some [.array items] ∧
    (items.map fun item => item.fields? instructionKeys) =
      (o.block.code.map fun (a, d) => some (instructionFacts a d.instruction)) ∧
    (o.rest.map fun line => line.fields? instructionKeys) = items.map fun item => item.fields? instructionKeys
  rest_kind : ∀ line ∈ o.rest,
    line.fields? ["type", "block_start"] = some [.string "instruction", .string o.block.start.text]

/-- These are what is listed for the block. -/
structure Listed (p : Program) (o : BlockObjects) : Prop where
  whole : Value.ofBlock p o.block = .ok o.whole
  lines : Value.blockLines p o.block = .ok (o.head :: o.rest)
  length : o.rest.length = o.block.instructions.length
  agrees : o.Agrees p

theorem exists_listed {p : Program} {b : Block} {labels : List String} (hl : p.labelsAt b.start = .ok labels)
    (hp : b.placed = .ok b.code) : ∃ o : BlockObjects, o.block = b ∧ o.Listed p := by
  obtain ⟨whole, hw, facts, items⟩ := Value.exists_ofBlock hl hp
  obtain ⟨head, hh, same, kind⟩ := Value.exists_blockLines hl hp
  refine ⟨{ block := b, whole, head, rest := _ }, rfl, hw, hh, by simp [Block.code], ?_⟩
  exact
    { whole := ⟨labels, hl, facts⟩
      head := same.trans facts.symm
      head_kind := kind
      instructions := ⟨_, items, by simp [Function.comp_def, Value.fields?_ofInstruction],
        by simp [Function.comp_def, Value.fields?_ofInstruction, Value.fields?_instructionLine]⟩
      rest_kind := fun line h => by
        obtain ⟨_, -, rfl⟩ := List.mem_map.1 h
        exact Value.instructionLine_kind }

/-- The listings have a line for each block and one for each instruction. -/
theorem length_lines {p : Program} {objects : List BlockObjects} (h : ∀ o ∈ objects, o.Listed p) :
    (objects.flatMap fun o => o.head :: o.rest).length =
      objects.length + ((objects.map BlockObjects.block).flatMap Block.sites).length := by
  induction objects with
  | nil => rfl
  | cons o objects ih =>
    obtain ⟨he, h⟩ := List.forall_mem_cons.1 h
    simp only [List.flatMap_cons, List.map_cons, List.length_append, List.length_cons, he.length,
      Block.length_sites, ih h]
    omega

end BlockObjects

namespace BlockGraph

variable {g : BlockGraph} {p : Program} {objects : List BlockObjects}

theorem jsonListing_eq (hv : objects.map BlockObjects.block = g.blocks.values) (h : ∀ o ∈ objects, o.Listed p) :
    ∃ whole : Value, g.jsonListing p = .ok (whole.pretty 0) ∧
      whole.fields? ["blocks"] = some [.array (objects.map BlockObjects.whole)] := by
  have blocks : g.blocks.values.mapM (Value.ofBlock p) = .ok (objects.map BlockObjects.whole) := by
    rw [← hv, List.mapM_map]
    exact mapM_eq_ok_map fun o he => (h o he).whole
  refine ⟨_, bind_eq_ok.2 ⟨_, bind_eq_ok.2 ⟨_, blocks, rfl⟩, rfl⟩, ?_⟩
  cases p.entryPoint <;> simp [Value.fields?]

theorem jsonLines_eq (hv : objects.map BlockObjects.block = g.blocks.values) (h : ∀ o ∈ objects, o.Listed p) :
    g.jsonLines p =
      .ok (String.join (((objects.flatMap fun o => o.head :: o.rest).map Value.compact).map (· ++ "\n"))) := by
  have lines : g.blocks.values.mapM (Value.blockLines p) = .ok (objects.map fun o => o.head :: o.rest) := by
    rw [← hv, List.mapM_map]
    exact mapM_eq_ok_map fun o he => (h o he).lines
  refine bind_eq_ok.2 ⟨_, lines, ?_⟩
  rw [List.map_map, List.flatMap_def]
  rfl

end BlockGraph

namespace Explorer

variable {x : Explorer} {g : BlockGraph}

theorem Attainable.exists_objects (hg : x.Attainable g) : ∃ objects : List BlockObjects,
    objects.map BlockObjects.block = g.blocks.values ∧ ∀ o ∈ objects, o.Listed x.program := by
  have each : ∀ b ∈ g.blocks.values, b ∈ Set.range fun o : {o : BlockObjects // o.Listed x.program} => o.1.block := by
    intro b hb
    obtain ⟨s, hs⟩ := BlockGraph.mem_values.1 hb
    obtain ⟨place, hp⟩ := hg.exists_sectionAt hs
    rw [← hg.consistent.start_eq hs] at hp
    obtain ⟨o, rfl, he⟩ := BlockObjects.exists_listed (bind_eq_ok.2 ⟨_, hp, rfl⟩) (hg.consistent.placed_eq hb)
    exact ⟨⟨o, he⟩, rfl⟩
  obtain ⟨objects, hv⟩ := (Set.range_list_map _).ge each
  refine ⟨objects.map Subtype.val, by simpa [Function.comp_def] using hv, fun o he => ?_⟩
  obtain ⟨⟨o, listed⟩, -, rfl⟩ := List.mem_map.1 he
  exact listed

/-- Both listings of a graph are read back, each line on its own. They have the same facts of the same blocks and
instructions in the same order, and these are the blocks and instructions of the graph. -/
theorem json_listings_agree (hg : x.Attainable g) : ∃ (json : String) (whole : Value) (text : String)
    (lines : List String) (objects : List BlockObjects), g.jsonListing x.program = .ok json ∧
    Json.parse json = some whole ∧
    whole.fields? ["blocks"] = some [.array (objects.map BlockObjects.whole)] ∧
    g.jsonLines x.program = .ok text ∧ text = String.join (lines.map (· ++ "\n")) ∧
    (∀ line ∈ lines, '\n' ∉ line.toList) ∧ lines.length = g.blocks.size + g.instructionCount ∧
    lines.mapM Json.parse = some (objects.flatMap fun o => o.head :: o.rest) ∧
    g.ListsBlocks (objects.map BlockObjects.block) ∧ ∀ o ∈ objects, o.Agrees x.program := by
  obtain ⟨objects, hv, listed⟩ := hg.exists_objects
  obtain ⟨whole, hw, blocks⟩ := BlockGraph.jsonListing_eq hv listed
  have listsBlocks := hg.consistent.listsBlocks
  have count := hg.consistent.length_sites
  rw [← hv] at listsBlocks
  rw [BlockGraph.sites, ← hv] at count
  refine ⟨_, whole, _, _, objects, hw, Value.parse_pretty 0 whole, blocks, BlockGraph.jsonLines_eq hv listed, rfl,
    ?_, ?_, ?_, listsBlocks, fun o he => (listed o he).agrees⟩
  · intro line hl
    obtain ⟨v, -, rfl⟩ := List.mem_map.1 hl
    exact Value.lineFeed_not_mem_compact v
  · rw [List.length_map, BlockObjects.length_lines listed, ← listsBlocks.length, List.length_map, count]
  · have read : Json.parse ∘ Value.compact = pure := funext Value.parse_compact
    rw [List.mapM_map, read, List.mapM_pure, List.map_id']
    rfl

theorem special_texts_are_read_as_json : ∃ (g : BlockGraph) (text : String) (lines : List String)
    (block code : Value), specialTexts.explore .empty (.address 0x1000) = .ok g ∧
    g.jsonLines specialTexts.program = .ok text ∧
    text = String.join (lines.map (· ++ "\n")) ∧ lines.mapM Json.parse = some [block, code] ∧
    block.fields? ["start", "labels", "predecessors", "successors"] =
      some [.string "0x1000", .array [.string "\n"], .array [], .array []] ∧
    code.fields? ["address", "size", "mnemonic", "operands", "bytes"] =
      some [.string "0x1000", .number 1, .string "a,\"b\"\r\n", .string "", .string "00"] := by
  obtain ⟨g, b, d, he, one, -, hb, start, predecessors, successors, code, bytes, mnemonic, operands, bytesText⟩ :=
    specialTexts_run
  have hl : specialTexts.program.labelsAt 0x1000 = .ok ["\n"] := by cbv
  obtain ⟨-, -, text, lines, objects, -, -, -, ht, joined, -, -, parsed, blocks, agrees⟩ :=
    json_listings_agree (attainable_of_explore .empty he)
  obtain ⟨o, rfl⟩ := List.length_eq_one_iff.1 ((List.length_map _).symm.trans (blocks.length.trans one))
  obtain rfl := List.mem_singleton.1 ((blocks.mem_iff b).2 ⟨_, hb⟩)
  obtain ⟨⟨labels, hl', facts⟩, same, -, ⟨items, -, items_code, rest⟩, -⟩ := agrees o List.mem_cons_self
  rw [start] at hl'
  obtain rfl := Except.ok.inj (hl.symm.trans hl')
  have placed : o.block.code = [(0x1000, d)] := by
    have has : o.block.Has 0x1000 d := Block.has_iff.2 ⟨[], [], code, Block.spans_nil.2 start⟩
    have one : o.block.code.length = 1 := by
      simp [Block.code, Block.places, code]
    obtain ⟨i, single⟩ := List.length_eq_one_iff.1 one
    have mem := (blocks.mem_code_iff o.block (List.mem_map_of_mem List.mem_cons_self) 0x1000 d).2 has
    rw [single] at mem ⊢
    rw [List.mem_singleton.1 mem]
  rw [items_code, placed, List.map_singleton, List.map_eq_singleton_iff] at rest
  obtain ⟨line, rest, line_facts⟩ := rest
  have address : (0x1000 : Address).text = "0x1000" := by cbv
  refine ⟨g, text, lines, o.head, line, he, ht, joined, by simpa [rest] using parsed, same.trans (facts.trans ?_),
    line_facts.trans ?_⟩
  · simp [Value.blockFacts, start, address, predecessors, successors]
  · simp [Value.instructionFacts, address, bytes, mnemonic, operands, bytesText]

end Explorer

end ReachableCode
