import ReachableCode.Listing.Csv
import ReachableCode.Listing.Json
import ReachableCode.Listing.Line

/-!
The formats of listings and their names.
-/

namespace ReachableCode

inductive Format where
  | text | json | jsonLines | csv
  deriving DecidableEq, Repr, Inhabited

namespace Format

def all : List Format :=
  [text, json, jsonLines, csv]

def name : Format → String
  | text => "text"
  | json => "json"
  | jsonLines => "jsonl"
  | csv => "csv"

/-- The name of a format as the value of an option. -/
def optionName : Format → String
  | text => "text"
  | json => "json"
  | jsonLines => "json-lines"
  | csv => "csv"

/-- The wording for a name that no format has. -/
def unknownMessage (name : String) : String :=
  "Unknown output format: " ++ name

/-- The format of a name in any case. No letter outside ASCII has a lower case that occurs in a
name. -/
def ofName? (name : String) : Option Format :=
  match name.map Char.toLower with
  | "text" => some text
  | "json" => some json
  | "jsonl" | "jsonlines" => some jsonLines
  | "csv" => some csv
  | _ => none

/-- The format of an option value; the case of ASCII letters counts unless it is to be ignored. -/
def ofOption? (value : String) (ignoreCase : Bool) : Option Format :=
  let folded (s : String) := if ignoreCase then s.map Char.toLower else s
  all.find? fun f => folded f.optionName = folded value

end Format

/-- The listing of a graph in a format. -/
def BlockGraph.listing (g : BlockGraph) (p : Program) : Format → Except Fault String
  | .text => g.textListing p
  | .json => g.jsonListing p
  | .jsonLines => g.jsonLines p
  | .csv => g.csvListing

end ReachableCode
