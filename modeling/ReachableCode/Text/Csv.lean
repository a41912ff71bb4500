/-!
Comma-separated values. A field that holds a comma, a quote or a line break is quoted, and a quote
inside a quoted field is written twice. Every row ends with a line feed.
-/

namespace ReachableCode.Csv

def isSpecial (c : Char) : Bool :=
  c = ',' ∨ c = '"' ∨ c = '\n' ∨ c = '\r'

/-- A character inside a quoted field. -/
def double (c : Char) : List Char :=
  if c = '"' then ['"', '"'] else [c]

def field (s : String) : String :=
  if s.toList.any isSpecial then "\"" ++ String.ofList (s.toList.flatMap double) ++ "\"" else s

/-- One row of two or more fields. -/
def row (fields : List String) : String :=
  ",".intercalate (fields.map field) ++ "\n"

end ReachableCode.Csv
