import ReachableCode.Text.Hex

/-!
JSON text. A value is written on one line without spaces, or over several lines with two spaces for
each level. Only quotes, backslashes and control characters are escaped.
-/

namespace ReachableCode.Json

/-- The JSON values that listings are made of. Objects keep the order of their fields. -/
inductive Value where
  | string (s : String)
  | number (n : Nat)
  | array (items : List Value)
  | object (fields : List (String × Value))

def escape (c : Char) : List Char :=
  if c = '"' then ['\\', '"']
  else if c = '\\' then ['\\', '\\']
  else if c = '\x08' then ['\\', 'b']
  else if c = '\x0c' then ['\\', 'f']
  else if c = '\n' then ['\\', 'n']
  else if c = '\r' then ['\\', 'r']
  else if c = '\t' then ['\\', 't']
  else if c.toNat < 32 then '\\' :: 'u' :: (Hex.padded 4 c.toNat).toList
  else [c]

def quote (s : String) : String :=
  "\"" ++ String.ofList (s.toList.flatMap escape) ++ "\""

namespace Value

mutual

def compact : Value → String
  | string s => quote s
  | number n => toString n
  | array items => "[" ++ ",".intercalate (compactItems items) ++ "]"
  | object fields => "\x7b" ++ ",".intercalate (compactFields fields) ++ "\x7d"

/-- Each item of an array on one line. -/
def compactItems : List Value → List String
  | [] => []
  | v :: rest => v.compact :: compactItems rest

/-- Each field of an object on one line. -/
def compactFields : List (String × Value) → List String
  | [] => []
  | (key, v) :: rest => (quote key ++ ":" ++ v.compact) :: compactFields rest

end

/-- Items between brackets, each on a line of its own that is indented to `level + 1`. -/
def enclose (level : Nat) (left right : String) (items : List String) : String :=
  if items.isEmpty then left ++ right
  else
    let indent (n : Nat) := "\n" ++ String.ofList (List.replicate (2 * n) ' ')
    left ++ ",".intercalate (items.map (indent (level + 1) ++ ·)) ++ indent level ++ right

mutual

/-- A value over several lines, the first of which is already indented to `level`. -/
def pretty (level : Nat) : Value → String
  | string s => quote s
  | number n => toString n
  | array items => enclose level "[" "]" (prettyItems (level + 1) items)
  | object fields => enclose level "\x7b" "\x7d" (prettyFields (level + 1) fields)

/-- Each item of an array over several lines. -/
def prettyItems (level : Nat) : List Value → List String
  | [] => []
  | v :: rest => v.pretty level :: prettyItems level rest

/-- Each field of an object over several lines. -/
def prettyFields (level : Nat) : List (String × Value) → List String
  | [] => []
  | (key, v) :: rest => (quote key ++ ": " ++ v.pretty level) :: prettyFields level rest

end

end Value

end ReachableCode.Json
