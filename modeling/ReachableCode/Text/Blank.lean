/-!
White space as the Unicode property `White_Space` has it, and the text operations that depend on
it: dropping blanks at the end, and the last word of a text.
-/

namespace ReachableCode.Blank

/-- The ranges of code points with the property `White_Space`, ends included. -/
def ranges : List (Nat × Nat) :=
  [(0x9, 0xd), (0x20, 0x20), (0x85, 0x85), (0xa0, 0xa0), (0x1680, 0x1680), (0x2000, 0x200a),
    (0x2028, 0x2029), (0x202f, 0x202f), (0x205f, 0x205f), (0x3000, 0x3000)]

def isBlank (c : Char) : Bool :=
  ranges.any fun r => r.1 ≤ c.toNat && c.toNat ≤ r.2

/-- A text without the blanks at its end. -/
def trimRight (s : String) : String :=
  String.ofList (s.toList.reverse.dropWhile isBlank).reverse

/-- The last word of a text, words being parted by blanks; none when all of it is blank. -/
def lastWord? (s : String) : Option String :=
  match (s.toList.reverse.dropWhile isBlank).takeWhile (!isBlank ·) with
  | [] => none
  | cs => some (String.ofList cs.reverse)

/-- A text followed by as many spaces as make up `width` characters; a longer text is not cut. -/
def padRight (width : Nat) (s : String) : String :=
  s ++ String.ofList (List.replicate (width - s.length) ' ')

end ReachableCode.Blank
