/-!
Hexadecimal text. `Hex.digits` writes a number with lower-case digits and no leading zero, and
`Hex.parse?` reads a number of at most 64 bits back, saying what is wrong with any other text.
-/

namespace ReachableCode.Hex

/-- The lower-case digit of a value below sixteen. -/
def digit (n : Nat) : Char :=
  Char.ofNat (if n < 10 then 48 + n else 87 + n)

/-- The digits of `n`, most significant first; zero has the one digit `0`. -/
def digitList (n : Nat) : List Char :=
  if n < 16 then [digit n] else digitList (n / 16) ++ [digit (n % 16)]

def digits (n : Nat) : String :=
  String.ofList (digitList n)

/-- `0x` and the digits of `n`. -/
def prefixed (n : Nat) : String :=
  "0x" ++ digits n

/-- The digits of `n` after as many zeros as make up `width` digits; a longer number is not cut. -/
def padded (width n : Nat) : String :=
  String.ofList (List.replicate (width - (digitList n).length) '0' ++ digitList n)

def byte (b : UInt8) : String :=
  padded 2 b.toNat

/-- The value of a digit of either case. -/
def value? (c : Char) : Option Nat :=
  if '0' ≤ c ∧ c ≤ '9' then some (c.toNat - 48)
  else if 'a' ≤ c ∧ c ≤ 'f' then some (c.toNat - 87)
  else if 'A' ≤ c ∧ c ≤ 'F' then some (c.toNat - 55)
  else none

/-- Why a text is no number. -/
inductive Malformed where
  | empty
  | invalidDigit
  | tooLarge
  deriving DecidableEq, Repr

def Malformed.message : Malformed → String
  | .empty => "cannot parse integer from empty string"
  | .invalidDigit => "invalid digit found in string"
  | .tooLarge => "number too large to fit in target type"

/-- Reads digits from left to right onto `acc`. The first digit that is invalid or that carries the
value past 64 bits decides the cause. -/
def parseDigits (acc : Nat) : List Char → Except Malformed UInt64
  | [] => .ok (UInt64.ofNat acc)
  | c :: rest =>
    match value? c with
    | none => .error .invalidDigit
    | some d => if acc * 16 + d < UInt64.size then parseDigits (acc * 16 + d) rest else .error .tooLarge

/-- Reads a 64-bit number: one optional plus sign, then at least one digit. -/
def parse (s : String) : Except Malformed UInt64 :=
  match s.toList with
  | [] => .error .empty
  | ['+'] | ['-'] => .error .invalidDigit
  | '+' :: rest => parseDigits 0 rest
  | cs => parseDigits 0 cs

end ReachableCode.Hex
