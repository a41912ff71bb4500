/-!
How an integer lies in memory: its width with its signedness, and its byte order. `Width.valueOf`
reads the bytes of one integer, the least significant first.
-/

namespace ReachableCode

/-- Width in bits and signedness of an integer in memory. -/
inductive Width where
  | u8 | i8 | u16 | i16 | u32 | i32 | u64 | i64
  deriving DecidableEq, Hashable, Ord, Repr

namespace Width

def bytes : Width → Nat
  | u8 | i8 => 1
  | u16 | i16 => 2
  | u32 | i32 => 4
  | u64 | i64 => 8

def bits (w : Width) : Nat :=
  8 * w.bytes

/-- Whether the top bit is a sign. -/
def isSigned : Width → Bool
  | i8 | i16 | i32 | i64 => true
  | u8 | u16 | u32 | u64 => false

/-- The unsigned width of a size in bytes, if there is one. -/
def unsigned? : Nat → Option Width
  | 1 => some u8
  | 2 => some u16
  | 4 => some u32
  | 8 => some u64
  | _ => none

/-- The signed width of the same size. -/
def signed : Width → Width
  | u8 | i8 => i8
  | u16 | i16 => i16
  | u32 | i32 => i32
  | u64 | i64 => i64

/-- `u` or `i` and the size in bits. -/
def name (w : Width) : String :=
  (if w.isSigned then "i" else "u") ++ toString w.bits

/-- The number that bytes denote when the first of them is the least significant. -/
def magnitude : List UInt8 → Nat
  | [] => 0
  | b :: rest => b.toNat + 256 * magnitude rest

def count (w : Width) : Nat :=
  1 <<< w.bits

/-- The integer that `w.bytes` bytes denote, least significant first. Signed widths are read in
two's complement, and a value from `2 ^ 63` on is taken modulo `2 ^ 64`. -/
def valueOf (w : Width) (bytes : List UInt8) : Int64 :=
  let n := magnitude bytes
  if w.isSigned ∧ w.count ≤ 2 * n then Int64.ofInt (n - w.count) else Int64.ofInt n

end Width

/-- Which end of an integer comes first in memory. -/
inductive ByteOrder where
  | little | big
  deriving DecidableEq, Hashable, Ord, Repr, Inhabited

namespace ByteOrder

def name : ByteOrder → String
  | little => "le"
  | big => "be"

/-- Bytes as they lie in memory, with the least significant one first. -/
def leastFirst : ByteOrder → List UInt8 → List UInt8
  | little, bytes => bytes
  | big, bytes => bytes.reverse

end ByteOrder

end ReachableCode
