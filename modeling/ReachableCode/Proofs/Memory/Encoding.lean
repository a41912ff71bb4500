import ReachableCode.Expr.Width

/-!
Integers as bytes. The bytes of an integer are those of its two's complement, as many as its width has; a
width holds as many integers as its bytes can tell apart, so that reading bytes finds the one integer they are
the encoding of. The same integer comes out when the bytes are put together in a word by shifts, in the order
in which they lie in memory, and the bits above a negative one are set.
-/

namespace ReachableCode

/-- The lowest bytes of an integer in two's complement, the least significant first. -/
def lowBytes : Nat → Int → List UInt8
  | 0, _ => []
  | count + 1, n => UInt8.ofNat (n % 256).toNat :: lowBytes count (n / 256)

namespace Width

/-- The integers that a width has an encoding for. The signed ones reach from minus one half of their count up
to one half of it. -/
def Holds (w : Width) (n : Int) : Prop :=
  if w.isSigned then -w.count ≤ 2 * n ∧ 2 * n < w.count else 0 ≤ n ∧ n < w.count

/-- The bytes of an integer as they lie in memory. -/
def encode (w : Width) : ByteOrder → Int → List UInt8
  | .little, n => lowBytes w.bytes n
  | .big, n => (lowBytes w.bytes n).reverse

/-- Sets the bits above a signed width if its top bit is set. -/
def extend (w : Width) (v : UInt64) : UInt64 :=
  if w.isSigned ∧ w.bits < 64 ∧ v >>> UInt64.ofNat (w.bits - 1) &&& 1 = 1 then v ||| -1 <<< UInt64.ofNat w.bits
  else v

end Width

/-- Puts bytes together in a word: the first is put below the next ones, or above them. -/
def ByteOrder.word : ByteOrder → List UInt8 → UInt64
  | little, bytes => bytes.zipIdx.foldl (fun v (b, i) => v ||| b.toUInt64 <<< UInt64.ofNat (8 * i)) 0
  | big, bytes => bytes.foldl (fun v b => v <<< 8 ||| b.toUInt64) 0

variable {w : Width} {o : ByteOrder} {b : UInt8} {bytes rest : List UInt8} {m n : Int} {k : Nat} {v : UInt64}

/-! ### Bytes and the numbers they denote -/

theorem shiftLeft_succ_byte : 1 <<< (8 * (k + 1)) = 256 * 1 <<< (8 * k) := by
  rw [Nat.mul_succ, Nat.shiftLeft_add, Nat.shiftLeft_eq _ 8]
  omega

theorem shiftLeft_byte_le (h : k ≤ 8) : 1 <<< (8 * k) ≤ UInt64.size := by
  rw [Nat.one_shiftLeft]
  exact Nat.pow_le_pow_right (by decide) (Nat.mul_le_mul_left 8 h)

theorem length_lowBytes : (lowBytes k n).length = k := by
  induction k generalizing n with
  | zero => rfl
  | succ k ih => rw [lowBytes, List.length_cons, ih]

namespace Width

theorem magnitude_lt (bytes : List UInt8) : magnitude bytes < 1 <<< (8 * bytes.length) := by
  induction bytes with
  | nil => decide
  | cons b rest ih =>
    have byte := b.toNat_lt
    rw [magnitude, List.length_cons, shiftLeft_succ_byte]
    omega

theorem magnitude_append :
    magnitude (bytes ++ rest) = magnitude bytes + 1 <<< (8 * bytes.length) * magnitude rest := by
  induction bytes with
  | nil => simp [magnitude]
  | cons b bytes ih =>
    rw [List.cons_append, magnitude, magnitude, ih, List.length_cons, shiftLeft_succ_byte, Nat.mul_add,
      Nat.add_assoc, Nat.mul_assoc]

theorem magnitude_leastFirst_lt (length : bytes.length = w.bytes) : magnitude (o.leastFirst bytes) < w.count := by
  have same : (o.leastFirst bytes).length = w.bytes := by
    cases o with
    | little => exact length
    | big => exact List.length_reverse.trans length
  have below := magnitude_lt (o.leastFirst bytes)
  rwa [same] at below

/-- The lowest byte of an integer tells its remainder by 256, and the bytes above it those of the quotient. -/
theorem emod_byte_mul (positive : 0 < m) : n % (256 * m) = n % 256 + 256 * (n / 256 % m) := by
  have low := Int.emod_add_mul_ediv n 256
  have high := Int.emod_add_mul_ediv (n / 256) m
  have nonneg := Int.emod_nonneg (n / 256) (Int.ne_of_gt positive)
  have small := Int.emod_lt_of_pos (n / 256) positive
  have parts : n = n % 256 + 256 * (n / 256 % m) + 256 * m * (n / 256 / m) := by
    rw [Int.mul_assoc]
    omega
  calc n % (256 * m) = (n % 256 + 256 * (n / 256 % m)) % (256 * m) := by
        conv => lhs; rw [parts]
        exact Int.add_mul_emod_self_left _ _ _
    _ = n % 256 + 256 * (n / 256 % m) := Int.emod_eq_of_lt (by omega) (by omega)

/-- The low bytes denote the integer modulo the number of integers that they can tell apart. -/
theorem magnitude_lowBytes : (magnitude (lowBytes k n) : Int) = n % (1 <<< (8 * k) : Nat) := by
  induction k generalizing n with
  | zero => exact (Int.emod_one n).symm
  | succ k ih =>
    have low : ((UInt8.ofNat (n % 256).toNat).toNat : Int) = n % 256 := by
      rw [UInt8.toNat_ofNat_of_lt' (by show _ < 256; omega)]
      omega
    have positive : (0 : Int) < (1 <<< (8 * k) : Nat) := by
      rw [Nat.one_shiftLeft]
      exact Int.natCast_pos.2 (Nat.two_pow_pos _)
    rw [lowBytes, magnitude, shiftLeft_succ_byte, Int.natCast_add, Int.natCast_mul, Int.natCast_mul, low, ih]
    exact (emod_byte_mul positive).symm

theorem eq_of_magnitude_eq (length : bytes.length = rest.length) (h : magnitude bytes = magnitude rest) :
    bytes = rest := by
  induction bytes generalizing rest with
  | nil => exact (List.eq_nil_of_length_eq_zero length.symm).symm
  | cons b bytes ih =>
    cases rest with
    | nil => cases length
    | cons r rest =>
      have := b.toNat_lt
      have := r.toNat_lt
      rw [magnitude, magnitude] at h
      have head : b = r := UInt8.toNat_inj.1 (by omega)
      rw [head, ih (Nat.succ.inj length) (by omega)]

theorem lowBytes_eq_iff (length : bytes.length = k) :
    lowBytes k n = bytes ↔ n % (1 <<< (8 * k) : Nat) = magnitude bytes := by
  rw [← magnitude_lowBytes]
  constructor
  · intro h
    rw [h]
  · intro h
    exact eq_of_magnitude_eq (length_lowBytes.trans length.symm) (Int.natCast_inj.1 h)

/-! ### The integers of a width -/

/-- Bytes encode the integers that are congruent to the number they denote, and no others. -/
theorem encode_eq_iff (length : bytes.length = w.bytes) :
    w.encode o n = bytes ↔ n % w.count = magnitude (o.leastFirst bytes) := by
  cases o with
  | little => exact lowBytes_eq_iff length
  | big =>
    rw [encode, List.reverse_eq_iff]
    exact lowBytes_eq_iff (List.length_reverse.trans length)

theorem length_encode : (w.encode o n).length = w.bytes := by
  cases o with
  | little => exact length_lowBytes
  | big => exact List.length_reverse.trans length_lowBytes

/-- Of the integers that a width holds, no two are congruent. -/
theorem Holds.unique (hm : w.Holds m) (hn : w.Holds n) (congruent : m % w.count = n % w.count) : m = n := by
  have near : (m - n).natAbs < (w.count : Int).natAbs := by
    unfold Holds at hm hn
    split at hm
    next sign =>
      rw [if_pos sign] at hn
      omega
    next sign =>
      rw [if_neg sign] at hn
      omega
  have divides := Int.dvd_of_emod_eq_zero (Int.emod_eq_emod_iff_emod_sub_eq_zero.1 congruent)
  exact Int.eq_of_sub_eq_zero (Int.eq_zero_of_dvd_of_natAbs_lt_natAbs divides near)

/-- Of the integers that a width holds, one is congruent to a number below their count, and it is the value. -/
theorem exists_holds (below : magnitude bytes < w.count) :
    ∃ n, w.Holds n ∧ n % w.count = magnitude bytes ∧ w.valueOf bytes = .ofInt n := by
  have whole : (magnitude bytes : Int) % w.count = magnitude bytes :=
    Int.emod_eq_of_lt (Int.natCast_nonneg _) (Int.ofNat_lt.2 below)
  unfold Holds valueOf
  by_cases negative : w.isSigned = true ∧ w.count ≤ 2 * magnitude bytes
  · refine ⟨magnitude bytes - w.count, ?_, by rw [Int.sub_emod_right, whole], if_pos negative⟩
    rw [if_pos negative.1]
    omega
  · refine ⟨magnitude bytes, ?_, whole, if_neg negative⟩
    split
    next sign =>
      have := Nat.not_le.1 fun h => negative ⟨sign, h⟩
      omega
    · omega

/-- Bytes are the encoding of one integer that the width holds, and it is their value. -/
theorem exists_encoded (o : ByteOrder) (length : bytes.length = w.bytes) :
    ∃ n, w.Holds n ∧ w.encode o n = bytes ∧ w.valueOf (o.leastFirst bytes) = .ofInt n ∧
      ∀ m, w.Holds m → w.encode o m = bytes → m = n := by
  obtain ⟨n, hn, congruent, value⟩ := exists_holds (magnitude_leastFirst_lt (o := o) length)
  refine ⟨n, hn, (encode_eq_iff length).2 congruent, value, fun m hm encoded => ?_⟩
  exact hm.unique hn (((encode_eq_iff length).1 encoded).trans congruent.symm)

end Width

/-! ### Bytes in a word -/

namespace ByteOrder

theorem toNat_ofNat_mod (hk : k < 64) : (UInt64.ofNat k).toNat % 64 = k := by
  rw [UInt64.toNat_ofNat_of_lt' (Nat.lt_trans hk (by decide)), Nat.mod_eq_of_lt hk]

/-- A byte is put above those that are there. -/
theorem toNat_or_shiftLeft (hv : v.toNat < 1 <<< (8 * k)) (hk : k + 1 ≤ 8) :
    (v ||| b.toUInt64 <<< UInt64.ofNat (8 * k)).toNat = v.toNat + 1 <<< (8 * k) * b.toNat := by
  have byte := b.toNat_lt
  have room := shiftLeft_byte_le hk
  rw [shiftLeft_succ_byte] at room
  have shifted : b.toNat <<< (8 * k) = 1 <<< (8 * k) * b.toNat := by
    rw [Nat.shiftLeft_eq, Nat.one_shiftLeft, Nat.mul_comm]
  have fits : b.toNat <<< (8 * k) < UInt64.size := by
    rw [shifted]
    calc 1 <<< (8 * k) * b.toNat < 1 <<< (8 * k) * 256 := Nat.mul_lt_mul_of_pos_left byte (Nat.zero_lt_of_lt hv)
      _ ≤ UInt64.size := by omega
  rw [UInt64.toNat_or, UInt64.toNat_shiftLeft, UInt8.toNat_toUInt64, toNat_ofNat_mod (by omega),
    Nat.mod_eq_of_lt fits, Nat.or_comm, ← Nat.shiftLeft_add_eq_or_of_lt (Nat.one_shiftLeft (8 * k) ▸ hv), shifted,
    Nat.add_comm]

/-- The bytes that are there are moved up, and a byte is put below them. -/
theorem toNat_shiftLeft_or (hv : v.toNat < 1 <<< (8 * k)) (hk : k + 1 ≤ 8) :
    (v <<< 8 ||| b.toUInt64).toNat = 256 * v.toNat + b.toNat := by
  have byte := b.toNat_lt
  have room := shiftLeft_byte_le hk
  rw [shiftLeft_succ_byte] at room
  have shifted : v.toNat <<< 8 = 256 * v.toNat := by
    rw [Nat.shiftLeft_eq, Nat.mul_comm]
  have fits : v.toNat <<< 8 < UInt64.size := by
    rw [shifted]
    omega
  rw [UInt64.toNat_or, UInt64.toNat_shiftLeft, UInt8.toNat_toUInt64, show (8 : UInt64).toNat % 64 = 8 from rfl,
    Nat.mod_eq_of_lt fits, ← Nat.shiftLeft_add_eq_or_of_lt byte, shifted]

theorem toNat_little (hv : v.toNat < 1 <<< (8 * k)) (length : k + bytes.length ≤ 8) :
    ((bytes.zipIdx k).foldl (fun v (b, i) => v ||| b.toUInt64 <<< UInt64.ofNat (8 * i)) v).toNat =
      v.toNat + 1 <<< (8 * k) * Width.magnitude bytes := by
  induction bytes generalizing k v with
  | nil => rfl
  | cons b bytes ih =>
    rw [List.length_cons] at length
    have put := toNat_or_shiftLeft (b := b) hv (by omega)
    have small : (v ||| b.toUInt64 <<< UInt64.ofNat (8 * k)).toNat < 1 <<< (8 * (k + 1)) := by
      rw [put, shiftLeft_succ_byte]
      calc v.toNat + 1 <<< (8 * k) * b.toNat < 1 <<< (8 * k) + 1 <<< (8 * k) * b.toNat := Nat.add_lt_add_right hv _
        _ = 1 <<< (8 * k) * (b.toNat + 1) := by rw [Nat.mul_add, Nat.mul_one, Nat.add_comm]
        _ ≤ 1 <<< (8 * k) * 256 := Nat.mul_le_mul_left _ b.toNat_lt
        _ = 256 * 1 <<< (8 * k) := Nat.mul_comm _ _
    rw [List.zipIdx_cons, List.foldl_cons, ih small (by omega), put, shiftLeft_succ_byte, Width.magnitude,
      Nat.mul_add, Nat.add_assoc]
    congr 2
    rw [Nat.mul_comm 256, Nat.mul_assoc]

theorem toNat_big (hv : v.toNat < 1 <<< (8 * k)) (length : k + bytes.length ≤ 8) :
    (bytes.foldl (fun (v : UInt64) b => v <<< 8 ||| b.toUInt64) v).toNat =
      1 <<< (8 * bytes.length) * v.toNat + Width.magnitude bytes.reverse := by
  induction bytes generalizing k v with
  | nil => simp [Width.magnitude]
  | cons b bytes ih =>
    rw [List.length_cons] at length
    have put := toNat_shiftLeft_or (b := b) hv (by omega)
    have small : (v <<< 8 ||| b.toUInt64).toNat < 1 <<< (8 * (k + 1)) := by
      have byte := b.toNat_lt
      rw [put, shiftLeft_succ_byte]
      omega
    rw [List.foldl_cons, ih small (by omega), put, List.reverse_cons, Width.magnitude_append, List.length_reverse,
      List.length_cons, shiftLeft_succ_byte, Nat.mul_add, Nat.add_assoc]
    congr 1
    · rw [Nat.mul_comm 256 (1 <<< _), Nat.mul_assoc]
    · rw [Width.magnitude, Width.magnitude, Nat.mul_zero, Nat.add_zero, Nat.add_comm]

/-- Shifts in either order give the number that the bytes denote. -/
theorem toNat_word (o : ByteOrder) (length : bytes.length ≤ 8) :
    (o.word bytes).toNat = Width.magnitude (o.leastFirst bytes) := by
  have zero : (0 : UInt64).toNat < 1 <<< (8 * 0) := by decide
  cases o with
  | little =>
    rw [word, toNat_little zero (by omega)]
    simp [leastFirst]
  | big =>
    rw [word, toNat_big zero (by omega : 0 + bytes.length ≤ 8)]
    simp [leastFirst]

end ByteOrder

/-! ### Signs -/

theorem toInt64_eq_ofInt (v : UInt64) : v.toInt64 = .ofInt v.toNat := by
  rw [← Int64.toBitVec_inj, UInt64.toBitVec_toInt64, Int64.toBitVec_ofInt, BitVec.ofInt_natCast]
  exact (BitVec.ofNat_toNat 64 v.toBitVec).symm

theorem ofInt_add_size (n : Int) : Int64.ofInt (n + UInt64.size) = .ofInt n := by
  rw [← Int64.toBitVec_inj, Int64.toBitVec_ofInt, Int64.toBitVec_ofInt]
  apply BitVec.eq_of_toInt_eq
  rw [BitVec.toInt_ofInt, BitVec.toInt_ofInt]
  exact Int.add_bmod_right n UInt64.size

/-- The top bit is set in the upper half of the numbers. -/
theorem top_bit_iff (hk : k < 64) (below : v.toNat < 2 * 1 <<< k) :
    v >>> UInt64.ofNat k &&& 1 = 1 ↔ 1 <<< k ≤ v.toNat := by
  have positive : 0 < 1 <<< k := Nat.one_shiftLeft k ▸ Nat.two_pow_pos k
  have half : v.toNat / 1 <<< k < 2 := Nat.div_lt_of_lt_mul (by omega)
  rw [← UInt64.toNat_inj, UInt64.toNat_and, UInt64.toNat_shiftRight, ByteOrder.toNat_ofNat_mod hk,
    Nat.shiftRight_eq_div_pow, ← Nat.one_shiftLeft, ← Nat.one_le_div_iff positive]
  show v.toNat / 1 <<< k &&& 1 = 1 ↔ _
  rw [Nat.and_one_is_mod]
  generalize v.toNat / 1 <<< k = q at half ⊢
  omega

theorem toNat_ones : ∀ k < 64, (-1 <<< UInt64.ofNat k : UInt64).toNat = (1 <<< (64 - k) - 1) <<< k ∧
    (1 <<< (64 - k) - 1) <<< k = UInt64.size - 1 <<< k := by
  decide

/-- Ones above the bits of a number add what is missing there to the number of all words. -/
theorem toNat_or_ones (hk : k < 64) (below : v.toNat < 1 <<< k) :
    (v ||| -1 <<< UInt64.ofNat k).toNat = v.toNat + (UInt64.size - 1 <<< k) := by
  obtain ⟨ones, rest⟩ := toNat_ones k hk
  rw [UInt64.toNat_or, ones, Nat.or_comm, ← Nat.shiftLeft_add_eq_or_of_lt (Nat.one_shiftLeft k ▸ below), rest,
    Nat.add_comm]

namespace Width

/-- Setting the bits above a signed width whose top bit is set gives the negative integer. -/
theorem toInt64_extend (below : v.toNat < w.count) : (w.extend v).toInt64 =
    if w.isSigned ∧ w.count ≤ 2 * v.toNat then .ofInt (v.toNat - w.count) else .ofInt v.toNat := by
  have half : w.count = 2 * 1 <<< (w.bits - 1) := by cases w <;> rfl
  have top := top_bit_iff (k := w.bits - 1) (v := v) (by cases w <;> decide) (half ▸ below)
  unfold extend
  by_cases narrow : w.bits < 64
  · by_cases negative : w.isSigned = true ∧ w.count ≤ 2 * v.toNat
    · have count : w.count < UInt64.size := by
        rw [Width.count, Nat.one_shiftLeft]
        exact Nat.pow_lt_pow_right (by decide) narrow
      rw [if_pos ⟨negative.1, narrow, top.2 (by omega)⟩, if_pos negative, toInt64_eq_ofInt,
        toNat_or_ones narrow below,
        ← ofInt_add_size (v.toNat - w.count)]
      congr 1
      show ((v.toNat + (UInt64.size - w.count) : Nat) : Int) = _
      omega
    · rw [if_neg fun h => negative ⟨h.1, by have := top.1 h.2.2; omega⟩, if_neg negative, toInt64_eq_ofInt]
  · -- all 64 bits are there, and the negative integers are those that wrap
    have full : w.count = UInt64.size := by cases w <;> first | rfl | exact absurd (by decide) narrow
    rw [if_neg fun h => narrow h.2.1, toInt64_eq_ofInt]
    split
    · rw [← ofInt_add_size (_ - _), full, Int.sub_add_cancel]
    · rfl

/-- Shifts and the bits above give the value of the bytes. -/
theorem extend_word (o : ByteOrder) (length : bytes.length = w.bytes) :
    (w.extend (o.word bytes)).toInt64 = w.valueOf (o.leastFirst bytes) := by
  have short : bytes.length ≤ 8 := by
    rw [length]
    cases w <;> decide
  have word := o.toNat_word short
  have below := magnitude_leastFirst_lt (o := o) length
  rw [toInt64_extend (word ▸ below), word, valueOf]

end Width

end ReachableCode
