import ReachableCode.Image.Bytes
import ReachableCode.Fault
import ReachableCode.Proofs.Memory.Encoding

/-!
What can be read from an image: slices of it, each with the size that was asked for, and numbers below the
bound that their size sets.
-/

namespace ReachableCode

namespace Image

/-- The bytes are those of a contiguous range of the image, which may be empty. -/
def IsSliceOf (s b : Image) : Prop :=
  ∃ offset size, offset + size ≤ b.size ∧ s = b.extract offset (offset + size)

variable {b s t r : Image} {o : ByteOrder} {offset size start count n : Nat}

theorem slice?_eq_some :
    b.slice? offset size = some s ↔ offset + size ≤ b.size ∧ b.extract offset (offset + size) = s := by
  unfold slice?
  by_cases fits : offset + size ≤ b.size
  · rw [if_pos fits, Option.some.injEq, and_iff_right fits]
  · rw [if_neg fits]
    exact ⟨nofun, fun h => absurd h.1 fits⟩

theorem isSliceOf_of_slice? (h : b.slice? offset size = some s) : s.IsSliceOf b := by
  obtain ⟨fits, rfl⟩ := slice?_eq_some.1 h
  exact ⟨offset, size, fits, rfl⟩

theorem size_of_slice? (h : b.slice? offset size = some s) : s.size = size := by
  obtain ⟨fits, rfl⟩ := slice?_eq_some.1 h
  rw [Array.size_extract]
  omega

theorem isSliceOf_empty : IsSliceOf #[] b :=
  ⟨0, 0, Nat.zero_le _, by simp⟩

theorem IsSliceOf.trans (hs : s.IsSliceOf t) (ht : t.IsSliceOf b) : s.IsSliceOf b := by
  obtain ⟨i, n, fits, rfl⟩ := hs
  obtain ⟨j, m, inside, rfl⟩ := ht
  rw [Array.size_extract] at fits
  refine ⟨j + i, n, by omega, ?_⟩
  rw [Array.extract_extract]
  congr 1
  omega

/-- A number has no more bytes than are read for it. -/
theorem uint_lt (b : Image) (o : ByteOrder) (size offset : Nat) : b.uint o size offset < 1 <<< (8 * size) := by
  have read : (o.leastFirst (b.extract offset (offset + size)).toList).length = min size (b.size - offset) := by
    cases o <;> simp [ByteOrder.leastFirst]
  have short := Nat.le_trans (Nat.le_of_eq read) (Nat.min_le_left _ _)
  refine Nat.lt_of_lt_of_le (Width.magnitude_lt _) ?_
  rw [Nat.one_shiftLeft, Nat.one_shiftLeft]
  exact Nat.pow_le_pow_right (by decide) (Nat.mul_le_mul_left 8 short)

end Image

namespace Layout

theorem octet_lt (l : Layout) (r : Image) (offset : Nat) : l.octet r offset < Address.count :=
  r.uint_lt l.order 8 offset

theorem quad_lt (l : Layout) (r : Image) (offset : Nat) : l.quad r offset < Address.count :=
  Nat.lt_of_lt_of_le (r.uint_lt l.order 4 offset) (by decide)

theorem word_lt (l : Layout) (r : Image) (offset : Nat) : l.word r offset < Address.count := by
  obtain ⟨wide, order⟩ := l
  cases wide with
  | true => exact octet_lt ⟨true, order⟩ r offset
  | false => exact quad_lt ⟨false, order⟩ r offset

end Layout

end ReachableCode
