import ReachableCode.Memory.Cursor
import ReachableCode.Proofs.Memory.Encoding

/-!
Reading integers. A section maps its data and zeros behind them; a read cuts its bytes out of these, whether
it ends in the data, runs over their end or begins behind it. It finds nothing just if it would run over the
end of what is mapped, and else the one integer of its width whose encoding the bytes are.
-/

namespace ReachableCode

/-- The bytes that a section maps: its data, and zeros from there to the mapped size. -/
def Section.image (s : Section) : List UInt8 :=
  s.data.toList ++ List.replicate (s.mappedSize.toNat - s.data.size) 0

namespace Cursor

/-- The bytes from the cursor on, as many as there are up to a count. -/
def next (c : Cursor) (count : Nat) : List UInt8 :=
  (c.place.image.drop c.offset.toNat).take count

/-- The bytes at the cursor are the encoding of an integer that the width holds. -/
def Shows (c : Cursor) (w : Width) (o : ByteOrder) (n : Int) : Prop :=
  w.Holds n ∧ w.encode o n = c.next w.bytes

end Cursor

variable {s : Section} {c d : Cursor} {w : Width} {o : ByteOrder} {n : Int} {i k : Nat}

/-! ### Sections -/

namespace Section

theorem length_image (hs : s.data.size ≤ s.mappedSize.toNat) : s.image.length = s.mappedSize.toNat := by
  rw [image, List.length_append, List.length_replicate, Array.length_toList]
  omega

theorem byteAt_eq (hs : s.data.size ≤ s.mappedSize.toNat) : s.byteAt i = s.image[i]? := by
  rw [byteAt, image]
  by_cases inside : i < s.data.size
  · rw [dif_pos inside, List.getElem?_append_left (by simpa using inside), Array.getElem?_toList,
      Array.getElem?_eq_getElem inside]
  · rw [dif_neg inside, List.getElem?_append_right (by simpa using inside), List.getElem?_replicate,
      Array.length_toList]
    by_cases mapped : i < s.mappedSize.toNat
    · rw [if_pos mapped, if_pos (by omega)]
    · rw [if_neg mapped, if_neg (by omega)]

/-- Reading byte by byte is cutting a piece out of what is mapped. -/
theorem bytesFrom_eq (hs : s.data.size ≤ s.mappedSize.toNat) : s.bytesFrom i k = (s.image.drop i).take k := by
  induction k generalizing i with
  | zero => simp [bytesFrom]
  | succ k ih =>
    rw [bytesFrom, byteAt_eq hs]
    by_cases inside : i < s.image.length
    · rw [List.getElem?_eq_getElem inside, List.drop_eq_getElem_cons inside, List.take_succ_cons, ← ih]
    · rw [List.getElem?_eq_none (Nat.not_lt.1 inside), List.drop_of_length_le (Nat.not_lt.1 inside), List.take_nil]

end Section

/-! ### Cursors -/

namespace Cursor

theorem length_next (hc : c.place.data.size ≤ c.place.mappedSize.toNat) :
    (c.next k).length = min k (c.place.mappedSize.toNat - c.offset.toNat) := by
  rw [next, List.length_take, List.length_drop, Section.length_image hc]

theorem readInt_eq (hc : c.place.data.size ≤ c.place.mappedSize.toNat) (room : c.offset.toNat + 8 < Address.count) :
    c.readInt w o =
      if c.place.mappedSize.toNat < c.offset.toNat + w.bytes then .ok none
      else .ok (some (w.valueOf (o.leastFirst (c.next w.bytes)),
        { c with offset := c.offset + UInt64.ofNat w.bytes })) := by
  have size : 0 < w.bytes ∧ w.bytes ≤ 8 := by cases w <;> decide
  have small : (UInt64.ofNat w.bytes).toNat = w.bytes :=
    UInt64.toNat_ofNat_of_lt' (Nat.lt_of_le_of_lt size.2 (by decide))
  have moves : Address.plus c.offset (UInt64.ofNat w.bytes) = .ok (c.offset + UInt64.ofNat w.bytes) :=
    if_pos (by rw [small]; omega)
  have seen : c.peek (UInt64.ofNat w.bytes) = .ok (c.next w.bytes) := by
    rw [peek, moves, small, Section.bytesFrom_eq hc]
    rfl
  have length := length_next (k := w.bytes) hc
  rw [readInt, seen]
  show (if (c.next w.bytes).length < w.bytes then _ else _) = _
  by_cases short : c.place.mappedSize.toNat < c.offset.toNat + w.bytes
  · rw [if_pos short, if_pos (by omega)]
    rfl
  · rw [if_neg short, if_neg (by omega), advance, moves]
    rfl

/-- There are as many bytes as the width has, where the read does not run over the end. -/
theorem length_next_of_le (hc : c.place.data.size ≤ c.place.mappedSize.toNat)
    (fits : c.offset.toNat + w.bytes ≤ c.place.mappedSize.toNat) : (c.next w.bytes).length = w.bytes := by
  rw [length_next hc]
  omega

theorem Shows.fits (shows : c.Shows w o n) (hc : c.place.data.size ≤ c.place.mappedSize.toNat) :
    c.offset.toNat + w.bytes ≤ c.place.mappedSize.toNat := by
  have length := congrArg List.length shows.2
  have size : 0 < w.bytes := by cases w <;> decide
  rw [Width.length_encode, length_next hc] at length
  omega

/-- A read finds nothing just if it runs over the end of what is mapped. Else the bytes are the encoding of one
integer, which is what is read, also by putting the bytes together in a word; the cursor goes over them. Where
the bytes lie in the reversed order, reading them in the other order finds the same. -/
theorem integers_are_read_exactly (hc : c.place.data.size ≤ c.place.mappedSize.toNat)
    (room : c.offset.toNat + 8 < Address.count) (w : Width) (o : ByteOrder) :
    (c.readInt w o = .ok none ↔ c.place.mappedSize.toNat < c.offset.toNat + w.bytes) ∧
    (c.offset.toNat + w.bytes ≤ c.place.mappedSize.toNat → ∃ n, c.Shows w o n ∧ ∀ m, c.Shows w o m → m = n) ∧
    (∀ n, c.Shows w o n → ∃ after, c.readInt w o = .ok (some (.ofInt n, after)) ∧
      after.place = c.place ∧ after.offset.toNat = c.offset.toNat + w.bytes ∧
        (w.extend (o.word (c.next w.bytes))).toInt64 = .ofInt n) ∧
    (∀ d : Cursor, d.place.data.size ≤ d.place.mappedSize.toNat → d.offset.toNat + 8 < Address.count →
      d.next w.bytes = (c.next w.bytes).reverse →
        (c.readInt w .big).map (·.map Prod.fst) = (d.readInt w .little).map (·.map Prod.fst)) := by
  have size : 0 < w.bytes ∧ w.bytes ≤ 8 := by cases w <;> decide
  refine ⟨?_, fun fits => ?_, fun n shows => ?_, fun d hd room' reversed => ?_⟩
  · rw [readInt_eq hc room]
    split
    next short => exact iff_of_true rfl short
    next fits => exact iff_of_false nofun fits
  · obtain ⟨n, hn, encoded, -, only⟩ := Width.exists_encoded o (length_next_of_le hc fits)
    exact ⟨n, ⟨hn, encoded⟩, fun m hm => only m hm.1 hm.2⟩
  · have fits := shows.fits hc
    have length := length_next_of_le hc fits
    obtain ⟨m, -, -, value, only⟩ := Width.exists_encoded o length
    obtain rfl := only n shows.1 shows.2
    refine ⟨{ c with offset := c.offset + UInt64.ofNat w.bytes }, ?_, rfl, ?_,
      (Width.extend_word o length).trans value⟩
    · rw [readInt_eq hc room, if_neg (Nat.not_lt.2 fits), value]
    have small : (UInt64.ofNat w.bytes).toNat = w.bytes :=
      UInt64.toNat_ofNat_of_lt' (Nat.lt_of_le_of_lt size.2 (by decide))
    rw [UInt64.toNat_add, small]
    exact Nat.mod_eq_of_lt (show _ < Address.count by omega)
  · have length := congrArg List.length reversed
    rw [List.length_reverse, length_next hc, length_next hd] at length
    rw [readInt_eq hc room, readInt_eq hd room', reversed]
    by_cases short : c.place.mappedSize.toNat < c.offset.toNat + w.bytes
    · rw [if_pos short, if_pos (by omega)]
    · rw [if_neg short, if_neg (by omega)]
      rfl

/-- A section of two bytes that maps eight. -/
def twoOfEight : Section :=
  (Section.ofData ".data" 0x2000 #[0x12, 0xfe]).withMappedSize 8

/-- An integer of four bytes, of which one is in the data. -/
theorem read_over_the_end_of_data : ∃ after,
    ({ place := twoOfEight, offset := 1 } : Cursor).readInt .i32 .big = .ok (some (-0x2000000, after)) ∧
      after.place = twoOfEight ∧ after.offset.toNat = 5 := by
  have held : Cursor.Shows { place := twoOfEight, offset := 1 } .i32 .big (-0x2000000) := by
    constructor
    · unfold Width.Holds
      decide
    · rfl
  obtain ⟨after, read, place, offset, -⟩ :=
    (integers_are_read_exactly (c := { place := twoOfEight, offset := 1 }) (by decide) (by decide) .i32 .big).2.2.1
      _ held
  exact ⟨after, read, place, offset⟩

end Cursor

end ReachableCode
