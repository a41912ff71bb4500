import Mathlib.Data.List.Forall2
import Mathlib.Data.Nat.Digits.Defs
import ReachableCode.Text.Hex

/-!
Reading hexadecimal numbers. A numeral has one or more digits of either case, with as many zeros in front as one
likes. A text is read as a number of 64 bits just if it is a numeral of it behind a plus sign or nothing, and the
digits that are written for a number are a numeral of it.
-/

namespace ReachableCode.Hex

/-- The character is the digit of a value in one of the two cases. -/
def IsDigit (c : Char) (d : Nat) : Prop :=
  "0123456789abcdef".toList[d]? = some c ∨ "0123456789ABCDEF".toList[d]? = some c

instance {c : Char} {d : Nat} : Decidable (IsDigit c d) :=
  inferInstanceAs (Decidable (_ ∨ _))

/-- The characters are digits, one or more, and they make up the number `n` to the base sixteen. -/
def Denotes (cs : List Char) (n : Nat) : Prop :=
  ∃ ds : List Nat, ds ≠ [] ∧ List.Forall₂ IsDigit cs ds ∧ n = Nat.ofDigits 16 ds.reverse

/-- The text is a numeral of `n` behind a plus sign or nothing. -/
def Reads (s : String) (n : Nat) : Prop :=
  ∃ sign digits : String, (sign = "" ∨ sign = "+") ∧ s = sign ++ digits ∧ Denotes digits.toList n

variable {c : Char} {cs : List Char} {acc d n : Nat} {s : String} {v : UInt64}

theorem isDigit_digit (hd : d < 16) : IsDigit (digit d) d := by
  have each : ∀ d : Fin 16, IsDigit (digit d) d := by decide
  exact each ⟨d, hd⟩

theorem IsDigit.value?_eq (h : IsDigit c d) : value? c = some d := by
  have each : ∀ d : Fin 16, value? "0123456789abcdef".toList[d] = some d.val ∧
      value? "0123456789ABCDEF".toList[d] = some d.val := by decide
  rcases h with h | h <;> obtain ⟨hd, rfl⟩ := List.getElem?_eq_some_iff.1 h
  · exact (each ⟨d, hd⟩).1
  · exact (each ⟨d, hd⟩).2

theorem value?_digit (hd : d < 16) : value? (digit d) = some d :=
  (isDigit_digit hd).value?_eq

/-- No character behind the letters in ASCII is a digit, so it is enough to look at those up to there. -/
theorem toNat_lt_of_value? (h : value? c = some d) : c.toNat < 128 := by
  have below : ∀ top : Char, top.toNat < 128 → c ≤ top → c.toNat < 128 := fun top small hc =>
    lt_of_le_of_lt (UInt32.le_iff_toNat_le.1 hc) small
  rw [value?] at h
  split_ifs at h with decimal lower upper
  · exact below '9' (by decide) decimal.2
  · exact below 'f' (by decide) lower.2
  · exact below 'F' (by decide) upper.2

theorem value?_eq_some : value? c = some d ↔ IsDigit c d := by
  refine ⟨fun h => ?_, IsDigit.value?_eq⟩
  have each : ∀ n : Fin 128, ∀ d ∈ value? (Char.ofNat n), IsDigit (Char.ofNat n) d := by decide
  have at_c := each ⟨c.toNat, toNat_lt_of_value? h⟩ d
  rw [Char.ofNat_toNat] at at_c
  exact at_c h

/-! ### Writing -/

theorem denotes_singleton (h : IsDigit c d) : Denotes [c] d :=
  ⟨[d], by simp, .cons h .nil, by simp⟩

theorem Denotes.snoc (h : Denotes cs n) (hc : IsDigit c d) : Denotes (cs ++ [c]) (16 * n + d) := by
  obtain ⟨ds, -, each, rfl⟩ := h
  refine ⟨ds ++ [d], by simp, List.rel_append each (.cons hc .nil), ?_⟩
  rw [List.reverse_append, List.reverse_singleton, List.singleton_append, Nat.ofDigits_cons, add_comm]

theorem denotes_digitList (n : Nat) : Denotes (digitList n) n := by
  induction n using digitList.induct with
  | case1 n hn =>
    rw [digitList, if_pos hn]
    exact denotes_singleton (isDigit_digit hn)
  | case2 n hn ih =>
    rw [digitList, if_neg hn]
    have last := ih.snoc (isDigit_digit (Nat.mod_lt n (by decide)))
    rwa [Nat.div_add_mod] at last

theorem reads_digits (n : Nat) : Reads (digits n) n :=
  ⟨"", digits n, .inl rfl, String.empty_append.symm, by simpa [digits] using denotes_digitList n⟩

/-! ### Reading -/

/-- The characters are digits, and they make up `n` when they stand behind the digits of `acc`. -/
def Continues (acc : Nat) (cs : List Char) (n : Nat) : Prop :=
  ∃ ds : List Nat, List.Forall₂ IsDigit cs ds ∧ n = acc * 16 ^ ds.length + Nat.ofDigits 16 ds.reverse

theorem denotes_iff : Denotes cs n ↔ cs ≠ [] ∧ Continues 0 cs n := by
  simp only [Denotes, Continues, Nat.zero_mul, Nat.zero_add]
  constructor
  · rintro ⟨ds, some, each, value⟩
    exact ⟨fun none => some (List.forall₂_nil_left_iff.1 (none ▸ each)), ds, each, value⟩
  · rintro ⟨some, ds, each, value⟩
    exact ⟨ds, fun none => some (List.forall₂_nil_right_iff.1 (none ▸ each)), each, value⟩

theorem continues_nil : Continues acc [] n ↔ n = acc := by
  simp [Continues]

theorem continues_cons : Continues acc (c :: cs) n ↔ ∃ d, IsDigit c d ∧ Continues (acc * 16 + d) cs n := by
  have horner (d : Nat) (ds : List Nat) : acc * 16 ^ (d :: ds).length + Nat.ofDigits 16 (d :: ds).reverse =
      (acc * 16 + d) * 16 ^ ds.length + Nat.ofDigits 16 ds.reverse := by
    rw [Nat.ofDigits_reverse_cons, List.length_cons]
    ring
  simp only [Continues, List.forall₂_cons_left_iff]
  constructor
  · rintro ⟨_, ⟨d, ds, digit, each, rfl⟩, value⟩
    exact ⟨d, digit, ds, each, value.trans (horner d ds)⟩
  · rintro ⟨d, digit, ds, each, value⟩
    exact ⟨d :: ds, ⟨d, ds, digit, each, rfl⟩, value.trans (horner d ds).symm⟩

theorem Continues.le (h : Continues acc cs n) : acc ≤ n := by
  obtain ⟨ds, -, rfl⟩ := h
  exact le_add_right (Nat.le_mul_of_pos_right acc (by positivity))

/-- Digits are read if what they make up has 64 bits. The number never gets smaller on the way, so reading is given up
only where it would be in the end, and zeros in front do not count. -/
theorem parseDigits_eq_ok (ha : acc < UInt64.size) : parseDigits acc cs = .ok v ↔ Continues acc cs v.toNat := by
  induction cs generalizing acc with
  | nil => rw [parseDigits, Except.ok.injEq, ← UInt64.toNat_inj, UInt64.toNat_ofNat_of_lt' ha, continues_nil, eq_comm]
  | cons c cs ih =>
    rw [parseDigits, continues_cons]
    cases hc : value? c with
    | none =>
      refine iff_of_false nofun fun ⟨d, digit, _⟩ => ?_
      rw [value?_eq_some.2 digit] at hc
      cases hc
    | some d =>
      have only : (∃ e, IsDigit c e ∧ Continues (acc * 16 + e) cs v.toNat) ↔ Continues (acc * 16 + d) cs v.toNat := by
        simp [← value?_eq_some, hc]
      rw [only]
      dsimp only
      split
      · next fits => exact ih fits
      · next large => exact iff_of_false nofun fun h => large (h.le.trans_lt v.toNat_lt)

theorem not_denotes_nil : ¬Denotes [] n := fun h => (denotes_iff.1 h).1 rfl

/-- A sign is no digit. -/
theorem not_denotes_sign (hc : c = '+' ∨ c = '-') : ¬Denotes (c :: cs) n := by
  intro h
  obtain ⟨d, digit, -⟩ := continues_cons.1 (denotes_iff.1 h).2
  have := value?_eq_some.2 digit
  rcases hc with rfl | rfl <;> cases this

theorem parseDigits_eq_ok_iff (hcs : cs ≠ []) : parseDigits 0 cs = .ok v ↔ Denotes cs v.toNat := by
  rw [parseDigits_eq_ok (by decide), denotes_iff, and_iff_right hcs]

theorem reads_iff : Reads s n ↔ Denotes s.toList n ∨ ∃ cs, s.toList = '+' :: cs ∧ Denotes cs n := by
  constructor
  · rintro ⟨_, digits, rfl | rfl, rfl, h⟩
    · exact .inl (by simpa using h)
    · exact .inr ⟨digits.toList, by simp, h⟩
  · rintro (h | ⟨cs, hs, h⟩)
    · exact ⟨"", s, .inl rfl, by simp, h⟩
    · exact ⟨"+", String.ofList cs, .inr rfl, String.toList_injective (by simp [hs]), by simpa using h⟩

theorem parse_eq_ok : parse s = .ok v ↔ Reads s v.toNat := by
  rw [reads_iff, parse]
  -- Nothing, one of the two signs alone, a plus sign before more, and what is read without a sign. A minus sign before
  -- more is of the last kind, where it fails as a digit.
  split
  · next h =>
    rw [h]
    exact iff_of_false nofun (by simp [not_denotes_nil])
  · next h =>
    rw [h]
    exact iff_of_false nofun (by simp [not_denotes_nil, not_denotes_sign])
  · next h =>
    rw [h]
    exact iff_of_false nofun (by simp [not_denotes_sign])
  · next digits some h =>
    rw [h, parseDigits_eq_ok_iff some]
    simp [not_denotes_sign]
  · next some _ _ unsigned =>
    rw [parseDigits_eq_ok_iff some, or_iff_left]
    rintro ⟨digits, h, -⟩
    exact unsigned digits h

end ReachableCode.Hex
