import ReachableCode.Fault
import Std.Data.ExtTreeMap
import Std.Data.ExtTreeSet

/-!
Maps and sets of addresses are finite: there are `Address.count` addresses, so none has more
entries. The searches over a program end because of it.
-/

namespace ReachableCode.Address

/-- Distinct numbers below a bound are no more than the bound. -/
theorem length_le_of_nodup_of_lt {n : Nat} :
    ∀ {l : List Nat}, l.Nodup → (∀ x ∈ l, x < n) → l.length ≤ n := by
  induction n with
  | zero =>
    intro l _ h
    cases l with
    | nil => simp
    | cons x _ => exact absurd (h x (by simp)) (by omega)
  | succ n ih =>
    intro l hd h
    have below : ∀ x ∈ l.erase n, x < n := fun x hx => by
      have := h x (List.mem_of_mem_erase hx)
      have := (List.Nodup.mem_erase_iff hd).1 hx
      omega
    have := ih (hd.erase n) below
    have := List.length_erase (a := n) (l := l)
    split at this <;> omega

theorem length_le_count {l : List Address} (hd : l.Nodup) : l.length ≤ count := by
  have hn : (l.map UInt64.toNat).Nodup :=
    List.Pairwise.map UInt64.toNat (fun _ _ h e => h (UInt64.toNat_inj.1 e)) hd
  simpa using length_le_of_nodup_of_lt hn (by
    simp only [List.mem_map]
    rintro _ ⟨a, _, rfl⟩
    exact a.toNat_lt)

/-- A map from addresses has at most one entry for each. -/
theorem map_size_le {β : Type} (t : Std.ExtTreeMap Address β) : t.size ≤ count := by
  simpa using length_le_count t.nodup_keys

/-- A set of addresses has at most all of them. -/
theorem set_size_le (t : Std.ExtTreeSet Address) : t.size ≤ count := by
  have : t.toList.Nodup :=
    (Std.ExtTreeSet.distinct_toList (t := t)).imp fun h e => h (by simp [e])
  simpa using length_le_count this

end ReachableCode.Address
