import ReachableCode.Code.Toy
import ReachableCode.Proofs.Memory.Bounded
import ReachableCode.Search.Exploration
import ReachableCode.X86.Decoder

/-!
Decoders that come to a result wherever a program has mapped bytes, and take no more bytes than are
mapped. A decoder that looks at bytes through a cursor takes no others, and the decoders of the toy
machine and of the x86 machines are safe for every program with bounded sections.
-/

namespace ReachableCode

/-- The decoder finds `d` at the address `a` of the program. -/
def Decoder.Meets (dec : Decoder) (p : Program) (a : Address) (d : Decoded) : Prop :=
  ∃ c after, p.cursorAt a = .ok (some c) ∧ dec.decode c = .ok (d, after)

/-- What the decoder finds lies in the section where it was looked for. -/
def Cursor.Fits (c : Cursor) (d : Decoded) : Prop :=
  c.offset.toNat + d.size.toNat ≤ c.place.mappedSize.toNat

/-- The decoder gives nothing up for the program: it decodes wherever bytes are mapped and takes no more
of them than there are, finds the targets of each transfer it decoded, and goes back over each instruction
it decoded. -/
structure Decoder.Safe (dec : Decoder) (p : Program) : Prop where
  decodes : ∀ {a c}, p.cursorAt a = .ok (some c) → ∃ r, dec.decode c = .ok r
  fits : ∀ {a c d after}, p.cursorAt a = .ok (some c) → dec.decode c = .ok (d, after) → c.Fits d
  jumps : ∀ {a d f}, dec.Meets p a d → d.flow = some f → f.transfers = true →
    ∃ candidates, dec.jumpTargets d a = .ok candidates
  back : ∀ {a d}, dec.Meets p a d → d.isValid = true → ∀ e, ∃ e?, dec.stepBack d a e = .ok e?

variable {p : Program} {c after : Cursor} {a count : Address} {d : Decoded} {bytes : List UInt8}

theorem Decoded.toNat_size (d : Decoded) : d.size.toNat = d.instruction.encoding.length := by
  have := d.instruction.encoding_length_le
  exact UInt64.toNat_ofNat_of_lt' (Nat.lt_of_le_of_lt this (by decide))

theorem Explorer.meets_of_decodeAt {x : Explorer} (h : x.decodeAt a = .ok (some d)) :
    x.decoder.Meets x.program a d := by
  obtain ⟨c?, hc, h⟩ := bind_eq_ok.1 h
  cases c? with
  | none => cases h
  | some c =>
    obtain ⟨⟨d', after⟩, hd, h⟩ := bind_eq_ok.1 h
    cases h
    exact ⟨c, after, hc, hd⟩

namespace Program.Bounded

theorem within (hp : p.Bounded) (hc : p.cursorAt a = .ok (some c)) : c.Within p ∧
    c.place.base.toNat + c.offset.toNat = a.toNat ∧ c.offset.toNat < c.place.mappedSize.toNat := by
  obtain ⟨c?, hc', spec⟩ := hp.cursorAt_eq_ok a
  cases hc.symm.trans hc'
  exact spec c rfl

/-- What is no longer than the bytes seen from a cursor fits there. -/
theorem fits_of_peek (hp : p.Bounded) (hc : p.cursorAt a = .ok (some c)) (h : c.peek count = .ok bytes)
    (hd : d.instruction.encoding.length ≤ bytes.length) : c.Fits d := by
  have := (hp.within hc).1.length_peek hp h
  rw [Cursor.Fits, d.toNat_size]
  omega

theorem address_eq_ok (hp : p.Bounded) (hc : p.cursorAt a = .ok (some c)) :
    ∃ b, c.address = .ok b := by
  obtain ⟨within, -, -⟩ := hp.within hc
  exact (hp _ within.mem).exists_plus_offset (UInt64.le_iff_toNat_le.2 within.le)

/-- The address behind what fits at an address is in the range. -/
theorem exists_plus_size (hp : p.Bounded) (hc : p.cursorAt a = .ok (some c)) (hd : c.Fits d) :
    ∃ next, Address.plus a d.size = .ok next := by
  obtain ⟨within, place, -⟩ := hp.within hc
  have := (hp _ within.mem).ends
  rw [Cursor.Fits] at hd
  exact Address.exists_plus (by omega)

end Program.Bounded

/-! ### The toy machine -/

namespace Toy

theorem Op.size_le (op : Op) : op.size ≤ 6 := by
  cases op <;> simp [size]

/-- An instruction is told by the bytes of its encoding alone. -/
theorem Op.ofBytes?_take {op : Op} (h : ofBytes? bytes = some op) :
    ofBytes? (bytes.take op.size) = some op := by
  unfold ofBytes? at h
  split at h <;> cases h <;> rfl

theorem decode_eq_ok (h : decode c = .ok (d, after)) : ∃ window, c.peek 6 = .ok window ∧
    d.instruction.encoding.length ≤ window.length ∧
      (d.isValid = true → ∃ op, Op.ofBytes? d.instruction.encoding = some op) := by
  obtain ⟨a, -, h⟩ := bind_eq_ok.1 h
  obtain ⟨window, hw, h⟩ := bind_eq_ok.1 h
  refine ⟨window, hw, ?_⟩
  split at h
  next op ho =>
    obtain ⟨_, -, h⟩ := bind_eq_ok.1 h
    cases h
    have short := op.size_le
    have whole : (window.take op.size).take maxInstructionSize = window.take op.size := by
      rw [List.take_take, Nat.min_eq_right (by simp only [maxInstructionSize]; omega)]
    refine ⟨?_, fun _ => ⟨op, ?_⟩⟩
    · simp only [Instruction.ofEncoding, whole, List.length_take]
      omega
    · simp only [Instruction.ofEncoding, whole, Op.ofBytes?_take ho]
  · obtain ⟨_, -, h⟩ := bind_eq_ok.1 h
    cases h
    refine ⟨?_, nofun⟩
    simp only [Instruction.ofEncoding, List.length_take]
    omega

/-- Every instruction has at least one byte. -/
theorem size_ne_zero (hm : decoder.Meets p a d) (hv : d.isValid = true) : d.size ≠ 0 := by
  obtain ⟨c, after, -, hd⟩ := hm
  obtain ⟨-, -, -, valid⟩ := decode_eq_ok hd
  obtain ⟨op, ho⟩ := valid hv
  intro zero
  have none := d.toNat_size
  rw [zero, UInt64.toNat_zero, eq_comm, List.length_eq_zero_iff] at none
  rw [none] at ho
  cases ho

theorem safe_decoder (hp : p.Bounded) : decoder.Safe p where
  decodes {a c} hc := by
    obtain ⟨within, -, -⟩ := hp.within hc
    show ∃ r, decode c = .ok r
    refine exists_bind_eq_ok (hp.address_eq_ok hc) fun _ _ => ?_
    refine exists_bind_eq_ok (within.peek_eq_ok hp (by decide)) fun window _ => ?_
    split
    next op _ =>
      refine exists_bind_eq_ok (within.advance_eq_ok hp ?_) fun _ _ => ⟨_, rfl⟩
      have := op.size_le
      rw [UInt64.toNat_ofNat_of_lt' (Nat.lt_of_le_of_lt this (by decide))]
      exact Nat.le_trans this (by decide)
    · exact exists_bind_eq_ok (within.advance_eq_ok hp (by decide)) fun _ _ => ⟨_, rfl⟩
  fits hc hd := by
    obtain ⟨window, hw, short, -⟩ := decode_eq_ok hd
    exact hp.fits_of_peek hc hw short
  jumps {a d f} hm hf _ := by
    obtain ⟨c, after, hc, hd⟩ := hm
    obtain ⟨window, hw, short, valid⟩ := decode_eq_ok hd
    obtain ⟨op, ho⟩ := valid (by rw [Decoded.isValid, hf]; rfl)
    refine exists_bind_eq_ok (hp.exists_plus_size hc (hp.fits_of_peek hc hw short)) fun next _ => ?_
    rw [ho]
    exact ⟨_, rfl⟩
  back {a d} hm hv e := by
    obtain ⟨c, after, hc, hd⟩ := hm
    obtain ⟨window, -, -, valid⟩ := decode_eq_ok hd
    obtain ⟨op, ho⟩ := valid hv
    refine ⟨op.stepBack e, ?_⟩
    simp only [decoder, ho]
    rfl

end Toy

/-! ### The x86 machines -/

namespace X86.Machine

variable {m : Machine}

theorem decode_eq_ok (h : m.decode c = .ok (d, after)) :
    ∃ window, c.peek (UInt64.ofNat maxInstructionSize) = .ok window ∧
      (d.instruction.encoding.length ≤ window.length ∨ d.instruction.encoding.length = 1) := by
  obtain ⟨a, -, h⟩ := bind_eq_ok.1 h
  obtain ⟨window, hw, h⟩ := bind_eq_ok.1 h
  refine ⟨window, hw, ?_⟩
  split at h
  · obtain ⟨_, -, h⟩ := bind_eq_ok.1 h
    cases h
    left
    simp only [Instruction.ofEncoding, List.length_take]
    omega
  · obtain ⟨_, -, h⟩ := bind_eq_ok.1 h
    cases h
    exact Or.inr rfl

theorem fits_of_decode (hp : p.Bounded) (hc : p.cursorAt a = .ok (some c))
    (h : m.decode c = .ok (d, after)) : c.Fits d := by
  obtain ⟨-, -, inside⟩ := hp.within hc
  obtain ⟨window, hw, short | one⟩ := decode_eq_ok h
  · exact hp.fits_of_peek hc hw short
  · rw [Cursor.Fits, d.toNat_size, one]
    omega

theorem stepBackPlain_eq_ok {r : Reading} {e : Expr} (hn : ∃ next, Address.plus a d.size = .ok next) :
    ∃ e?, m.stepBackPlain d a r e = .ok e? := by
  rw [stepBackPlain]
  split
  · exact ⟨none, rfl⟩
  · split
    · exact ⟨some e, rfl⟩
    · split
      · dsimp only
        split
        · exact exists_bind_eq_ok hn fun next _ => ⟨_, rfl⟩
        · exact ⟨some e, rfl⟩
      · exact ⟨some e, rfl⟩

theorem safe_decoder (m : Machine) (hp : p.Bounded) : m.decoder.Safe p where
  decodes {a c} hc := by
    obtain ⟨within, -, -⟩ := hp.within hc
    show ∃ r, m.decode c = .ok r
    refine exists_bind_eq_ok (hp.address_eq_ok hc) fun b _ => ?_
    refine exists_bind_eq_ok (within.peek_eq_ok hp (by decide)) fun window _ => ?_
    split
    next r _ =>
      refine exists_bind_eq_ok (within.advance_eq_ok hp ?_) fun _ _ => ⟨_, rfl⟩
      rw [Decoded.toNat_size]
      exact Instruction.encoding_length_le _
    · exact exists_bind_eq_ok (within.advance_eq_ok hp (by decide)) fun _ _ => ⟨_, rfl⟩
  fits hc hd := fits_of_decode hp hc hd
  jumps {a d f} hm _ _ := by
    obtain ⟨c, after, hc, hd⟩ := hm
    exact exists_bind_eq_ok (hp.exists_plus_size hc (fits_of_decode hp hc hd)) fun next _ => ⟨_, rfl⟩
  back {a d} hm _ e := by
    obtain ⟨c, after, hc, hd⟩ := hm
    show ∃ e?, m.stepBack d a e = .ok e?
    rw [stepBack]
    split
    · exact ⟨_, rfl⟩
    · split
      · exact ⟨some e, rfl⟩
      · exact stepBackPlain_eq_ok (hp.exists_plus_size hc (fits_of_decode hp hc hd))

end X86.Machine

end ReachableCode
