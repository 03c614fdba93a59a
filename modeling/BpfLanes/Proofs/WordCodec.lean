import BpfLanes.Proofs.WordFields

/-! # Words and fields in bijection

Reversing the bytes of a number is its own inverse, at every size and for signed
and unsigned numbers alike. A word is read through such a reversal and written
without one; still the two fit: a word is put together again from its fields, and
of any fields exactly the bits that have a place come back.
-/

namespace BpfLanes
variable {signed : Bool} {a b d x : Int} {bs : List Nat} {w : Word}

namespace Word

/-! ## Bytes -/

theorem length_lowBytes (n x : Nat) : (lowBytes n x).length = n := by
  induction n generalizing x with
  | zero => rfl
  | succ n ih => rw [lowBytes, List.length_cons, ih]

theorem lt_of_mem_lowBytes {n x b : Nat} (h : b ∈ lowBytes n x) : b < 256 := by
  induction n generalizing x with
  | zero => cases h
  | succ n ih =>
    rw [lowBytes, List.mem_cons] at h
    rcases h with rfl | h
    · exact Nat.mod_lt _ (by decide)
    · exact ih h

theorem two_pow_bytes (n : Nat) : 2 ^ (8 * (n + 1)) = 256 * 2 ^ (8 * n) := by
  rw [Nat.mul_succ, Nat.pow_add, Nat.mul_comm]

theorem ofLowBytes_lowBytes (n x : Nat) : ofLowBytes (lowBytes n x) = x % 2 ^ (8 * n) := by
  induction n generalizing x with
  | zero => rw [lowBytes, ofLowBytes, Nat.mul_zero, Nat.pow_zero, Nat.mod_one]
  | succ n ih => rw [lowBytes, ofLowBytes, ih, two_pow_bytes, Nat.mod_mul]

theorem ofLowBytes_lt (h : ∀ b ∈ bs, b < 256) : ofLowBytes bs < 2 ^ (8 * bs.length) := by
  induction bs with
  | nil => decide
  | cons b bs ih =>
    have hb := h b List.mem_cons_self
    have hbs := ih fun x hx => h x (List.mem_cons_of_mem _ hx)
    rw [ofLowBytes, List.length_cons, two_pow_bytes]
    omega

theorem lowBytes_ofLowBytes (h : ∀ b ∈ bs, b < 256) : lowBytes bs.length (ofLowBytes bs) = bs := by
  induction bs with
  | nil => rfl
  | cons b bs ih =>
    have hb := h b List.mem_cons_self
    have hquot : (b + 256 * ofLowBytes bs) / 256 = ofLowBytes bs := by omega
    have hrem : (b + 256 * ofLowBytes bs) % 256 = b := by omega
    rw [ofLowBytes, List.length_cons, lowBytes, hquot, hrem,
      ih fun x hx => h x (List.mem_cons_of_mem _ hx)]

/-! ## Numbers of a size -/

/-- The numbers that `size` bytes can hold: as many as there are ways to fill the bytes. -/
def InBytes (size : Nat) (signed : Bool) (x : Int) : Prop :=
  if signed then -2 ^ (8 * size) ≤ 2 * x ∧ 2 * x < 2 ^ (8 * size) else 0 ≤ x ∧ x < 2 ^ (8 * size)

/-- The bytes of a number in two's complement, lowest first. -/
def bytesOf (size : Nat) (x : Int) : List Nat :=
  lowBytes size (x % 2 ^ (8 * size)).toNat

/-- The number with these bytes in two's complement, lowest first. -/
def ofBytes (signed : Bool) (bs : List Nat) : Int :=
  if signed && 0 < bs.length then asSigned (8 * bs.length) (ofLowBytes bs) else ofLowBytes bs

variable {size : Nat}

theorem length_bytesOf (size : Nat) (x : Int) : (bytesOf size x).length = size :=
  length_lowBytes _ _

theorem swapBytes_eq (size : Nat) (signed : Bool) (x : Int) :
    swapBytes size signed x = ofBytes signed (bytesOf size x).reverse := by
  unfold swapBytes ofBytes bytesOf
  rw [weight_eq, List.length_reverse, length_lowBytes]

theorem toNat_residue (size : Nat) (x : Int) :
    ((x % 2 ^ (8 * size)).toNat : Int) = x % 2 ^ (8 * size) :=
  Int.toNat_of_nonneg (Int.emod_nonneg _ (two_pow_pos _).ne')

theorem residue_lt (size : Nat) (x : Int) : (x % 2 ^ (8 * size)).toNat < 2 ^ (8 * size) := by
  have hlt := Int.emod_lt_of_pos x (two_pow_pos (8 * size))
  rw [← toNat_residue] at hlt
  exact_mod_cast hlt

theorem ofBytes_bytesOf (h : InBytes size signed x) : ofBytes signed (bytesOf size x) = x := by
  have hres := toNat_residue size x
  unfold ofBytes
  rw [length_bytesOf]
  unfold bytesOf
  rw [ofLowBytes_lowBytes, Nat.mod_eq_of_lt (residue_lt size x)]
  unfold InBytes at h
  cases signed with
  | false =>
    simp only [Bool.false_eq_true, if_false, Bool.false_and] at h ⊢
    rw [hres, Int.emod_eq_of_lt h.1 h.2]
  | true =>
    simp only [if_true, Bool.true_and, decide_eq_true_eq] at h ⊢
    unfold asSigned
    rw [weight_eq, hres]
    by_cases hx : 0 ≤ x
    · rw [Int.emod_eq_of_lt hx (by omega)]
      split
      · rw [if_neg (by omega)]
      · rfl
    · have hmod : x % 2 ^ (8 * size) = x + 2 ^ (8 * size) := by
        rw [← Int.add_emod_right, Int.emod_eq_of_lt (by omega) (by omega)]
      split
      · rw [if_pos (by omega)]
        omega
      · -- no byte holds a negative number
        obtain rfl : size = 0 := by omega
        omega

theorem bytesOf_ofBytes (signed : Bool) (h : ∀ b ∈ bs, b < 256) :
    InBytes bs.length signed (ofBytes signed bs)
      ∧ bytesOf bs.length (ofBytes signed bs) = bs := by
  have hpos := two_pow_pos (8 * bs.length)
  have hlt : (ofLowBytes bs : Int) < 2 ^ (8 * bs.length) := by exact_mod_cast ofLowBytes_lt h
  have hres : ofBytes signed bs % 2 ^ (8 * bs.length) = ofLowBytes bs := by
    unfold ofBytes asSigned
    rw [weight_eq]
    split
    · split
      · rw [Int.sub_emod_right, Int.emod_eq_of_lt (by omega) hlt]
      · exact Int.emod_eq_of_lt (by omega) hlt
    · exact Int.emod_eq_of_lt (by omega) hlt
  constructor
  · unfold InBytes ofBytes asSigned
    rw [weight_eq]
    cases signed with
    | false => simpa using hlt
    | true =>
      simp only [if_true, Bool.true_and, decide_eq_true_eq]
      split
      · split <;> omega
      · next hsize =>
        have hnil : bs = [] := List.eq_nil_of_length_eq_zero (by omega)
        subst hnil
        decide
  · unfold bytesOf
    rw [hres, Int.toNat_natCast, lowBytes_ofLowBytes h]

theorem swapBytes_spec (h : InBytes size signed x) :
    InBytes size signed (swapBytes size signed x)
      ∧ bytesOf size (swapBytes size signed x) = (bytesOf size x).reverse
      ∧ swapBytes size signed (swapBytes size signed x) = x := by
  have hbytes : ∀ b ∈ (bytesOf size x).reverse, b < 256 := by
    intro b hb
    exact lt_of_mem_lowBytes (List.mem_reverse.mp hb)
  have hback := bytesOf_ofBytes signed hbytes
  rw [List.length_reverse, length_bytesOf, ← swapBytes_eq] at hback
  refine ⟨hback.1, hback.2, ?_⟩
  rw [swapBytes_eq, hback.2, List.reverse_reverse, ofBytes_bytesOf h]

theorem fits_iff :
    fits size signed x = true ↔ InBytes size signed x ∨ signed = true ∧ size = 0 ∧ x = -1 := by
  unfold fits InBytes
  rw [weight_eq]
  cases signed with
  | false => simp
  | true =>
    simp only [if_true, Bool.or_eq_true, beq_iff_eq, Bool.and_eq_true, decide_eq_true_eq, true_and]
    constructor
    · intro h
      rcases h with rfl | h
      · -- one byte is enough for `-1`
        rcases Nat.eq_zero_or_pos size with hsize | hsize
        · exact .inr ⟨hsize, rfl⟩
        · obtain ⟨n, rfl⟩ := Nat.exists_eq_succ_of_ne_zero hsize.ne'
          have hpos := two_pow_pos (8 * n)
          rw [Nat.mul_succ, pow_add]
          exact .inl ⟨by omega, by omega⟩
      · exact .inl h
    · intro h
      rcases h with h | ⟨-, hx⟩
      · exact .inr h
      · exact .inl hx

theorem reverseBytes_natCast (size : Nat) (signed : Bool) (x : Int) :
    reverseBytes size signed x
      = if fits size signed x then .ok (swapBytes size signed x) else .error .tooWide := by
  unfold reverseBytes
  rw [if_neg (by omega), Int.toNat_natCast]

/-! ## Putting a word together -/

theorem swapBytes_two (h : 0 ≤ x ∧ x < 2 ^ 16) :
    swapBytes 2 false x = x / 2 ^ 8 % 2 ^ 8 + x % 2 ^ 8 * 2 ^ 8 := by
  obtain ⟨n, rfl⟩ := Int.eq_ofNat_of_zero_le h.1
  have hn : ((n : Int) % 2 ^ (8 * 2)).toNat = n := by
    rw [Int.emod_eq_of_lt h.1 h.2, Int.toNat_natCast]
  simp only [swapBytes, weight_eq, hn, lowBytes, ofLowBytes, List.reverse_cons, List.reverse_nil,
    List.nil_append, List.cons_append, Bool.false_and, Bool.false_eq_true, if_false]
  push_cast
  ring

theorem swapBytes_four (h : 0 ≤ x ∧ x < 2 ^ 32) :
    swapBytes 4 false x = x / 2 ^ 24 % 2 ^ 8 + x / 2 ^ 16 % 2 ^ 8 * 2 ^ 8
      + x / 2 ^ 8 % 2 ^ 8 * 2 ^ 16 + x % 2 ^ 8 * 2 ^ 24 := by
  obtain ⟨n, rfl⟩ := Int.eq_ofNat_of_zero_le h.1
  have hn : ((n : Int) % 2 ^ (8 * 4)).toNat = n := by
    rw [Int.emod_eq_of_lt h.1 h.2, Int.toNat_natCast]
  simp only [swapBytes, weight_eq, hn, lowBytes, ofLowBytes, List.reverse_cons, List.reverse_nil,
    List.nil_append, List.cons_append, Bool.false_and, Bool.false_eq_true, if_false,
    Nat.div_div_eq_div_mul]
  push_cast
  ring

theorem asSigned_emod (x : Int) : asSigned 16 (x % 2 ^ 16).toNat = x.bmod (2 ^ 16) := by
  unfold asSigned
  rw [weight_eq, Int.bmod_def]
  split <;> split <;> omega

theorem parts_of_sum {o s h₀ h₁ i₀ i₁ i₂ i₃ w : Int}
    (hw : w = o * 2 ^ 56 + s * 2 ^ 52 + d * 2 ^ 48 + h₀ * 2 ^ 40 + h₁ * 2 ^ 32 + i₀ * 2 ^ 24
      + i₁ * 2 ^ 16 + i₂ * 2 ^ 8 + i₃) (ho : 0 ≤ o ∧ o < 2 ^ 8) (hs : 0 ≤ s ∧ s < 2 ^ 4)
    (hd : 0 ≤ d ∧ d < 2 ^ 4) (hh₀ : 0 ≤ h₀ ∧ h₀ < 2 ^ 8) (hh₁ : 0 ≤ h₁ ∧ h₁ < 2 ^ 8)
    (hi₀ : 0 ≤ i₀ ∧ i₀ < 2 ^ 8) (hi₁ : 0 ≤ i₁ ∧ i₁ < 2 ^ 8) (hi₂ : 0 ≤ i₂ ∧ i₂ < 2 ^ 8)
    (hi₃ : 0 ≤ i₃ ∧ i₃ < 2 ^ 8) :
    (0 ≤ w ∧ w < 2 ^ 64) ∧ w / 2 ^ 56 % 2 ^ 8 = o ∧ w / 2 ^ 52 % 2 ^ 4 = s
      ∧ w / 2 ^ 48 % 2 ^ 4 = d ∧ w / 2 ^ 40 % 2 ^ 8 = h₀ ∧ w / 2 ^ 32 % 2 ^ 8 = h₁
      ∧ w / 2 ^ 24 % 2 ^ 8 = i₀ ∧ w / 2 ^ 16 % 2 ^ 8 = i₁ ∧ w / 2 ^ 8 % 2 ^ 8 = i₂
      ∧ w / 2 ^ 0 % 2 ^ 8 = i₃ := by
  subst hw
  refine ⟨⟨?_, ?_⟩, ?_, ?_, ?_, ?_, ?_, ?_, ?_, ?_, ?_⟩ <;> omega

theorem field_add_low (w : Int) {low width high : Nat} (h : low + width = high) :
    w / 2 ^ low % 2 ^ width * 2 ^ low + w % 2 ^ low = w % 2 ^ high := by
  subst h
  have hw := Int.mul_ediv_add_emod w (2 ^ low)
  have hq := Int.mul_ediv_add_emod (w / 2 ^ low) (2 ^ width)
  rw [Int.emod_def w (2 ^ (low + width)), pow_add, ← Int.ediv_ediv_of_nonneg (two_pow_pos low).le]
  linear_combination (2 ^ low : Int) * hq + hw

theorem sum_of_parts {w : Int} (hw : 0 ≤ w ∧ w < 2 ^ 64) :
    w / 2 ^ 56 % 2 ^ 8 * 2 ^ 56 + w / 2 ^ 52 % 2 ^ 4 * 2 ^ 52 + w / 2 ^ 48 % 2 ^ 4 * 2 ^ 48
      + w / 2 ^ 40 % 2 ^ 8 * 2 ^ 40 + w / 2 ^ 32 % 2 ^ 8 * 2 ^ 32 + w / 2 ^ 24 % 2 ^ 8 * 2 ^ 24
      + w / 2 ^ 16 % 2 ^ 8 * 2 ^ 16 + w / 2 ^ 8 % 2 ^ 8 * 2 ^ 8 + w / 2 ^ 0 % 2 ^ 8 = w := by
  have hlow : w / 2 ^ 0 = w := Int.ediv_one w
  have hall : w % 2 ^ 64 = w := Int.emod_eq_of_lt hw.1 hw.2
  rw [hlow]
  -- from the lowest field up, each one extends the bits below it
  linear_combination field_add_low w (by decide : 8 + 8 = 16)
    + field_add_low w (by decide : 16 + 8 = 24) + field_add_low w (by decide : 24 + 8 = 32)
    + field_add_low w (by decide : 32 + 8 = 40) + field_add_low w (by decide : 40 + 8 = 48)
    + field_add_low w (by decide : 48 + 4 = 52) + field_add_low w (by decide : 52 + 4 = 56)
    + field_add_low w (by decide : 56 + 8 = 64) + hall

theorem sum_of_two (x : Int) :
    x % 2 ^ 16 % 2 ^ 8 + x % 2 ^ 16 / 2 ^ 8 % 2 ^ 8 * 2 ^ 8 = x % 2 ^ 16 := by
  omega

theorem sum_of_four (x : Int) :
    x % 2 ^ 32 % 2 ^ 8 + x % 2 ^ 32 / 2 ^ 8 % 2 ^ 8 * 2 ^ 8
      + x % 2 ^ 32 / 2 ^ 16 % 2 ^ 8 * 2 ^ 16 + x % 2 ^ 32 / 2 ^ 24 % 2 ^ 8 * 2 ^ 24
      = x % 2 ^ 32 := by
  omega

end Word

namespace Fields

open Word (Proper unpacked weight_eq)

/-- Of each field the bits that have a place in a word. -/
def reduced (f : Fields) : Fields where
  opcode := f.opcode % 2 ^ 8
  dst := f.dst % 2 ^ 4
  src := f.src % 2 ^ 4
  offset := f.offset.bmod (2 ^ 16)
  immediate := f.immediate % 2 ^ 32

theorem encode_eq (f : Fields) :
    f.encode = f.opcode % 2 ^ 8 * 2 ^ 56 + f.src % 2 ^ 4 * 2 ^ 52 + f.dst % 2 ^ 4 * 2 ^ 48
      + f.offset % 2 ^ 16 % 2 ^ 8 * 2 ^ 40 + f.offset % 2 ^ 16 / 2 ^ 8 % 2 ^ 8 * 2 ^ 32
      + f.immediate % 2 ^ 32 % 2 ^ 8 * 2 ^ 24 + f.immediate % 2 ^ 32 / 2 ^ 8 % 2 ^ 8 * 2 ^ 16
      + f.immediate % 2 ^ 32 / 2 ^ 16 % 2 ^ 8 * 2 ^ 8
      + f.immediate % 2 ^ 32 / 2 ^ 24 % 2 ^ 8 := by
  unfold encode
  simp only [weight_eq]
  rw [Word.swapBytes_two (by omega), Word.swapBytes_four (by omega)]
  ring

theorem unpacked_encode (f : Fields) : Proper f.encode ∧ unpacked f.encode = f.reduced := by
  obtain ⟨hproper, ho, hs, hd, hh₀, hh₁, hi₀, hi₁, hi₂, hi₃⟩ := Word.parts_of_sum f.encode_eq
    (by omega) (by omega) (by omega) (by omega) (by omega) (by omega) (by omega) (by omega)
    (by omega)
  refine ⟨hproper, ?_⟩
  unfold unpacked reduced
  rw [ho, hs, hd, hh₀, hh₁, hi₀, hi₁, hi₂, hi₃, Word.sum_of_two, Word.sum_of_four,
    Word.asSigned_emod]

theorem decode_encode (f : Fields) : decode f.encode = .ok f.reduced := by
  obtain ⟨hproper, hfields⟩ := f.unpacked_encode
  rw [Word.decode_proper hproper, hfields]

end Fields

namespace Word

theorem bytes_of_offset (ha : 0 ≤ a ∧ a < 2 ^ 8) (hb : 0 ≤ b ∧ b < 2 ^ 8) :
    asSigned 16 (a + b * 2 ^ 8).toNat % 2 ^ 16 % 2 ^ 8 = a
      ∧ asSigned 16 (a + b * 2 ^ 8).toNat % 2 ^ 16 / 2 ^ 8 % 2 ^ 8 = b := by
  unfold asSigned
  rw [weight_eq]
  split <;> omega

theorem bytes_of_immediate {c : Int} (hx : x = a + b * 2 ^ 8 + c * 2 ^ 16 + d * 2 ^ 24)
    (ha : 0 ≤ a ∧ a < 2 ^ 8) (hb : 0 ≤ b ∧ b < 2 ^ 8) (hc : 0 ≤ c ∧ c < 2 ^ 8)
    (hd : 0 ≤ d ∧ d < 2 ^ 8) :
    x % 2 ^ 32 % 2 ^ 8 = a ∧ x % 2 ^ 32 / 2 ^ 8 % 2 ^ 8 = b ∧ x % 2 ^ 32 / 2 ^ 16 % 2 ^ 8 = c
      ∧ x % 2 ^ 32 / 2 ^ 24 % 2 ^ 8 = d := by
  subst hx
  refine ⟨?_, ?_, ?_, ?_⟩ <;> omega

theorem encode_unpacked (hw : Proper w) : (unpacked w).encode = w := by
  obtain ⟨hh₀, hh₁⟩ := bytes_of_offset (a := w / 2 ^ 40 % 2 ^ 8) (b := w / 2 ^ 32 % 2 ^ 8)
    (by omega) (by omega)
  obtain ⟨hi₀, hi₁, hi₂, hi₃⟩ := bytes_of_immediate (x := (unpacked w).immediate) rfl
    (by omega) (by omega) (by omega) (by omega)
  rw [Fields.encode_eq, hi₀, hi₁, hi₂, hi₃]
  unfold unpacked
  rw [hh₀, hh₁, Int.emod_emod_of_dvd _ (dvd_refl _), Int.emod_emod_of_dvd _ (dvd_refl _),
    Int.emod_emod_of_dvd _ (dvd_refl _)]
  exact sum_of_parts hw

theorem reduced_unpacked (hw : Proper w) : (unpacked w).reduced = unpacked w := by
  rw [← (unpacked w).unpacked_encode.2, encode_unpacked hw]

theorem eq_of_unpacked {w' : Word} (hw : Proper w) (hw' : Proper w')
    (h : unpacked w = unpacked w') : w = w' := by
  rw [← encode_unpacked hw, h, encode_unpacked hw']

theorem decode_eq_error_iff : Fields.decode w = .error .tooWide ↔ ¬ Proper w := by
  constructor
  · intro h hw
    rw [decode_proper hw] at h
    cases h
  · intro hw
    have hfits : ¬ fits 8 false w = true := by
      rw [fits_iff]
      intro h
      rcases h with h | h
      · exact hw h
      · cases h.1
    unfold Fields.decode
    rw [show (8 : Int) = ((8 : Nat) : Int) from rfl, reverseBytes_natCast, if_neg hfits]
    rfl

theorem reverseBytes_ok_iff {size : Int} : (∃ y, reverseBytes size signed x = .ok y)
      ↔ 0 ≤ size ∧ (InBytes size.toNat signed x ∨ signed = true ∧ size = 0 ∧ x = -1) := by
  by_cases hsize : 0 ≤ size
  · obtain ⟨n, rfl⟩ := Int.eq_ofNat_of_zero_le hsize
    rw [reverseBytes_natCast, Int.toNat_natCast, Int.natCast_eq_zero, ← fits_iff]
    by_cases hfits : fits n signed x = true
    · simp [hfits]
    · simp [hfits]
  · simp [reverseBytes, hsize, show size < 0 by omega]

theorem reverseBytes_involutive {size : Nat} (h : InBytes size signed x) :
    ∃ y, reverseBytes size signed x = .ok y ∧ InBytes size signed y
      ∧ bytesOf size y = (bytesOf size x).reverse ∧ reverseBytes size signed y = .ok x := by
  obtain ⟨hin, hbytes, hback⟩ := swapBytes_spec h
  refine ⟨swapBytes size signed x, ?_, hin, hbytes, ?_⟩
  · rw [reverseBytes_natCast, if_pos (fits_iff.mpr (.inl h))]
  · rw [reverseBytes_natCast, if_pos (fits_iff.mpr (.inl hin)), hback]

/-- Words and fields determine each other. A word is put together again from its fields,
    whatever fields are put into a word come back up to their widths, and everything that
    is no word is refused. A number that some bytes can hold, written in one byte order
    and read in the other, has its bytes reversed, and the same step leads back. -/
theorem codec_bijective :
    (∀ w : Word, Proper w → ∃ f, Fields.decode w = .ok f ∧ f.encode = w)
      ∧ (∀ f : Fields, Fields.decode f.encode = .ok f.reduced)
      ∧ (∀ w : Word, Fields.decode w = .error .tooWide ↔ ¬ Proper w)
      ∧ (∀ (size : Nat) (signed : Bool) (x : Int), InBytes size signed x →
          ∃ y, reverseBytes size signed x = .ok y ∧ InBytes size signed y
            ∧ bytesOf size y = (bytesOf size x).reverse ∧ reverseBytes size signed y = .ok x)
      ∧ ∀ (size : Int) (signed : Bool) (x : Int), (∃ y, reverseBytes size signed x = .ok y)
          ↔ 0 ≤ size ∧ (InBytes size.toNat signed x ∨ signed = true ∧ size = 0 ∧ x = -1) := by
  refine ⟨?_, Fields.decode_encode, fun _ => decode_eq_error_iff,
    fun _ _ _ => reverseBytes_involutive, fun _ _ _ => reverseBytes_ok_iff⟩
  intro w hw
  exact ⟨unpacked w, decode_proper hw, encode_unpacked hw⟩

end Word
end BpfLanes
