import BpfLanes.Fields
import Mathlib.Tactic.LinearCombination
import Mathlib.Tactic.Ring

/-! # The fields of a word

A word is read lowest byte first and written highest byte first. `Word.unpacked`
names the bits of each field without the byte order, so that decoding a word,
and decoding it after one of its fields was replaced, is plain arithmetic.
-/

namespace BpfLanes
variable {f : Fields}

namespace Word

variable {w w' : Word} {v q o : Int}

theorem weight_eq (n : Nat) : weight n = 2 ^ n :=
  Int.natCast_pow 2 n

/-! ## Replacing some bits -/

section
variable (low width : Nat) (v w : Int)

theorem two_pow_pos (n : Nat) : (0 : Int) < 2 ^ n := Int.pow_pos (by decide)

theorem writeField_eq :
    writeField low width v w = (w / 2 ^ low / 2 ^ width * 2 ^ width + v % 2 ^ width) * 2 ^ low
      + w % 2 ^ low := by
  have hw := Int.mul_ediv_add_emod w (2 ^ low)
  have hq := Int.mul_ediv_add_emod (w / 2 ^ low) (2 ^ width)
  unfold writeField
  rw [weight_eq, weight_eq]
  linear_combination (2 ^ low : Int) * (-hq) - hw

theorem writeField_emod : writeField low width v w % 2 ^ low = w % 2 ^ low := by
  rw [writeField_eq, add_comm, Int.add_mul_emod_self_right, Int.emod_emod_of_dvd _ (dvd_refl _)]

theorem writeField_ediv :
    writeField low width v w / 2 ^ low = w / 2 ^ low / 2 ^ width * 2 ^ width + v % 2 ^ width := by
  have hpos := two_pow_pos low
  rw [writeField_eq, add_comm, Int.add_mul_ediv_right _ _ hpos.ne',
    Int.ediv_eq_zero_of_lt (Int.emod_nonneg _ hpos.ne') (Int.emod_lt_of_pos _ hpos), zero_add]

theorem writeField_same : writeField low width v w / 2 ^ low % 2 ^ width = v % 2 ^ width := by
  rw [writeField_ediv, add_comm, Int.add_mul_emod_self_right, Int.emod_emod_of_dvd _ (dvd_refl _)]

theorem writeField_above {high : Nat} (h : low + width ≤ high) :
    writeField low width v w / 2 ^ high = w / 2 ^ high := by
  obtain ⟨d, rfl⟩ := Nat.exists_eq_add_of_le h
  have hw := two_pow_pos width
  have hsplit : ∀ x : Int, x / 2 ^ (low + width + d) = x / 2 ^ low / 2 ^ width / 2 ^ d := by
    intro x
    rw [pow_add, pow_add, Int.ediv_ediv_of_nonneg (two_pow_pos low).le, Int.ediv_ediv_of_nonneg]
    exact (Int.mul_pos (two_pow_pos low) hw).le
  rw [hsplit, hsplit, writeField_ediv, add_comm, Int.add_mul_ediv_right _ _ hw.ne',
    Int.ediv_eq_zero_of_lt (Int.emod_nonneg _ hw.ne') (Int.emod_lt_of_pos _ hw), zero_add]

theorem writeField_below {start size : Nat} (h : start + size ≤ low) :
    writeField low width v w / 2 ^ start % 2 ^ size = w / 2 ^ start % 2 ^ size := by
  obtain ⟨d, rfl⟩ := Nat.exists_eq_add_of_le h
  have hpos := two_pow_pos start
  -- a number and what it leaves modulo `2 ^ low` agree on every field below
  have hfield : ∀ x : Int,
      x / 2 ^ start % 2 ^ size = x % 2 ^ (start + size + d) / 2 ^ start % 2 ^ size := by
    intro x
    have hx := Int.mul_ediv_add_emod x (2 ^ (start + size + d))
    have hsum : x = x % 2 ^ (start + size + d)
        + x / 2 ^ (start + size + d) * 2 ^ d * 2 ^ size * 2 ^ start := by
      linear_combination -hx
    calc x / 2 ^ start % 2 ^ size
        = (x % 2 ^ (start + size + d)
            + x / 2 ^ (start + size + d) * 2 ^ d * 2 ^ size * 2 ^ start) / 2 ^ start % 2 ^ size := by
          rw [← hsum]
      _ = x % 2 ^ (start + size + d) / 2 ^ start % 2 ^ size := by
          rw [Int.add_mul_ediv_right _ _ hpos.ne', Int.add_mul_emod_self_right]
  rw [hfield, writeField_emod, ← hfield]

theorem writeField_mem {n : Nat} (h : low + width ≤ n) (hw : 0 ≤ w ∧ w < 2 ^ n) :
    0 ≤ writeField low width v w ∧ writeField low width v w < 2 ^ n := by
  have hpos := two_pow_pos n
  have hzero : writeField low width v w / 2 ^ n = 0 := by
    rw [writeField_above low width v w h]
    exact Int.ediv_eq_zero_of_lt hw.1 hw.2
  have hsplit := Int.mul_ediv_add_emod (writeField low width v w) (2 ^ n)
  rw [hzero, mul_zero, zero_add] at hsplit
  rw [← hsplit]
  exact ⟨Int.emod_nonneg _ hpos.ne', Int.emod_lt_of_pos _ hpos⟩

end

/-! ## Decoding -/

/-- A word of 64 bits. -/
def Proper (w : Word) : Prop := 0 ≤ w ∧ w < 2 ^ 64

/-- The fields of a word, read bit by bit. -/
def unpacked (w : Word) : Fields where
  opcode := w / 2 ^ 56 % 2 ^ 8
  dst := w / 2 ^ 48 % 2 ^ 4
  src := w / 2 ^ 52 % 2 ^ 4
  offset := asSigned 16 (w / 2 ^ 40 % 2 ^ 8 + w / 2 ^ 32 % 2 ^ 8 * 2 ^ 8).toNat
  immediate := w / 2 ^ 24 % 2 ^ 8 + w / 2 ^ 16 % 2 ^ 8 * 2 ^ 8 + w / 2 ^ 8 % 2 ^ 8 * 2 ^ 16
    + w / 2 ^ 0 % 2 ^ 8 * 2 ^ 24

theorem swapBytes_eight (w : Word) (hw : Proper w) :
    swapBytes 8 false w = w / 2 ^ 56 % 2 ^ 8 + w / 2 ^ 48 % 2 ^ 8 * 2 ^ 8
      + w / 2 ^ 40 % 2 ^ 8 * 2 ^ 16 + w / 2 ^ 32 % 2 ^ 8 * 2 ^ 24 + w / 2 ^ 24 % 2 ^ 8 * 2 ^ 32
      + w / 2 ^ 16 % 2 ^ 8 * 2 ^ 40 + w / 2 ^ 8 % 2 ^ 8 * 2 ^ 48
      + w / 2 ^ 0 % 2 ^ 8 * 2 ^ 56 := by
  obtain ⟨x, rfl⟩ := Int.eq_ofNat_of_zero_le hw.1
  have hx : ((x : Int) % 2 ^ (8 * 8)).toNat = x := by
    rw [Int.emod_eq_of_lt hw.1 hw.2, Int.toNat_natCast]
  simp only [swapBytes, weight_eq, hx, lowBytes, ofLowBytes, List.reverse_cons, List.reverse_nil,
    List.nil_append, List.cons_append, Bool.false_and, Bool.false_eq_true, if_false,
    Nat.div_div_eq_div_mul]
  push_cast
  rw [Int.ediv_one]
  ring

theorem fields_of_bytes {b₀ b₁ b₂ b₃ b₄ b₅ b₆ b₇ r : Int}
    (hr : r = b₇ + b₆ * 2 ^ 8 + b₅ * 2 ^ 16 + b₄ * 2 ^ 24 + b₃ * 2 ^ 32 + b₂ * 2 ^ 40
      + b₁ * 2 ^ 48 + b₀ * 2 ^ 56)
    (h₀ : 0 ≤ b₀ ∧ b₀ < 2 ^ 8) (h₁ : 0 ≤ b₁ ∧ b₁ < 2 ^ 8) (h₂ : 0 ≤ b₂ ∧ b₂ < 2 ^ 8)
    (h₃ : 0 ≤ b₃ ∧ b₃ < 2 ^ 8) (h₄ : 0 ≤ b₄ ∧ b₄ < 2 ^ 8) (h₅ : 0 ≤ b₅ ∧ b₅ < 2 ^ 8)
    (h₆ : 0 ≤ b₆ ∧ b₆ < 2 ^ 8) (h₇ : 0 ≤ b₇ ∧ b₇ < 2 ^ 8) :
    r % 2 ^ 8 = b₇ ∧ r / 2 ^ 8 % 2 ^ 4 = b₆ % 2 ^ 4 ∧ r / 2 ^ 12 % 2 ^ 4 = b₆ / 2 ^ 4
      ∧ r / 2 ^ 16 % 2 ^ 16 = b₅ + b₄ * 2 ^ 8
      ∧ r / 2 ^ 32 % 2 ^ 32 = b₃ + b₂ * 2 ^ 8 + b₁ * 2 ^ 16 + b₀ * 2 ^ 24 := by
  subst hr
  refine ⟨?_, ?_, ?_, ?_, ?_⟩ <;> omega

theorem register_nibbles (w : Int) :
    w / 2 ^ 48 % 2 ^ 8 % 2 ^ 4 = w / 2 ^ 48 % 2 ^ 4
      ∧ w / 2 ^ 48 % 2 ^ 8 / 2 ^ 4 = w / 2 ^ 52 % 2 ^ 4 := by
  have h : w / 2 ^ 52 = w / 2 ^ 48 / 2 ^ 4 := by omega
  rw [h]
  generalize w / 2 ^ 48 = x
  omega

theorem decode_eq_ok_iff : Fields.decode w = .ok f ↔ Proper w ∧ f = unpacked w := by
  unfold Fields.decode reverseBytes
  have hfits : fits (8 : Int).toNat false w = decide (0 ≤ w ∧ w < 2 ^ 64) := by
    show (decide (0 ≤ w) && decide (w < weight (8 * 8))) = _
    rw [Bool.decide_and, weight_eq]
  rw [if_neg (by decide), hfits]
  by_cases hw : 0 ≤ w ∧ w < 2 ^ 64
  · rw [if_pos (decide_eq_true hw)]
    obtain ⟨e₁, e₂, e₃, e₄, e₅⟩ := fields_of_bytes (swapBytes_eight w hw)
      (by omega) (by omega) (by omega) (by omega) (by omega) (by omega) (by omega) (by omega)
    obtain ⟨e₂', e₃'⟩ := register_nibbles w
    show Except.ok _ = Except.ok f ↔ _
    simp only [weight_eq]
    rw [show (8 : Int).toNat = 8 from rfl, e₁, e₂, e₃, e₄, e₅, e₂', e₃']
    rw [Except.ok.injEq, eq_comm]
    exact ⟨fun h => ⟨hw, h⟩, fun h => h.2⟩
  · rw [if_neg (by rw [decide_eq_false hw]; decide)]
    constructor
    · intro h
      cases h
    · intro h
      exact absurd h.1 hw

theorem decode_proper (hw : Proper w) : Fields.decode w = .ok (unpacked w) :=
  decode_eq_ok_iff.mpr ⟨hw, rfl⟩

/-! ## Decoding an edited word -/

theorem unpacked_writeOpcode (v : Int) (w : Word) :
    unpacked (writeField 56 8 v w) = { unpacked w with opcode := v % 2 ^ 8 } := by
  unfold unpacked
  rw [writeField_same, writeField_below 56 8 v w (by decide : 48 + 4 ≤ 56),
    writeField_below 56 8 v w (by decide : 52 + 4 ≤ 56),
    writeField_below 56 8 v w (by decide : 40 + 8 ≤ 56),
    writeField_below 56 8 v w (by decide : 32 + 8 ≤ 56),
    writeField_below 56 8 v w (by decide : 24 + 8 ≤ 56),
    writeField_below 56 8 v w (by decide : 16 + 8 ≤ 56),
    writeField_below 56 8 v w (by decide : 8 + 8 ≤ 56),
    writeField_below 56 8 v w (by decide : 0 + 8 ≤ 56)]

theorem unpacked_writeSource (v : Int) (w : Word) :
    unpacked (writeField 52 4 v w) = { unpacked w with src := v % 2 ^ 4 } := by
  unfold unpacked
  rw [writeField_same, writeField_above 52 4 v w (by decide : 52 + 4 ≤ 56),
    writeField_below 52 4 v w (by decide : 48 + 4 ≤ 52),
    writeField_below 52 4 v w (by decide : 40 + 8 ≤ 52),
    writeField_below 52 4 v w (by decide : 32 + 8 ≤ 52),
    writeField_below 52 4 v w (by decide : 24 + 8 ≤ 52),
    writeField_below 52 4 v w (by decide : 16 + 8 ≤ 52),
    writeField_below 52 4 v w (by decide : 8 + 8 ≤ 52),
    writeField_below 52 4 v w (by decide : 0 + 8 ≤ 52)]

theorem unpacked_writeTarget (v : Int) (w : Word) :
    unpacked (writeField 48 4 v w) = { unpacked w with dst := v % 2 ^ 4 } := by
  unfold unpacked
  rw [writeField_same, writeField_above 48 4 v w (by decide : 48 + 4 ≤ 56),
    writeField_above 48 4 v w (by decide : 48 + 4 ≤ 52),
    writeField_below 48 4 v w (by decide : 40 + 8 ≤ 48),
    writeField_below 48 4 v w (by decide : 32 + 8 ≤ 48),
    writeField_below 48 4 v w (by decide : 24 + 8 ≤ 48),
    writeField_below 48 4 v w (by decide : 16 + 8 ≤ 48),
    writeField_below 48 4 v w (by decide : 8 + 8 ≤ 48),
    writeField_below 48 4 v w (by decide : 0 + 8 ≤ 48)]

theorem bytes_of_half {x : Int} (h : x / 2 ^ 32 % 2 ^ 16 = v % 2 ^ 16) :
    x / 2 ^ 40 % 2 ^ 8 = v / 2 ^ 8 % 2 ^ 8 ∧ x / 2 ^ 32 % 2 ^ 8 = v % 2 ^ 8 := by
  omega

theorem unpacked_writeOffset (v : Int) (w : Word) :
    unpacked (writeField 32 16 v w) = { unpacked w with
      offset := asSigned 16 (v / 2 ^ 8 % 2 ^ 8 + v % 2 ^ 8 * 2 ^ 8).toNat } := by
  obtain ⟨hhigh, hlow⟩ := bytes_of_half (writeField_same 32 16 v w)
  unfold unpacked
  rw [hhigh, hlow, writeField_above 32 16 v w (by decide : 32 + 16 ≤ 56),
    writeField_above 32 16 v w (by decide : 32 + 16 ≤ 52),
    writeField_above 32 16 v w (by decide : 32 + 16 ≤ 48),
    writeField_below 32 16 v w (by decide : 24 + 8 ≤ 32),
    writeField_below 32 16 v w (by decide : 16 + 8 ≤ 32),
    writeField_below 32 16 v w (by decide : 8 + 8 ≤ 32),
    writeField_below 32 16 v w (by decide : 0 + 8 ≤ 32)]

/-! ## Editing a word -/

theorem reverseBytes_one (h : reverseBytes 1 false q = .ok v) : 0 ≤ q ∧ q < 2 ^ 8 ∧ v = q := by
  unfold reverseBytes at h
  rw [if_neg (by decide)] at h
  split at h
  · next hf =>
    obtain ⟨h₀, h₁⟩ : 0 ≤ q ∧ q < 2 ^ 8 := by simpa [fits, weight_eq] using hf
    have hv : v = swapBytes 1 false q := (Except.ok.inj h).symm
    rw [hv]
    simp only [swapBytes, weight_eq, lowBytes, ofLowBytes, List.reverse_cons, List.reverse_nil,
      List.nil_append, Bool.false_and, Bool.false_eq_true, if_false]
    omega
  · cases h

theorem setRegister_eq {shift : Nat} (h : setRegister w q shift = .ok w') :
    0 ≤ q ∧ q < 2 ^ 8 ∧ w' = writeField shift 4 q w := by
  unfold setRegister at h
  cases hv : reverseBytes 1 false q with
  | error e =>
    rw [hv] at h
    cases h
  | ok v =>
    obtain ⟨h₀, h₁, rfl⟩ := reverseBytes_one hv
    rw [hv] at h
    exact ⟨h₀, h₁, (Except.ok.inj h).symm⟩

theorem decode_setSource (h : setSource w q = .ok w') (hf : Fields.decode w = .ok f) :
    Fields.decode w' = .ok { f with src := q % 2 ^ 4 } := by
  obtain ⟨hw, rfl⟩ := decode_eq_ok_iff.mp hf
  obtain ⟨_, _, rfl⟩ := setRegister_eq h
  exact decode_eq_ok_iff.mpr
    ⟨writeField_mem 52 4 q w (by decide) hw, (unpacked_writeSource q w).symm⟩

theorem decode_setTarget (h : setTarget w q = .ok w') (hf : Fields.decode w = .ok f) :
    Fields.decode w' = .ok { f with dst := q % 2 ^ 4 } := by
  obtain ⟨hw, rfl⟩ := decode_eq_ok_iff.mp hf
  obtain ⟨_, _, rfl⟩ := setRegister_eq h
  exact decode_eq_ok_iff.mpr
    ⟨writeField_mem 48 4 q w (by decide) hw, (unpacked_writeTarget q w).symm⟩

theorem bytes_asSigned {a b : Nat} (ha : a < 2 ^ 8) (hb : b < 2 ^ 8) :
    asSigned 16 (a + 2 ^ 8 * b) % 2 ^ 8 = a ∧ asSigned 16 (a + 2 ^ 8 * b) / 2 ^ 8 % 2 ^ 8 = b := by
  unfold asSigned
  rw [weight_eq]
  split <;> omega

theorem offset_round_trip (h : reverseBytes 2 true o = .ok v) :
    asSigned 16 (v / 2 ^ 8 % 2 ^ 8 + v % 2 ^ 8 * 2 ^ 8).toNat = o := by
  unfold reverseBytes at h
  rw [if_neg (by decide)] at h
  split at h
  · next hf =>
    have hrange : -(2 ^ 16) ≤ 2 * o ∧ 2 * o < 2 ^ 16 := by
      simp only [fits, weight_eq, if_true, Bool.or_eq_true, beq_iff_eq, Bool.and_eq_true,
        decide_eq_true_eq] at hf
      rcases hf with rfl | hf
      · decide
      · exact hf
    obtain ⟨x, hx⟩ := Int.eq_ofNat_of_zero_le (Int.emod_nonneg o (by decide : (2 : Int) ^ 16 ≠ 0))
    have hv : v = asSigned 16 (x / 2 ^ 8 % 2 ^ 8 + 2 ^ 8 * (x % 2 ^ 8)) := by
      rw [← Except.ok.inj h]
      show asSigned 16 (ofLowBytes (lowBytes 2 (o % weight 16).toNat).reverse) = _
      rw [weight_eq, hx]
      rfl
    obtain ⟨hlow, hhigh⟩ := bytes_asSigned (a := x / 2 ^ 8 % 2 ^ 8) (b := x % 2 ^ 8)
      (by omega) (by omega)
    rw [hv, hlow, hhigh]
    unfold asSigned
    rw [weight_eq]
    split <;> omega
  · cases h

theorem setOffset_spec (hw : Proper w) (h : setOffset w o = .ok w') :
    Proper w' ∧ unpacked w' = { unpacked w with offset := o } := by
  unfold setOffset at h
  cases hv : reverseBytes 2 true o with
  | error e =>
    rw [hv] at h
    cases h
  | ok v =>
    rw [hv] at h
    have hw' : w' = writeField 32 16 v w := (Except.ok.inj h).symm
    subst hw'
    refine ⟨writeField_mem 32 16 v w (by decide) hw, ?_⟩
    rw [unpacked_writeOffset, offset_round_trip hv]

end Word
end BpfLanes
