import BpfLanes.Dump
import BpfLanes.Text.Integer
import BpfLanes.Text.Numeral
import Mathlib.Tactic.Ring

/-! # Hexadecimal texts

Addresses, registers and images are texts of hexadecimal digits. Digits of a fixed
width can be cut and joined like the number they stand for, and are read back as
that number. Such digits are no white space and no line ends, so lines of them are
found again in the text that joins them.
-/

namespace BpfLanes

variable {c : Char} {lines : List (List Char)} {cs : List Char} {n width : Nat}

/-- A hexadecimal digit. -/
def IsHex (c : Char) : Prop := (Dump.hexDigit? c).isSome = true

/-! ## Digits of fixed width -/

namespace Numeral

/-- The last `width` hexadecimal digits of a number. -/
def hexDigits : Nat → Nat → List Char
  | 0, _ => []
  | width + 1, n => hexDigits width (n / 16) ++ [Nat.digitChar (n % 16)]

@[simp] theorem length_hexDigits (width n : Nat) : (hexDigits width n).length = width := by
  induction width generalizing n with
  | zero => rfl
  | succ width ih => simp [hexDigits, ih]

theorem hexDigits_zero (width : Nat) : hexDigits width 0 = List.replicate width '0' := by
  induction width with
  | zero => rfl
  | succ width ih =>
    rw [hexDigits, Nat.zero_div, ih, List.replicate_succ']
    rfl

theorem hexDigits_add (a b n : Nat) :
    hexDigits (a + b) n = hexDigits a (n / 16 ^ b) ++ hexDigits b n := by
  induction b generalizing n with
  | zero => simp [hexDigits]
  | succ b ih =>
    show hexDigits (a + b) (n / 16) ++ _ = _
    rw [ih, hexDigits, Nat.div_div_eq_div_mul, ← Nat.pow_succ', List.append_assoc]

theorem hexDigits_mod (width n k : Nat) :
    hexDigits width (n + 16 ^ width * k) = hexDigits width n := by
  induction width generalizing n with
  | zero => rfl
  | succ width ih =>
    have hquot : (n + 16 ^ (width + 1) * k) / 16 = n / 16 + 16 ^ width * k := by
      rw [Nat.pow_succ', Nat.mul_assoc, Nat.add_mul_div_left _ _ (by decide)]
    have hrem : (n + 16 ^ (width + 1) * k) % 16 = n % 16 := by
      rw [Nat.pow_succ', Nat.mul_assoc, Nat.add_mul_mod_self_left]
    rw [hexDigits, hexDigits, hquot, hrem, ih]

theorem padLeft_digits (hpos : 0 < width) (h : n < 16 ^ width) :
    padLeft '0' width (digits 16 n) = String.ofList (hexDigits width n) := by
  have hlist : List.replicate (width - (Nat.toDigits 16 n).length) '0' ++ Nat.toDigits 16 n
      = hexDigits width n := by
    induction width generalizing n with
    | zero => omega
    | succ width ih =>
      rw [Nat.toDigits_eq_if (by decide)]
      split
      · next hlt =>
        simp [hexDigits, Nat.div_eq_of_lt hlt, Nat.mod_eq_of_lt hlt, hexDigits_zero]
      next hge =>
      have hquot : n / 16 < 16 ^ width := by omega
      have hwidth : 0 < width := by
        by_contra hzero
        obtain rfl : width = 0 := by omega
        omega
      rw [hexDigits, ← ih hwidth hquot, List.append_assoc, List.length_append]
      simp
  unfold padLeft run digits
  rw [← String.ofList_append]
  simp only [String.length_ofList]
  rw [hlist]

theorem zeroPadded_natCast (hpos : 0 < width) (h : n < 16 ^ width) :
    zeroPadded 16 width (n : Int) = String.ofList (hexDigits width n) := by
  have hsign : sign (n : Int) = "" := by
    unfold sign
    rw [if_neg (by omega)]
  unfold zeroPadded
  rw [hsign, Int.natAbs_natCast, ← padLeft_digits hpos h]
  simp

theorem digitChar_hex : ∀ d < 16, Dump.hexDigit? (Nat.digitChar d) = some d := by decide

theorem isHex_of_mem_hexDigits (h : c ∈ hexDigits width n) : IsHex c := by
  induction width generalizing n with
  | zero => cases h
  | succ width ih =>
    rw [hexDigits, List.mem_append, List.mem_singleton] at h
    rcases h with h | rfl
    · exact ih h
    · unfold IsHex
      rw [digitChar_hex _ (Nat.mod_lt _ (by decide))]
      rfl

end Numeral

/-! ## Characters that are digits -/

theorem IsHex.code (h : IsHex c) : 48 ≤ c.toNat ∧ c.toNat ≤ 57 ∨ 97 ≤ c.toNat ∧ c.toNat ≤ 102
      ∨ 65 ≤ c.toNat ∧ c.toNat ≤ 70 := by
  have hle : ∀ a b : Char, (decide (a ≤ b) = true) ↔ a.toNat ≤ b.toNat := by
    intro a b
    rw [decide_eq_true_eq]
    exact UInt32.le_iff_toNat_le
  unfold IsHex Dump.hexDigit? at h
  simp only [Bool.and_eq_true, hle] at h
  split at h
  · next hd => exact .inl hd
  split at h
  · next hd => exact .inr (.inl hd)
  split at h
  · next hd => exact .inr (.inr hd)
  · cases h

theorem IsHex.not_blank (h : IsHex c) : Lines.isBlank c = false := by
  have hcode := h.code
  simp only [Lines.isBlank, Bool.or_eq_false_iff, Bool.and_eq_false_imp, decide_eq_true_eq,
    decide_eq_false_iff_not, beq_eq_false_iff_ne]
  omega

theorem IsHex.ne {d : Char} (h : IsHex c) (hd : d.toNat < 48 ∨ 102 < d.toNat ∨ d = '_') :
    c ≠ d := by
  have hcode := h.code
  rintro rfl
  rcases hd with hd | hd | rfl
  · omega
  · omega
  · revert hcode
    decide

namespace Lines

theorem dropWhile_eq_self {p : Char → Bool} (h : ∀ c ∈ cs, p c = false) : cs.dropWhile p = cs := by
  cases cs with
  | nil => rfl
  | cons c rest => simp [h c List.mem_cons_self]

end Lines

/-! ## Reading back -/

namespace Integer

theorem digit?_digitChar : ∀ d < 16, digit? (Nat.digitChar d) = some d := by decide

theorem digitChar_ne_underscore : ∀ d < 16, Nat.digitChar d ≠ '_' := by decide

theorem digits?_digitChar {d : Nat} (hd : d < 16) (value : Nat) (afterDigit : Bool)
    (rest : List Char) :
    digits? 16 value afterDigit (Nat.digitChar d :: rest)
      = digits? 16 (16 * value + d) true rest := by
  rw [digits?]
  · simp [digit?_digitChar d hd, hd]
  · exact digitChar_ne_underscore d hd

theorem digits?_hexDigits (hpos : 0 < width) (n value : Nat) (afterDigit : Bool)
    (rest : List Char) : digits? 16 value afterDigit (Numeral.hexDigits width n ++ rest)
      = digits? 16 (value * 16 ^ width + n % 16 ^ width) true rest := by
  induction width generalizing n rest with
  | zero => omega
  | succ width ih =>
    have hmod : n % 16 ^ (width + 1) = n % 16 + 16 * (n / 16 % 16 ^ width) := by
      rw [Nat.pow_succ', Nat.mod_mul]
    rw [Numeral.hexDigits, List.append_assoc]
    by_cases hzero : width = 0
    · subst hzero
      show digits? 16 value afterDigit (Nat.digitChar (n % 16) :: rest) = _
      rw [digits?_digitChar (Nat.mod_lt _ (by decide))]
      congr 1
      omega
    · rw [ih (by omega)]
      show digits? 16 _ true (Nat.digitChar (n % 16) :: rest) = _
      rw [digits?_digitChar (Nat.mod_lt _ (by decide)), hmod]
      congr 1
      ring

theorem read?_hexDigits (hpos : 0 < width) (n : Nat) :
    read? 16 ("0x" ++ String.ofList (Numeral.hexDigits width n))
      = some ((n % 16 ^ width : Nat) : Int) := by
  have hvalue := digits?_hexDigits hpos n 0 false []
  rw [List.append_nil, Nat.zero_mul, Nat.zero_add] at hvalue
  have hhex : ∀ c ∈ Numeral.hexDigits width n, IsHex c :=
    fun c hc => Numeral.isHex_of_mem_hexDigits hc
  have hblank : ∀ c ∈ '0' :: 'x' :: Numeral.hexDigits width n, isBlank c = false := by
    intro c hc
    simp only [List.mem_cons] at hc
    rcases hc with rfl | rfl | hc
    · rfl
    · rfl
    · simp [isBlank, (hhex c hc).not_blank]
  have hfront : ('0' :: 'x' :: Numeral.hexDigits width n).dropWhile isBlank
      = '0' :: 'x' :: Numeral.hexDigits width n := rfl
  have hback : ('0' :: 'x' :: Numeral.hexDigits width n).reverse.dropWhile isBlank
      = ('0' :: 'x' :: Numeral.hexDigits width n).reverse :=
    Lines.dropWhile_eq_self fun c hc => hblank c (List.mem_reverse.mp hc)
  -- an underscore may follow the mark, but no digit is one
  have hunsigned : unsigned? 16 ('0' :: 'x' :: Numeral.hexDigits width n)
      = some (n % 16 ^ width) := by
    cases hdigits : Numeral.hexDigits width n with
    | nil =>
      have hlength := Numeral.length_hexDigits width n
      rw [hdigits] at hlength
      exact absurd hlength (Nat.ne_of_lt hpos)
    | cons c rest =>
      have hc : c ≠ '_' := (hhex c (by simp [hdigits])).ne (by decide)
      rw [hdigits] at hvalue
      unfold unsigned?
      simp [hc, hvalue, digits?]
  have htext : ("0x" ++ String.ofList (Numeral.hexDigits width n)).toList
      = '0' :: 'x' :: Numeral.hexDigits width n := by simp
  simp only [read?, htext, hfront, hback, List.reverse_reverse, hunsigned]
  rfl

end Integer

/-! ## Lines of digits -/

namespace Lines

theorem trim_append_blank {blank : List Char} (hcs : ∀ c ∈ cs, isBlank c = false)
    (hblank : ∀ c ∈ blank, isBlank c = true) (hne : cs ≠ []) : trim (cs ++ blank) = cs := by
  have hfront : (cs ++ blank).dropWhile isBlank = cs ++ blank := by
    cases cs with
    | nil => exact absurd rfl hne
    | cons c rest => simp [hcs c List.mem_cons_self]
  have hback : (cs ++ blank).reverse.dropWhile isBlank = cs.reverse := by
    rw [List.reverse_append,
      List.dropWhile_append_of_pos fun c hc => hblank c (List.mem_reverse.mp hc)]
    exact dropWhile_eq_self fun c hc => hcs c (List.mem_reverse.mp hc)
  unfold trim trimStart trimEnd
  rw [hfront, hback, List.reverse_reverse]

theorem splitAt_eq_splitOn (sep : Char) (cs : List Char) : splitAt sep cs = cs.splitOn sep := by
  induction cs with
  | nil => rfl
  | cons c rest ih =>
    rw [List.splitOn_cons_eq_if_modifyHead, splitAt, ih]
    split
    · rfl
    · cases hrest : rest.splitOn sep with
      | nil => exact absurd hrest (List.splitOn_ne_nil sep rest)
      | cons piece pieces => rfl

theorem unify_eq_self (h : ∀ c ∈ cs, c ≠ '\r') : unify cs = cs := by
  induction cs with
  | nil => rfl
  | cons c rest ih =>
    have hc : c ≠ '\r' := h c List.mem_cons_self
    rw [unify, ih fun d hd => h d (List.mem_cons_of_mem c hd)]
    · intro rest' hr
      exact absurd hr hc
    · exact hc

theorem mem_intercalate {sep : Char} (h : c ∈ [sep].intercalate lines) :
    c = sep ∨ ∃ line ∈ lines, c ∈ line := by
  induction lines with
  | nil => simp at h
  | cons line rest ih =>
    cases rest with
    | nil => exact .inr ⟨line, List.mem_cons_self, by simpa using h⟩
    | cons next rest =>
      rw [List.intercalate_cons_cons, List.mem_append, List.mem_append,
        List.mem_singleton] at h
      rcases h with (h | h) | h
      · exact .inr ⟨line, List.mem_cons_self, h⟩
      · exact .inl h
      · rcases ih h with h | ⟨line', hline', hc⟩
        · exact .inl h
        · exact .inr ⟨line', List.mem_cons_of_mem line hline', hc⟩

theorem ofText_intercalate (hne : lines ≠ []) (h : ∀ line ∈ lines, ∀ c ∈ line, IsHex c) :
    ofText (String.ofList (['\n'].intercalate lines)) = lines := by
  have hends : ∀ c ∈ ['\n'].intercalate lines, c ≠ '\r' := by
    intro c hc
    rcases mem_intercalate hc with rfl | ⟨line, hline, hc⟩
    · decide
    · exact (h line hline c hc).ne (by decide)
  have hsep : ∀ line ∈ lines, '\n' ∉ line := by
    intro line hline hc
    exact (h line hline _ hc).ne (by decide) rfl
  unfold ofText
  rw [String.toList_ofList, unify_eq_self hends, splitAt_eq_splitOn]
  exact List.splitOn_intercalate '\n' hsep hne

end Lines
end BpfLanes
