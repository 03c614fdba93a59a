import BpfLanes.Proofs.HexText
import BpfLanes.Proofs.Runs
import BpfLanes.Proofs.WordFields
import BpfLanes.Rom
import Mathlib.Algebra.BigOperators.Group.Finset.Basic
import Mathlib.Data.Nat.Digits.Defs

/-! # What a ROM image says

A row of an image is one number, whose digits in base `16 ^ 16` are the words of the
lanes with their bytes reversed, lane 0 lowest. `write_runs` says that the file holds
these numbers, one in a line, for the rows of the table and then for empty rows.
-/

namespace BpfLanes.Rom

variable {row : List (Option Word)}

variable {table : List (List (Option Word))}

/-! ## The number of a slot -/

/-- The eight bytes of a number below `2 ^ 64` in the opposite order. -/
def byteReversed (n : Nat) : Nat :=
  ∑ j ∈ Finset.range 8, n / 2 ^ (8 * j) % 2 ^ 8 * 2 ^ (8 * (7 - j))

theorem byteReversed_lt (n : Nat) : byteReversed n < 2 ^ 64 := by
  simp only [byteReversed, Finset.sum_range_succ, Finset.sum_range_zero]
  omega

theorem reverseBytes_eq {w : Word} (hw : Word.Proper w) :
    Word.reverseBytes 8 false w = .ok (byteReversed w.toNat : Int) := by
  have hfits : Word.fits 8 false w = true := by
    simp only [Word.fits, Word.weight_eq, Bool.false_eq_true, if_false, Bool.and_eq_true,
      decide_eq_true_eq]
    exact hw
  have hswap : Word.swapBytes 8 false w = (byteReversed w.toNat : Int) := by
    rw [Word.swapBytes_eight w hw]
    obtain ⟨n, rfl⟩ := Int.eq_ofNat_of_zero_le hw.1
    simp only [byteReversed, Finset.sum_range_succ, Finset.sum_range_zero, Int.toNat_natCast]
    push_cast
    ring
  show (if (8 : Int) < 0 then _ else if Word.fits 8 false w = true then _ else _) = _
  rw [if_neg (by decide), if_pos hfits, ← hswap]
  rfl

/-- The number that a slot has in the image; an empty slot has zero. -/
def slotNumber : Option Word → Nat
  | none => 0
  | some w => byteReversed w.toNat

theorem slotNumber_eq (slot : Option Word) :
    slotNumber slot = byteReversed (slot.getD 0).toNat := by
  cases slot with
  | none => rfl
  | some w => rfl

theorem slotNumber_lt (slot : Option Word) : slotNumber slot < 16 ^ 16 := by
  rw [slotNumber_eq]
  exact lt_of_lt_of_eq (byteReversed_lt _) (by norm_num)

/-- What fits into a slot. -/
def Fits : Option Word → Prop
  | none => True
  | some w => Word.Proper w

instance : DecidablePred Fits
  | none => isTrue trivial
  | some w => inferInstanceAs (Decidable (0 ≤ w ∧ w < 2 ^ 64))

theorem lane_eq {slot : Option Word} (h : Fits slot) :
    lane slot = .ok (String.ofList (Numeral.hexDigits 16 (slotNumber slot))) := by
  have hproper : Word.Proper (slot.getD 0) := by
    cases slot with
    | none => exact ⟨le_refl _, by decide⟩
    | some w => exact h
  unfold lane
  rw [reverseBytes_eq hproper]
  show Except.ok (Numeral.zeroPadded 16 16 (byteReversed (slot.getD 0).toNat : Int)) = _
  rw [← slotNumber_eq, Numeral.zeroPadded_natCast (by decide) (slotNumber_lt slot)]

/-! ## The number of a row -/

/-- The number that a row has in the image, its first lane in the lowest digits. -/
def rowNumber (row : List (Option Word)) : Nat :=
  Nat.ofDigits (16 ^ 16) (row.map slotNumber)

/-- The digits of a row. -/
def rowLine (row : List (Option Word)) : List Char :=
  Numeral.hexDigits (16 * row.length) (rowNumber row)

theorem rowNumber_cons (slot : Option Word) (row : List (Option Word)) :
    rowNumber (slot :: row) = slotNumber slot + 16 ^ 16 * rowNumber row := by
  unfold rowNumber
  rw [List.map_cons, Nat.ofDigits_cons]

theorem rowLine_cons (slot : Option Word) (row : List (Option Word)) :
    rowLine (slot :: row) = rowLine row ++ Numeral.hexDigits 16 (slotNumber slot) := by
  have hquot : rowNumber (slot :: row) / 16 ^ 16 = rowNumber row := by
    rw [rowNumber_cons, Nat.add_mul_div_left _ _ (Nat.pow_pos (by decide)),
      Nat.div_eq_of_lt (slotNumber_lt slot), Nat.zero_add]
  unfold rowLine
  rw [List.length_cons, Nat.mul_succ, Numeral.hexDigits_add, hquot, rowNumber_cons,
    Numeral.hexDigits_mod]

theorem rowNumber_halves (row : List (Option Word)) {k : Nat} (hk : k < row.length) :
    rowNumber row / 16 ^ (8 * (2 * k)) % 16 ^ 8 = slotNumber row[k] % 16 ^ 8
      ∧ rowNumber row / 16 ^ (8 * (2 * k + 1)) % 16 ^ 8 = slotNumber row[k] / 16 ^ 8 := by
  have hpos : 0 < 16 ^ 8 := Nat.pow_pos (by decide)
  -- the lanes below are divided away, those above are a multiple of both halves
  have hdrop : rowNumber row / 16 ^ (8 * (2 * k))
      = slotNumber row[k] + 16 ^ 8 * (16 ^ 8 * rowNumber (row.drop (k + 1))) := by
    have hdigits : ∀ d ∈ row.map slotNumber, d < 16 ^ 16 := by
      intro d hd
      obtain ⟨slot, _, rfl⟩ := List.mem_map.mp hd
      exact slotNumber_lt slot
    have hdiv := Nat.ofDigits_div_pow_eq_ofDigits_drop k (Nat.pow_pos (by decide)) _ hdigits
    rw [← List.map_drop, List.drop_eq_getElem_cons hk] at hdiv
    rw [show 8 * (2 * k) = 16 * k by omega, Nat.pow_mul, ← Nat.mul_assoc, ← Nat.pow_add]
    exact hdiv.trans (rowNumber_cons _ _)
  have hhigh : rowNumber row / 16 ^ (8 * (2 * k + 1))
      = slotNumber row[k] / 16 ^ 8 + 16 ^ 8 * rowNumber (row.drop (k + 1)) := by
    rw [show 8 * (2 * k + 1) = 8 * (2 * k) + 8 by omega, Nat.pow_add, ← Nat.div_div_eq_div_mul,
      hdrop, Nat.add_mul_div_left _ _ hpos]
  have hhalf : slotNumber row[k] / 16 ^ 8 < 16 ^ 8 := by
    rw [Nat.div_lt_iff_lt_mul hpos, ← Nat.pow_add]
    exact slotNumber_lt row[k]
  constructor
  · rw [hdrop, Nat.add_mul_mod_self_left]
  · rw [hhigh, Nat.add_mul_mod_self_left, Nat.mod_eq_of_lt hhalf]

/-! ## Writing -/

theorem putRow_runs (h : ∀ slot ∈ row, Fits slot) (w : Written) :
    Runs (putRow row) w () { w with file := w.file ++ String.ofList (rowLine row) } := by
  unfold putRow
  induction row generalizing w with
  | nil => simp [rowLine, Numeral.hexDigits]
  | cons slot row ih =>
    have hslot := lane_eq (h slot List.mem_cons_self)
    have hrow := ih (fun s hs => h s (List.mem_cons_of_mem slot hs)) w
    rw [List.reverse_cons]
    show Runs (forM (row.reverse ++ [slot]) _) w _ _
    rw [List.forM_append]
    refine runs_bind.mpr ⟨(), _, hrow, ?_⟩
    simp [hslot, put, rowLine_cons, String.ofList_append, String.append_assoc]

/-- The lines of a table, as one text. -/
def linesText (table : List (List (Option Word))) : String :=
  String.ofList (['\n'].intercalate (table.map rowLine))

theorem linesText_cons_cons (row next : List (Option Word)) (rest : List (List (Option Word))) :
    linesText (row :: next :: rest)
      = String.ofList (rowLine row) ++ "\n" ++ linesText (next :: rest) := by
  simp [linesText, List.intercalate_cons_cons, String.ofList_append, String.append_assoc]

theorem putRows_runs (hne : table ≠ []) (h : ∀ row ∈ table, ∀ slot ∈ row, Fits slot) (w : Written) :
    Runs (putRows table) w () { w with file := w.file ++ linesText table } := by
  induction table generalizing w with
  | nil => exact absurd rfl hne
  | cons row rest ih =>
    have hrow := putRow_runs (h row List.mem_cons_self)
    cases rest with
    | nil => simpa [putRows, linesText] using hrow w
    | cons next rest =>
      have hrest := ih (by simp) fun r hr => h r (List.mem_cons_of_mem row hr)
      show Runs (putRow row >>= fun _ => put "\n" >>= fun _ => putRows (next :: rest)) w _ _
      refine runs_bind.mpr ⟨(), _, hrow w, ?_⟩
      simpa [put, linesText_cons_cons, String.append_assoc] using hrest
        { w with file := w.file ++ String.ofList (rowLine row) ++ "\n" }

/-- A table that fits in memory: at most as many rows as it has, of four slots each. -/
structure Loadable (table : List (List (Option Word))) : Prop where
  ne_nil : table ≠ []
  length_le : table.length ≤ rows
  width : ∀ row ∈ table, row.length = 4
  fits : ∀ row ∈ table, ∀ slot ∈ row, Fits slot

/-- The table with empty rows up to the size of memory. -/
def filled (table : List (List (Option Word))) : List (List (Option Word)) :=
  table ++ List.replicate (rows - table.length) (List.replicate 4 none)

theorem linesText_append {above below : List (List (Option Word))} (habove : above ≠ [])
    (hbelow : below ≠ []) :
    linesText (above ++ below) = linesText above ++ "\n" ++ linesText below := by
  induction above with
  | nil => exact absurd rfl habove
  | cons row rest ih =>
    cases rest with
    | nil =>
      obtain ⟨first, others, rfl⟩ := List.exists_cons_of_ne_nil hbelow
      simp [linesText, List.intercalate_cons_cons, String.ofList_append, String.append_assoc]
    | cons next rest =>
      have hrest := ih (by simp)
      rw [List.cons_append, List.cons_append, linesText_cons_cons, linesText_cons_cons,
        ← List.cons_append, hrest]
      simp only [String.append_assoc]

section
variable (h : Loadable table)
include h

theorem length_filled : (filled table).length = rows := by
  have hle := h.length_le
  simp only [filled, List.length_append, List.length_replicate]
  omega

theorem write_runs :
    Runs (write table) {} () { file := linesText (filled table) } := by
  have htable := putRows_runs h.ne_nil h.fits {}
  have hlong : ¬ rows < table.length := Nat.not_lt.mpr h.length_le
  refine runs_bind.mpr ⟨(), _, htable, ?_⟩
  rw [if_neg hlong]
  by_cases hshort : table.length < rows
  · obtain ⟨first, others, rfl⟩ := List.exists_cons_of_ne_nil h.ne_nil
    have hwidth : first.length = 4 := h.width first List.mem_cons_self
    have hbelow : List.replicate (rows - (first :: others).length) (List.replicate 4 none)
        ≠ ([] : List (List (Option Word))) := by
      simp only [ne_eq, List.replicate_eq_nil_iff]
      omega
    have hfits : ∀ row ∈ List.replicate (rows - (first :: others).length)
        (List.replicate 4 (none : Option Word)), ∀ slot ∈ row, Fits slot := by
      intro row hrow slot hslot
      rw [List.eq_of_mem_replicate hrow] at hslot
      rw [List.eq_of_mem_replicate hslot]
      trivial
    have hpadding := putRows_runs hbelow hfits
      { file := linesText (first :: others) ++ "\n" }
    have htext := linesText_append h.ne_nil hbelow
    rw [if_pos hshort, filled, htext]
    simpa [put, hwidth] using hpadding
  · have hfull : filled table = table := by
      simp only [filled]
      rw [Nat.sub_eq_zero_of_le (Nat.not_lt.mp hshort), List.replicate_zero, List.append_nil]
    rw [if_neg hshort, hfull]
    simp

/-! ## Lines of the file -/

/-- A text of as many lines as memory has rows, each of sixty-four digits. A line end may
    follow the last line. -/
structure IsImage (text : String) (lines : List (List Char)) : Prop where
  ofText : Lines.ofText text = lines ∨ Lines.ofText text = lines ++ [[]]
  length : lines.length = rows
  width : ∀ line ∈ lines, line.length = 64
  digits : ∀ line ∈ lines, ∀ c ∈ line, IsHex c

theorem length_of_mem_filled (hrow : row ∈ filled table) : row.length = 4 := by
  rcases List.mem_append.mp hrow with hrow | hrow
  · exact h.width row hrow
  · rw [List.eq_of_mem_replicate hrow, List.length_replicate]

/-- The lines of the file of a table. -/
def fileLines (table : List (List (Option Word))) : List (List Char) :=
  (filled table).map rowLine

theorem ofText_linesText :
    Lines.ofText (linesText (filled table)) = fileLines table := by
  apply Lines.ofText_intercalate
  · simp [filled, h.ne_nil]
  · intro line hline c hc
    obtain ⟨row, _, rfl⟩ := List.mem_map.mp hline
    exact Numeral.isHex_of_mem_hexDigits hc

theorem isImage_linesText :
    IsImage (linesText (filled table)) (fileLines table) where
  ofText := .inl (ofText_linesText h)
  length := by rw [fileLines, List.length_map, length_filled h]
  width := by
    intro line hline
    obtain ⟨row, hrow, rfl⟩ := List.mem_map.mp hline
    rw [rowLine, Numeral.length_hexDigits, length_of_mem_filled h hrow]
  digits := by
    intro line hline c hc
    obtain ⟨row, _, rfl⟩ := List.mem_map.mp hline
    exact Numeral.isHex_of_mem_hexDigits hc

end

/-- The slot in a row and a lane; there is none outside the table. -/
def slotAt (table : List (List (Option Word))) (row lane : Nat) : Option Word :=
  (table[row]?.bind fun slots => slots[lane]?).join

theorem slotAt_filled (table : List (List (Option Word))) (row lane : Nat) :
    slotAt (filled table) row lane = slotAt table row lane := by
  unfold slotAt filled
  by_cases hrow : row < table.length
  · rw [List.getElem?_append_left hrow]
  · rw [List.getElem?_append_right (Nat.not_lt.mp hrow),
      List.getElem?_eq_none (Nat.not_lt.mp hrow), List.getElem?_replicate]
    split
    · simp only [Option.bind_some, Option.bind_none, List.getElem?_replicate]
      split <;> rfl
    · rfl

end BpfLanes.Rom
