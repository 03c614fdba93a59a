import BpfLanes.Board.Memory
import BpfLanes.Proofs.RomImage
import Mathlib.Data.List.Nodup

/-! # Loading instruction memory

Every row of memory has eight data registers of eight digits each, 4 apart, and a
register at 255 that takes the row over. Rows are 256 apart, from `0x80000000` on.
`load_runs` lists the writes of a load, and `memoryAfter` is what the writes of a log
leave at each address. No address is written twice by a load, so the memory holds
exactly the digits of the image.
-/

namespace BpfLanes.Board

open Numeral (hexDigits hexDigits_add hexDigits_mod hexDigits_zero)

variable {b : Board} {i : Nat} {text : String}

variable {row offset address count j : Nat} {line tail : List Char} {lines : List (List Char)}
  {w : Nat × String}

/-! ## Folds of writes -/

section
variable {σ κ ω β : Type} (view : σ → κ → β) (step : σ → ω → σ) (key : ω → κ) (val : ω → β)
  {writes : List ω}

theorem view_foldl_of_not_mem
    (hother : ∀ s k, ∀ w ∈ writes, k ≠ key w → view (step s w) k = view s k) {k : κ}
    (hk : k ∉ writes.map key) (s : σ) : view (writes.foldl step s) k = view s k := by
  induction writes generalizing s with
  | nil => rfl
  | cons w rest ih =>
    rw [List.map_cons, List.mem_cons, not_or] at hk
    rw [List.foldl_cons, ih (fun s k v hv => hother s k v (List.mem_cons_of_mem w hv)) hk.2]
    exact hother s k w List.mem_cons_self hk.1

theorem view_foldl_of_mem (hself : ∀ s, ∀ w ∈ writes, view (step s w) (key w) = val w)
    (hother : ∀ s k, ∀ w ∈ writes, k ≠ key w → view (step s w) k = view s k)
    (hnodup : (writes.map key).Nodup) {w : ω} (hw : w ∈ writes) (s : σ) :
    view (writes.foldl step s) (key w) = val w := by
  induction writes generalizing s with
  | nil => cases hw
  | cons v rest ih =>
    have hother' := fun s k u hu => hother s k u (List.mem_cons_of_mem v hu)
    rw [List.map_cons, List.nodup_cons] at hnodup
    rw [List.foldl_cons]
    rcases List.mem_cons.mp hw with rfl | hw
    · rw [view_foldl_of_not_mem view step key hother' hnodup.1]
      exact hself s w List.mem_cons_self
    · exact ih (fun s u hu => hself s u (List.mem_cons_of_mem v hu)) hother' hnodup.2 hw _

end

/-! ## Addresses -/

/-- The address of a place in a row of instruction memory. -/
def cell (row offset : Nat) : Nat := 0x80000000 + 256 * row + offset

/-- An address as it is written. -/
def addressText (address : Nat) : String :=
  "0x" ++ String.ofList (hexDigits 8 address)

theorem cell_lt (hrow : row < 256) (hoffset : offset < 256) : cell row offset < 16 ^ 8 := by
  unfold cell
  omega

theorem cell_inj {row' offset' : Nat} (hoffset : offset < 256) (hoffset' : offset' < 256)
    (h : cell row offset = cell row' offset') : row = row' ∧ offset = offset' := by
  unfold cell at h
  omega

theorem read?_addressText (h : address < 16 ^ 8) :
    Integer.read? 16 (addressText address) = some (address : Int) := by
  unfold addressText
  rw [Integer.read?_hexDigits (by decide), Nat.mod_eq_of_lt h]

theorem rowDigits_eq (hrow : row < 256) :
    rowDigits row = String.ofList (hexDigits (if row < 16 then 1 else 2) row) := by
  unfold rowDigits Numeral.digits
  rw [Nat.toDigits_eq_if (by decide)]
  split
  · next hlt => simp [hexDigits, Nat.mod_eq_of_lt hlt]
  · next hge =>
    have hquot : row / 16 < 16 := by omega
    rw [Nat.toDigits_of_lt_base hquot]
    simp [hexDigits, Nat.mod_eq_of_lt hquot]

theorem rowDigits_two (hrow : row < 256) :
    (if row < 16 then "0" else "") ++ rowDigits row
      = String.ofList (hexDigits 2 row) := by
  rw [rowDigits_eq hrow]
  split
  · next hlt =>
    have htwo := hexDigits_add 1 1 row
    rw [show row / 16 ^ 1 = 0 by omega, hexDigits_zero] at htwo
    rw [htwo, String.ofList_append]
    rfl
  · simp

theorem hexDigits_cell (hrow : row < 256) (hoffset : offset < 256) :
    hexDigits 8 (cell row offset)
      = "8000".toList ++ hexDigits 2 row ++ hexDigits 2 offset := by
  have hlow : cell row offset = offset + 16 ^ 2 * (0x800000 + row) := by
    unfold cell
    omega
  have hmid : cell row offset / 16 ^ 2 = row + 16 ^ 2 * 0x8000 := by omega
  have hhigh : (row + 16 ^ 2 * 0x8000) / 16 ^ 2 = 0x8000 := by omega
  have htop : hexDigits 4 0x8000 = "8000".toList := by decide
  rw [hexDigits_add 6 2, hmid, hexDigits_add 4 2, hhigh, htop,
    hexDigits_mod, hlow, hexDigits_mod]

theorem loadAddress_eq (hrow : row < 256) (hoffset : offset < 256) :
    loadAddress row (String.ofList (hexDigits 2 offset))
      = addressText (cell row offset) := by
  have hrowText : loadAddress row (String.ofList (hexDigits 2 offset))
      = "0x8000" ++ ((if row < 16 then "0" else "") ++ rowDigits row)
        ++ String.ofList (hexDigits 2 offset) := by
    simp only [loadAddress, String.append_assoc]
  rw [hrowText, rowDigits_two hrow]
  apply String.toList_inj.mp
  simp [addressText, hexDigits_cell hrow hoffset]

/-! ## The writes of a load -/

/-- The places of a row that a line fills, each with its digits, in the order in which
    they are written. -/
def rowCells (line : List Char) : List (Nat × String) :=
  (List.range 8).map (fun j => (4 * j, columns line (56 - 8 * j) (64 - 8 * j))) ++ [(255, "1")]

/-- The writes that load a row. -/
def rowWrites (row : Nat) (line : List Char) : List (Nat × String) :=
  (rowCells line).map fun c => (cell row c.1, c.2)

/-- The writes that load the first `count` rows. -/
def imageWrites (lines : List (List Char)) (count : Nat) : List (Nat × String) :=
  (List.range count).flatMap fun row => rowWrites row (lines.getD row [])

/-- The board after some writes. -/
def written (b : Board) (writes : List (Nat × String)) : Board :=
  { b with
    registers := writes.foldl (fun r w => put (addressText w.1) ("0x" ++ w.2) r) b.registers
    log := b.log ++ (writes.map fun w => Access.write (addressText w.1) ("0x" ++ w.2)).toArray }

theorem written_append (b : Board) (first second : List (Nat × String)) :
    written b (first ++ second) = written (written b first) second := by
  simp [written, Array.append_assoc]

theorem columns_append (h : line.length = 64) {start stop : Nat} (hstop : stop ≤ 64) :
    columns (line ++ tail) start stop = columns line start stop := by
  unfold columns
  rw [List.take_append_of_le_length (by omega)]

theorem rowParts_eq (hlength : line.length = 64) (hhex : ∀ c ∈ line, IsHex c)
    (htail : tail = [] ∨ tail = ['\n']) :
    rowParts (line ++ tail)
      = (rowCells line).map fun c => (String.ofList (hexDigits 2 c.1), c.2) := by
  have hlast : String.ofList (Lines.trim ((line ++ tail).drop 56)) = columns line 56 64 := by
    unfold columns
    rw [List.drop_append_of_le_length (by omega), List.take_of_length_le (by omega)]
    congr 1
    apply Lines.trim_append_blank
    · intro c hc
      exact (hhex c (List.mem_of_mem_drop hc)).not_blank
    · intro c hc
      rcases htail with rfl | rfl
      · cases hc
      · rw [List.mem_singleton.mp hc]
        rfl
    · intro hnil
      have hlen := congrArg List.length hnil
      simp [hlength] at hlen
  -- the names of the registers are their places in two digits
  have hregisters : [0, 4, 8, 12, 16, 20, 24, 28, 255].map
      (fun offset => String.ofList (hexDigits 2 offset))
        = ["00", "04", "08", "0c", "10", "14", "18", "1c", "ff"] := by decide
  simp only [List.map_cons, List.map_nil, List.cons.injEq, and_true] at hregisters
  simp [rowParts, hlast, columns_append hlength, rowCells, List.range_succ, hregisters]

theorem offset_lt {c : Nat × String} (hc : c ∈ rowCells line) : c.1 < 256 := by
  simp only [rowCells, List.mem_append, List.mem_map, List.mem_range, List.mem_singleton] at hc
  rcases hc with ⟨j, hj, rfl⟩ | rfl
  · show 4 * j < 256
    omega
  · decide

theorem writeCells_runs (hrow : row < 256) {cells : List (Nat × String)}
    (hcells : ∀ c ∈ cells, c.1 < 256) (b : Board) :
    Runs ((cells.map fun c => (String.ofList (hexDigits 2 c.1), c.2)).forM
        fun (register, digits) => write (loadAddress row register) digits) b ()
      (written b (cells.map fun c => (cell row c.1, c.2))) := by
  induction cells generalizing b with
  | nil => simp [written]
  | cons c rest ih =>
    have haddress := loadAddress_eq hrow (hcells c List.mem_cons_self)
    have hrest := ih (fun d hd => hcells d (List.mem_cons_of_mem c hd))
      (written b [(cell row c.1, c.2)])
    rw [← written_append] at hrest
    refine runs_bind.mpr ⟨(), written b [(cell row c.1, c.2)], ?_, hrest⟩
    simp [write, haddress, written]

theorem say_runs (s : String) (b : Board) :
    Runs (say s) b () { b with printed := b.printed ++ s ++ "\n" } := rfl

/-- What is printed after a row. -/
def progress (row : Nat) : String :=
  "Injecting....Percentage Completed: "
    ++ toString (Rounding.nearest (100 * row) (Rom.rows - 1)) ++ " %"

theorem loadRow_runs (hrow : row < 256) (hlength : line.length = 64) (hhex : ∀ c ∈ line, IsHex c)
    (htail : tail = [] ∨ tail = ['\n']) (b : Board) :
    Runs (loadRow row (line ++ tail)) b ()
      { written b (rowWrites row line) with printed := b.printed ++ progress row ++ "\n" } := by
  have hcells : ∀ c ∈ rowCells line, c.1 < 256 := fun c hc => offset_lt hc
  have hwrites := writeCells_runs hrow hcells b
  unfold loadRow
  rw [rowParts_eq hlength hhex htail]
  exact runs_bind.mpr ⟨(), _, hwrites, say_runs (progress row) _⟩

/-! ## Lines with their ends -/

theorem linesWithEnds_eq {last : List Char} (h : Lines.ofText text = lines ++ [last]) :
    linesWithEnds text = lines.map (· ++ ['\n']) ++ (if last.isEmpty then [] else [last]) := by
  unfold linesWithEnds
  rw [h, List.reverse_append]
  simp

theorem linesWithEnds_get (h : Rom.IsImage text lines) (hrow : row < lines.length) :
    ∃ tail, (tail = [] ∨ tail = ['\n'])
      ∧ (linesWithEnds text)[row]? = some (lines[row] ++ tail) := by
  rcases h.ofText with htext | htext
  · -- the last line has no line end
    have hne : lines ≠ [] := List.ne_nil_of_length_pos (Nat.zero_lt_of_lt hrow)
    obtain ⟨front, last, rfl⟩ := (List.eq_nil_or_concat' lines).resolve_left hne
    have hlast : last ≠ [] := by
      intro hnil
      have hwidth := h.width last (by simp)
      rw [hnil] at hwidth
      exact absurd hwidth (by decide)
    rw [linesWithEnds_eq htext, if_neg (by simpa using hlast)]
    by_cases hfront : row < front.length
    · refine ⟨['\n'], .inr rfl, ?_⟩
      rw [List.getElem?_append_left (by simpa using hfront), List.getElem_append_left hfront]
      simp [hfront]
    · refine ⟨[], .inl rfl, ?_⟩
      have hend : row = front.length := by
        rw [List.length_append, List.length_singleton] at hrow
        omega
      subst hend
      simp
  · refine ⟨['\n'], .inr rfl, ?_⟩
    simp [linesWithEnds_eq htext, hrow]

/-! ## A whole load -/

/-- What a load of an image leaves: its writes, and a report of every row. -/
def loaded (b : Board) (lines : List (List Char)) (count : Nat) : Board :=
  { written b (imageWrites lines count) with
    printed := (List.range count).foldl (fun s row => s ++ progress row ++ "\n") b.printed }

theorem loaded_succ (h : count < lines.length) : loaded b lines (count + 1)
      = { written (loaded b lines count) (rowWrites count lines[count]) with
          printed := (loaded b lines count).printed ++ progress count ++ "\n" } := by
  have hwrites : imageWrites lines (count + 1)
      = imageWrites lines count ++ rowWrites count lines[count] := by
    simp [imageWrites, List.range_succ, List.getD_eq_getElem?_getD, h]
  simp only [loaded, hwrites, written_append, List.range_succ, List.foldl_append, List.foldl_cons,
    List.foldl_nil]
  rfl

theorem loadRows_runs (h : Rom.IsImage text lines) (b : Board) :
    Runs (loadRows (linesWithEnds text)) b () (loaded b lines Rom.rows) := by
  obtain ⟨t, hruns, ht⟩ : ∃ t, Runs (loadRows (linesWithEnds text)) b () t
      ∧ t = loaded b lines (List.range Rom.rows).length := by
    apply forM_runs fun k s => s = loaded b lines k
    · simp [loaded, written, imageWrites]
    intro k row s hk hs
    obtain ⟨hlt, rfl⟩ := List.getElem?_eq_some_iff.mp hk
    rw [List.length_range] at hlt
    rw [List.getElem_range]
    have hline : k < lines.length := lt_of_lt_of_eq hlt h.length.symm
    have hmem : lines[k] ∈ lines := List.getElem_mem hline
    obtain ⟨tail, htail, hget⟩ := linesWithEnds_get h hline
    refine ⟨_, ?_, (loaded_succ hline).symm⟩
    rw [hget, hs]
    exact loadRow_runs hlt (h.width _ hmem) (h.digits _ hmem) htail _
  rwa [ht, List.length_range] at hruns

theorem probe_runs (hb : b.present = true) :
    Runs probe b () { b with printed := b.printed ++ "NetFPGA-SUME Detected" ++ "\n" } := by
  simp [probe, hb, say]

theorem load_runs (h : Rom.IsImage text lines) (hb : b.present = true)
    {file : String → Option String} {name : String} (hfile : file name = some text)
    (arguments : List String) : ∃ shown, Runs (load file (name :: arguments)) b ()
      { written b (imageWrites lines Rom.rows) with printed := shown } := by
  obtain ⟨first, hfirst⟩ : ∃ first, Runs probe b () { b with printed := first } :=
    ⟨_, probe_runs hb⟩
  have hrows := loadRows_runs h { b with printed := first }
  -- for any number of rows, so that the writes of all of them are not computed here
  have hdone : ∀ count, ∃ shown,
      Runs (say "Done ✓") (loaded { b with printed := first } lines count) ()
        { written b (imageWrites lines count) with printed := shown } :=
    fun count => ⟨_, say_runs "Done ✓" _⟩
  obtain ⟨shown, hshown⟩ := hdone Rom.rows
  refine ⟨shown, runs_bind.mpr ⟨(), _, hfirst, ?_⟩⟩
  rw [hfile]
  exact runs_bind.mpr ⟨(), _, hrows, hshown⟩

/-! ## What the writes leave in memory -/

/-- One access to a memory of numbers: a write stores the value at the address. -/
def store (memory : Int → Option Int) : Access → Int → Option Int
  | .write address value =>
    match Integer.read? 16 address with
    | some a => Function.update memory a (Integer.read? 16 value)
    | none => memory
  | .read _ => memory

/-- What the accesses of a log leave at each address, if anything was written there. -/
def memoryAfter (log : Array Access) : Int → Option Int :=
  log.toList.foldl store fun _ => none

theorem mem_imageWrites :
    w ∈ imageWrites lines count
      ↔ ∃ row < count, ∃ c ∈ rowCells (lines.getD row []), (cell row c.1, c.2) = w := by
  simp [imageWrites, rowWrites]

theorem data_mem_imageWrites (hline : lines[row]? = some line) (hrow : row < count) (hj : j < 8) :
    (cell row (4 * j), columns line (56 - 8 * j) (64 - 8 * j)) ∈ imageWrites lines count := by
  have hget : lines.getD row [] = line := by simp [List.getD_eq_getElem?_getD, hline]
  refine mem_imageWrites.mpr ⟨row, hrow, (4 * j, _), ?_, rfl⟩
  rw [hget]
  exact List.mem_append_left _ (List.mem_map.mpr ⟨j, List.mem_range.mpr hj, rfl⟩)

theorem nodup_imageWrites (lines : List (List Char)) (count : Nat) :
    ((imageWrites lines count).map Prod.fst).Nodup := by
  have hkeys : (imageWrites lines count).map Prod.fst
      = (List.range count).flatMap fun row =>
          [0, 4, 8, 12, 16, 20, 24, 28, 255].map (cell row) := by
    simp only [imageWrites, rowWrites, List.map_flatMap, List.map_map]
    rfl
  have hsmall : ∀ offset ∈ [0, 4, 8, 12, 16, 20, 24, 28, 255], offset < 256 := by decide
  rw [hkeys, List.nodup_flatMap]
  constructor
  · -- the places of one row differ
    intro row _
    apply List.Nodup.map_on _ (by decide)
    intro a ha c hc hac
    exact (cell_inj (hsmall a ha) (hsmall c hc) hac).2
  · -- every place of a row lies below the next row
    apply List.nodup_range.imp
    intro row row' hne
    simp only [Function.onFun, List.disjoint_left, List.mem_map]
    rintro address ⟨a, ha, rfl⟩ ⟨c, hc, hac⟩
    exact hne (cell_inj (hsmall c hc) (hsmall a ha) hac).1.symm

theorem address_lt (hw : w ∈ imageWrites lines Rom.rows) : w.1 < 16 ^ 8 := by
  obtain ⟨row, hrow, c, hc, rfl⟩ := mem_imageWrites.mp hw
  exact cell_lt hrow (offset_lt hc)

theorem store_write (h : address < 16 ^ 8) (memory : Int → Option Int) (value : String) :
    store memory (.write (addressText address) value)
      = Function.update memory address (Integer.read? 16 value) := by
  simp only [store, read?_addressText h]

theorem memoryAfter_written (hw : w ∈ imageWrites lines Rom.rows) (b : Board) :
    memoryAfter (written b (imageWrites lines Rom.rows)).log w.1
      = Integer.read? 16 ("0x" ++ w.2) := by
  have hnodup : ((imageWrites lines Rom.rows).map fun w => (w.1 : Int)).Nodup := by
    have hinj : Function.Injective (Nat.cast : Nat → Int) := fun _ _ h => Int.ofNat_inj.mp h
    have hkeys := (nodup_imageWrites lines Rom.rows).map hinj
    rwa [List.map_map] at hkeys
  unfold memoryAfter written
  rw [Array.toList_append, List.foldl_append, List.foldl_map]
  refine view_foldl_of_mem (fun (m : Int → Option Int) k => m k) _
    (fun w : Nat × String => (w.1 : Int)) (fun w => Integer.read? 16 ("0x" ++ w.2)) ?_ ?_
    hnodup hw _
  · intro m v hv
    rw [store_write (address_lt hv), Function.update_self]
  · intro m k v hv hk
    rw [store_write (address_lt hv), Function.update_of_ne hk]

/-! ## A table in memory -/

theorem columns_hexDigits (hj : j < 8) (n : Nat) :
    columns (hexDigits 64 n) (56 - 8 * j) (64 - 8 * j)
      = String.ofList (hexDigits 8 (n / 16 ^ (8 * j))) := by
  have hcut := hexDigits_add (64 - 8 * j) (8 * j) n
  have hfront := hexDigits_add (56 - 8 * j) 8 (n / 16 ^ (8 * j))
  rw [show 64 - 8 * j + 8 * j = 64 by omega] at hcut
  rw [show 56 - 8 * j + 8 = 64 - 8 * j by omega] at hfront
  unfold columns
  rw [hcut, List.take_left' (by simp), hfront, List.drop_left' (by simp)]

section
variable {table : List (List (Option Word))} (h : Rom.Loadable table) (b : Board)
include h

theorem memory_of_row {row : List (Option Word)} (hrow : (Rom.filled table)[i]? = some row)
    (hj : j < 8) :
    memoryAfter (written b (imageWrites (Rom.fileLines table) Rom.rows)).log (cell i (4 * j))
      = some ((Rom.rowNumber row / 16 ^ (8 * j) % 16 ^ 8 : Nat) : Int) := by
  have hi : i < Rom.rows :=
    lt_of_lt_of_eq (List.getElem?_eq_some_iff.mp hrow).1 (Rom.length_filled h)
  have hwidth : row.length = 4 := Rom.length_of_mem_filled h (List.mem_of_getElem? hrow)
  have hline : (Rom.fileLines table)[i]? = some (hexDigits 64 (Rom.rowNumber row)) := by
    simp [Rom.fileLines, hrow, Rom.rowLine, hwidth]
  rw [memoryAfter_written (data_mem_imageWrites hline hi hj), columns_hexDigits hj,
    Integer.read?_hexDigits (by decide)]

theorem memory_of_slot {k : Nat} (hi : i < 256) (hk : k < 4) :
    memoryAfter (written b (imageWrites (Rom.fileLines table) Rom.rows)).log (cell i (8 * k))
        = some ((Rom.slotNumber (Rom.slotAt table i k) % 2 ^ 32 : Nat) : Int)
      ∧ memoryAfter (written b (imageWrites (Rom.fileLines table) Rom.rows)).log
          (cell i (8 * k + 4))
        = some ((Rom.slotNumber (Rom.slotAt table i k) / 2 ^ 32 : Nat) : Int) := by
  have hlength : i < (Rom.filled table).length := lt_of_lt_of_eq hi (Rom.length_filled h).symm
  have hrow := List.getElem?_eq_getElem hlength
  have hwidth := Rom.length_of_mem_filled h (List.getElem_mem hlength)
  have hlane : k < (Rom.filled table)[i].length := lt_of_lt_of_eq hk hwidth.symm
  have hslot : Rom.slotAt table i k = (Rom.filled table)[i][k] := by
    rw [← Rom.slotAt_filled]
    simp [Rom.slotAt, hlength, hlane]
  obtain ⟨hlow, hhigh⟩ := Rom.rowNumber_halves (Rom.filled table)[i] hlane
  have hlow' := memory_of_row h b hrow (show 2 * k < 8 by omega)
  have hhigh' := memory_of_row h b hrow (show 2 * k + 1 < 8 by omega)
  rw [hlow, show 4 * (2 * k) = 8 * k by omega] at hlow'
  rw [hhigh, show 4 * (2 * k + 1) = 8 * k + 4 by omega] at hhigh'
  rw [hslot]
  exact ⟨hlow', hhigh'⟩

end

/-- A write of a load: to a data register of a row, or of 1 to the register that takes a
    row over. -/
def IsLoadWrite (access : Access) : Prop :=
  ∃ address value, access = .write address value
    ∧ ∃ i < 256, (∃ j < 8, Integer.read? 16 address = some (0x80000000 + 256 * i + 4 * j : Nat))
      ∨ (Integer.read? 16 address = some (0x80000000 + 256 * i + 255 : Nat)
        ∧ Integer.read? 16 value = some 1)

theorem isLoadWrite_of_mem (hw : w ∈ imageWrites lines Rom.rows) :
    IsLoadWrite (.write (addressText w.1) ("0x" ++ w.2)) := by
  have haddress := read?_addressText (address_lt hw)
  obtain ⟨i, hi, c, hc, rfl⟩ := mem_imageWrites.mp hw
  refine ⟨_, _, rfl, i, hi, ?_⟩
  rcases List.mem_append.mp hc with hc | hc
  · obtain ⟨j, hj, rfl⟩ := List.mem_map.mp hc
    exact .inl ⟨j, List.mem_range.mp hj, haddress⟩
  · obtain rfl := List.mem_singleton.mp hc
    have hone : Integer.read? 16 ("0x" ++ "1") = some 1 := by decide
    exact .inr ⟨haddress, hone⟩

/-- Writing a table and loading the file leaves exactly the table in memory: each slot
    fills two registers with the halves of its word, its bytes reversed, and no other data
    register is written. -/
theorem load_write_holds_table {table : List (List (Option Word))} (h : Rom.Loadable table) :
    ∃ text, Runs (Rom.write table) {} () { file := text }
      ∧ (Lines.ofText text).length = 256
      ∧ (∀ line ∈ Lines.ofText text, line.length = 64 ∧ ∀ c ∈ line, IsHex c)
      ∧ ∀ (b : Board) (file : String → Option String) (name : String) (arguments : List String),
        b.present = true → file name = some text →
          ∃ b', Runs (load file (name :: arguments)) b () b'
            ∧ (∀ i < 256, ∀ k < 4,
              memoryAfter b'.log (0x80000000 + 256 * i + 8 * k : Nat)
                = some ((Rom.slotNumber (Rom.slotAt table i k) % 2 ^ 32 : Nat) : Int)
              ∧ memoryAfter b'.log (0x80000000 + 256 * i + 8 * k + 4 : Nat)
                = some ((Rom.slotNumber (Rom.slotAt table i k) / 2 ^ 32 : Nat) : Int))
            ∧ ∃ accesses, b'.log = b.log ++ accesses ∧ ∀ access ∈ accesses, IsLoadWrite access := by
  have himage := Rom.isImage_linesText h
  refine ⟨_, Rom.write_runs h, ?_, ?_, ?_⟩
  · rw [Rom.ofText_linesText h]
    exact himage.length
  · intro line hline
    rw [Rom.ofText_linesText h] at hline
    exact ⟨himage.width line hline, himage.digits line hline⟩
  · intro b file name arguments hb hfile
    obtain ⟨shown, hload⟩ := load_runs himage hb hfile arguments
    refine ⟨_, hload, fun i hi k hk => memory_of_slot h b hi hk, _, rfl, ?_⟩
    intro access haccess
    obtain ⟨w, hw, rfl⟩ := List.mem_map.mp (List.mem_toArray.mp haccess)
    exact isLoadWrite_of_mem hw

/-- A row with two instructions and, in a second row, one more. -/
def twoRows : List (List (Option Word)) :=
  [[some 0xb701000078563412, none, some 0x9500000000000000, none],
    [none, some 0x0500feff00000000, none, none]]

theorem load_write_holds_table_twoRows :
    Rom.Loadable twoRows
      ∧ ∃ text b', Runs (Rom.write twoRows) {} () { file := text }
        ∧ Runs (load (fun _ => some text) ["image"]) {} () b'
        ∧ memoryAfter b'.log 0x80000000 = some 0x1b7
        ∧ memoryAfter b'.log 0x80000004 = some 0x12345678
        ∧ memoryAfter b'.log 0x80000008 = some 0 ∧ memoryAfter b'.log 0x80000010 = some 0x95
        ∧ memoryAfter b'.log 0x80000108 = some 0xfffe0005
        ∧ memoryAfter b'.log 0x8000ff1c = some 0 := by
  have htable : Rom.Loadable twoRows := ⟨by decide, by decide, by decide, by decide⟩
  obtain ⟨text, hwrite, _, _, hload⟩ := load_write_holds_table htable
  obtain ⟨b', hruns, hmemory, _⟩ := hload {} (fun _ => some text) "image" [] rfl rfl
  refine ⟨htable, text, b', hwrite, hruns, ?_⟩
  exact ⟨(hmemory 0 (by decide) 0 (by decide)).1, (hmemory 0 (by decide) 0 (by decide)).2,
    (hmemory 0 (by decide) 1 (by decide)).1, (hmemory 0 (by decide) 2 (by decide)).1,
    (hmemory 1 (by decide) 1 (by decide)).1, (hmemory 255 (by decide) 3 (by decide)).2⟩

end BpfLanes.Board
