import BpfLanes.Proofs.MemoryLoad

/-! # Listing what was loaded

A listing reads the data registers of a row from the last to the first and prints them
in four groups of sixteen digits. Loading writes a row number in two digits from row 0
to row 15, listing only from row 0 to row 9: the addresses that a listing reads for the
rows 10 to 15 are one digit short, and no load ever writes there. So these rows show
what the board held before the load.
-/

namespace BpfLanes.Board

variable {b s t : Board} {lines : List (List Char)} {line : List Char} {row : Nat} {text : String}

/-! ## What a listing prints -/

/-- The registers of each group of a row, the high half first. -/
def memoryGroups : List (String × String) :=
  [("1c", "18"), ("14", "10"), ("0c", "08"), ("04", "00")]

/-- The groups of digits that the board shows of a row. -/
def rowGroups (b : Board) (memory : String) (groups : List (String × String)) (row : Nat) :
    List String :=
  groups.map fun (high, low) =>
    digitsOf (b.value (listAddress memory row high))
      ++ digitsOf (b.value (listAddress memory row low))

/-- The line of a listing for a row. -/
def rowText (row : Nat) (groups : List String) : String :=
  "0x" ++ rowDigits row ++ " :\t " ++ " ".intercalate (groups.map (· ++ " |"))

theorem rowGroups_printed (b : Board) (shown memory : String) (groups : List (String × String))
    (row : Nat) :
    rowGroups { b with printed := shown } memory groups row = rowGroups b memory groups row := rfl

/-- A board on which nothing was written and all reads came from registers. -/
structure OnlyRead (s t : Board) : Prop where
  registers : t.registers = s.registers
  unset : t.unset = s.unset
  pending : s.pending = [] → t.pending = []

namespace OnlyRead

theorem refl (s : Board) : OnlyRead s s := ⟨rfl, rfl, id⟩

theorem trans {u : Board} (h : OnlyRead s t) (h' : OnlyRead t u) : OnlyRead s u :=
  ⟨h'.registers.trans h.registers, h'.unset.trans h.unset, fun hs => h'.pending (h.pending hs)⟩

theorem rowGroups_eq (h : OnlyRead s t) (memory : String) (groups : List (String × String))
    (row : Nat) : rowGroups t memory groups row = rowGroups s memory groups row := by
  simp only [rowGroups, value, h.registers, h.unset]

end OnlyRead

theorem read_runs (h : b.pending = []) (address : String) :
    ∃ t, Runs (read address) b (digitsOf (b.value address)) t ∧ OnlyRead b t
      ∧ t.printed = b.printed := by
  refine ⟨{ b with log := b.log.push (.read address) }, ?_, ⟨rfl, rfl, id⟩, rfl⟩
  simp only [read, runs_get_bind, h, runs_set_bind, runs_pure, and_self]

theorem readGroups_runs (h : b.pending = []) (memory : String) (groups : List (String × String))
    (row : Nat) : ∃ t, Runs (groups.mapM fun (high, low) => group memory row high low) b
        (rowGroups b memory groups row) t ∧ OnlyRead b t ∧ t.printed = b.printed := by
  induction groups generalizing b with
  | nil => exact ⟨b, by simp [rowGroups], .refl b, rfl⟩
  | cons g rest ih =>
    obtain ⟨high, low⟩ := g
    obtain ⟨s, hhigh, hs, hsp⟩ := read_runs h (listAddress memory row high)
    obtain ⟨t, hlow, ht, htp⟩ := read_runs (hs.pending h) (listAddress memory row low)
    obtain ⟨u, hrest, hu, hup⟩ := ih (ht.pending (hs.pending h))
    have hst := hs.trans ht
    have hvalue : s.value (listAddress memory row low) = b.value (listAddress memory row low) := by
      simp only [value, hs.registers, hs.unset]
    rw [hst.rowGroups_eq] at hrest
    rw [hvalue] at hlow
    refine ⟨u, ?_, hst.trans hu, hup.trans (htp.trans hsp)⟩
    rw [List.mapM_cons]
    refine runs_bind.mpr ⟨_, t, ?_, runs_bind.mpr ⟨_, u, hrest, runs_pure.mpr ⟨rfl, rfl⟩⟩⟩
    exact runs_bind.mpr ⟨_, s, hhigh, runs_bind.mpr ⟨_, t, hlow, runs_pure.mpr ⟨rfl, rfl⟩⟩⟩

theorem listRow_runs (h : b.pending = []) (memory : String) (groups : List (String × String))
    (row : Nat) : ∃ t, Runs (listRow memory groups row) b () t ∧ OnlyRead b t
      ∧ t.printed = b.printed ++ rowText row (rowGroups b memory groups row) ++ "\n" := by
  obtain ⟨s, hread, hs, hprinted⟩ := readGroups_runs h memory groups row
  refine ⟨_, runs_bind.mpr ⟨_, s, hread, say_runs _ s⟩, ⟨hs.registers, hs.unset, hs.pending⟩, ?_⟩
  rw [← hprinted]
  rfl

/-- The lines of the first `count` rows. -/
def rowsText (groups : Nat → List String) (count : Nat) : String :=
  String.join ((List.range count).map fun row => rowText row (groups row) ++ "\n")

theorem listRows_runs (h : b.pending = []) (memory : String) (groups : List (String × String))
    (count : Int) : ∃ t, Runs (listRows memory groups count) b () t
      ∧ t.printed = b.printed ++ rowsText (rowGroups b memory groups) count.toNat := by
  obtain ⟨t, hruns, ht, hprinted⟩ : ∃ t, Runs (listRows memory groups count) b () t
      ∧ OnlyRead b t ∧ t.printed
        = b.printed ++ rowsText (rowGroups b memory groups) (List.range count.toNat).length := by
    apply forM_runs fun k s => OnlyRead b s
      ∧ s.printed = b.printed ++ rowsText (rowGroups b memory groups) k
    · exact ⟨.refl b, by simp [rowsText]⟩
    intro k row s hk hs
    obtain ⟨hlt, rfl⟩ := List.getElem?_eq_some_iff.mp hk
    rw [List.getElem_range]
    obtain ⟨t, hrow, ht, hprinted⟩ := listRow_runs (hs.1.pending h) memory groups k
    rw [hs.1.rowGroups_eq, hs.2] at hprinted
    refine ⟨t, hrow, hs.1.trans ht, ?_⟩
    rw [hprinted]
    simp [rowsText, List.range_succ, String.append_assoc]
  rw [List.length_range] at hprinted
  exact ⟨t, hruns, hprinted⟩

/-- What is printed above the rows. -/
def listingHead : String := "NetFPGA-SUME Detected\nReaing from 0 Sephirot Core\n"

theorem listMemory_runs (hb : b.present = true) (hpending : b.pending = [])
    {arguments : List String} {count : Int} (hcount : rowCount arguments = .ok count) :
    ∃ t, Runs (listMemory arguments) b () t
      ∧ t.printed
        = b.printed ++ listingHead ++ rowsText (rowGroups b "0" memoryGroups) count.toNat := by
  have hprobe := probe_runs hb
  have hsay := say_runs "Reaing from 0 Sephirot Core"
    { b with printed := b.printed ++ "NetFPGA-SUME Detected" ++ "\n" }
  obtain ⟨t, hrows, hprinted⟩ := listRows_runs (b := { b with
    printed := b.printed ++ "NetFPGA-SUME Detected" ++ "\n"
      ++ "Reaing from 0 Sephirot Core" ++ "\n" }) hpending "0" memoryGroups count
  refine ⟨t, ?_, ?_⟩
  · refine runs_bind.mpr ⟨(), _, hprobe, runs_lift_bind.mpr ⟨count, hcount, ?_⟩⟩
    exact runs_bind.mpr ⟨(), _, hsay, hrows⟩
  · rw [hprinted]
    simp only [listingHead, String.append_assoc]
    rfl

/-! ## Addresses of a listing -/

theorem listAddress_eq (h : row < 10 ∨ 16 ≤ row) (register : String) :
    listAddress "0" row register = loadAddress row register := by
  unfold listAddress loadAddress
  rcases h with h | h
  · rw [if_pos h, if_pos (by omega)]
    rfl
  · rw [if_neg (by omega), if_neg (by omega)]
    rfl

theorem listAddress_short (hlow : 10 ≤ row) (hhigh : row < 16) {register : String}
    (hregister : register.length = 2) : (listAddress "0" row register).length = 9 := by
  have hdigits : (rowDigits row).length = 1 := by
    rw [rowDigits_eq (by omega), if_pos hhigh]
    simp
  unfold listAddress
  rw [if_neg (by omega)]
  simp [hdigits, hregister, show "0x8000".length = 6 from rfl]

theorem length_addressText (address : Nat) : (addressText address).length = 10 := by
  simp [addressText, show "0x".length = 2 from rfl]

/-! ## Registers after a load -/

section
variable (b : Board) {writes : List (Nat × String)}

theorem value_of_not_written {address : String}
    (h : address ∉ writes.map fun w => addressText w.1) :
    (written b writes).value address = b.value address := by
  have hlookup := view_foldl_of_not_mem (fun (r : List (String × String)) k => r.lookup k)
    (fun r (w : Nat × String) => put (addressText w.1) ("0x" ++ w.2) r) (fun w => addressText w.1)
    (fun r k w _ hk => lookup_put_other _ _ _ r hk) h b.registers
  exact congrArg (·.getD b.unset) hlookup

theorem value_of_written (hnodup : (writes.map fun w => addressText w.1).Nodup)
    {w : Nat × String} (hw : w ∈ writes) :
    (written b writes).value (addressText w.1) = "0x" ++ w.2 := by
  have hlookup := view_foldl_of_mem (fun (r : List (String × String)) k => r.lookup k)
    (fun r (w : Nat × String) => put (addressText w.1) ("0x" ++ w.2) r) (fun w => addressText w.1)
    (fun w => some ("0x" ++ w.2)) (fun r w _ => lookup_put_self _ _ r)
    (fun r k w _ hk => lookup_put_other _ _ _ r hk) hnodup hw b.registers
  exact congrArg (·.getD b.unset) hlookup

end

theorem nodup_addressTexts (lines : List (List Char)) :
    ((imageWrites lines Rom.rows).map fun w => addressText w.1).Nodup := by
  have hkeys := nodup_imageWrites lines Rom.rows
  have hinj : ((imageWrites lines Rom.rows).map Prod.fst).map addressText
      = (imageWrites lines Rom.rows).map fun w => addressText w.1 := List.map_map
  rw [← hinj]
  apply List.Nodup.map_on _ hkeys
  intro a ha c hc hac
  obtain ⟨v, hv, rfl⟩ := List.mem_map.mp ha
  obtain ⟨w, hw, rfl⟩ := List.mem_map.mp hc
  have hread := read?_addressText (address_lt hv)
  rw [hac, read?_addressText (address_lt hw)] at hread
  exact Int.ofNat_inj.mp (Option.some.inj hread).symm

/-! ## Groups of a line -/

theorem digitsOf_columns (h : ∀ c ∈ line, IsHex c) (start stop : Nat) :
    digitsOf ("0x" ++ columns line start stop) = columns line start stop := by
  have hdigits : ∀ c ∈ ((line.take stop).drop start).reverse, Lines.isBlank c = false := by
    intro c hc
    have hmem := List.mem_of_mem_take (List.mem_of_mem_drop (List.mem_reverse.mp hc))
    exact (h c hmem).not_blank
  unfold digitsOf columns Lines.trimEnd
  simp [Lines.dropWhile_eq_self hdigits]

theorem columns_append_columns (line : List Char) {start middle stop : Nat}
    (hstart : start ≤ middle) (hstop : middle ≤ stop) :
    columns line start middle ++ columns line middle stop = columns line start stop := by
  have hfront : line.take middle = (line.take stop).take middle := by
    rw [List.take_take, Nat.min_eq_left hstop]
  unfold columns
  rw [← String.ofList_append, hfront]
  congr 1
  apply List.ext_getElem?
  intro i
  grind

/-- The four groups of a line of an image. -/
def groupsOf (line : List Char) : List String :=
  (List.range 4).map fun g => columns line (16 * g) (16 * g + 16)

theorem digitsOf_loaded (h : Rom.IsImage text lines) {j : Nat} (hline : lines[row]? = some line)
    (hj : j < 8) (b : Board) :
    digitsOf ((written b (imageWrites lines Rom.rows)).value (addressText (cell row (4 * j))))
      = columns line (56 - 8 * j) (64 - 8 * j) := by
  obtain ⟨hrow, rfl⟩ := List.getElem?_eq_some_iff.mp hline
  have hmem := data_mem_imageWrites hline (lt_of_lt_of_eq hrow h.length) hj
  rw [value_of_written b (nodup_addressTexts lines) hmem]
  exact digitsOf_columns (h.digits _ (List.getElem_mem hrow)) _ _

theorem memoryGroups_eq :
    memoryGroups = (List.range 4).map fun g =>
      (String.ofList (Numeral.hexDigits 2 (4 * (7 - 2 * g))),
        String.ofList (Numeral.hexDigits 2 (4 * (6 - 2 * g)))) := by decide

theorem rowGroups_loaded (h : Rom.IsImage text lines) (hline : lines[row]? = some line)
    (hrow : row < 10 ∨ 16 ≤ row) (b : Board) :
    rowGroups (written b (imageWrites lines Rom.rows)) "0" memoryGroups row = groupsOf line := by
  have hlt : row < 256 := lt_of_lt_of_eq (List.getElem?_eq_some_iff.mp hline).1 h.length
  have hshown : ∀ j < 8, digitsOf ((written b (imageWrites lines Rom.rows)).value
      (listAddress "0" row (String.ofList (Numeral.hexDigits 2 (4 * j)))))
        = columns line (56 - 8 * j) (64 - 8 * j) := by
    intro j hj
    rw [listAddress_eq hrow, loadAddress_eq hlt (by omega)]
    exact digitsOf_loaded h hline hj b
  unfold rowGroups groupsOf
  rw [memoryGroups_eq, List.map_map]
  apply List.map_congr_left
  intro g hg
  have hg : g < 4 := List.mem_range.mp hg
  show digitsOf _ ++ digitsOf _ = _
  rw [hshown (7 - 2 * g) (by omega), hshown (6 - 2 * g) (by omega),
    show 56 - 8 * (7 - 2 * g) = 16 * g by omega, show 64 - 8 * (7 - 2 * g) = 16 * g + 8 by omega,
    show 56 - 8 * (6 - 2 * g) = 16 * g + 8 by omega,
    show 64 - 8 * (6 - 2 * g) = 16 * g + 16 by omega]
  exact columns_append_columns line (by omega) (by omega)

theorem rowGroups_kept (b : Board) (lines : List (List Char)) (hlow : 10 ≤ row) (hhigh : row < 16) :
    rowGroups (written b (imageWrites lines Rom.rows)) "0" memoryGroups row
      = rowGroups b "0" memoryGroups row := by
  have hkept : ∀ register : String, register.length = 2 →
      (written b (imageWrites lines Rom.rows)).value (listAddress "0" row register)
        = b.value (listAddress "0" row register) := by
    intro register hregister
    -- an address of nine characters is none of those that a load writes
    apply value_of_not_written
    intro hmem
    obtain ⟨w, _, hw⟩ := List.mem_map.mp hmem
    have hlength := listAddress_short hlow hhigh hregister
    rw [← hw, length_addressText] at hlength
    exact absurd hlength (by decide)
  have htwo : ∀ g ∈ memoryGroups, g.1.length = 2 ∧ g.2.length = 2 := by decide
  unfold rowGroups
  apply List.map_congr_left
  intro g hg
  obtain ⟨hhigh, hlow⟩ := htwo g hg
  show digitsOf _ ++ digitsOf _ = digitsOf _ ++ digitsOf _
  rw [hkept g.1 hhigh, hkept g.2 hlow]

/-- A listing after a load ends, and prints the groups that the board shows of each row.
    These are the groups of the line that was loaded exactly if the row is below 10 or
    from 16 on, or the board showed them already before the load. -/
theorem listing_shows_image_iff {text : String} {lines : List (List Char)}
    (h : Rom.IsImage text lines) {b : Board} (hb : b.present = true) (hpending : b.pending = [])
    {file : String → Option String} {name : String} (hfile : file name = some text)
    (loadArguments : List String) {listArguments : List String} {count : Int}
    (hcount : rowCount listArguments = .ok count) (hle : count ≤ 256) :
    ∃ b₁ b₂, Runs (load file (name :: loadArguments)) b () b₁
      ∧ Runs (listMemory listArguments) b₁ () b₂
      ∧ b₂.printed
        = b₁.printed ++ listingHead ++ rowsText (rowGroups b₁ "0" memoryGroups) count.toNat
      ∧ ∀ row < count.toNat, ∃ line, lines[row]? = some line
        ∧ (rowGroups b₁ "0" memoryGroups row = groupsOf line
          ↔ row < 10 ∨ 16 ≤ row ∨ rowGroups b "0" memoryGroups row = groupsOf line) := by
  obtain ⟨shown, hload⟩ := load_runs h hb hfile loadArguments
  -- for any writes, so that those of the image are not computed here
  have hlisting : ∀ writes, ∃ b₂, Runs (listMemory listArguments)
      { written b writes with printed := shown } () b₂ ∧ b₂.printed = shown ++ listingHead
        ++ rowsText (rowGroups { written b writes with printed := shown } "0" memoryGroups)
          count.toNat :=
    fun writes =>
      listMemory_runs (b := { written b writes with printed := shown }) hb hpending hcount
  obtain ⟨b₂, hlist, hprinted⟩ := hlisting (imageWrites lines Rom.rows)
  refine ⟨_, b₂, hload, hlist, hprinted, ?_⟩
  intro row hrow
  have hlt : row < lines.length := by
    rw [h.length, Rom.rows]
    omega
  refine ⟨lines[row], List.getElem?_eq_getElem hlt, ?_⟩
  rw [rowGroups_printed]
  by_cases hsame : row < 10 ∨ 16 ≤ row
  · -- the row was read where it was written
    have hshown := rowGroups_loaded h (List.getElem?_eq_getElem hlt) hsame b
    simp only [hshown, true_iff]
    exact hsame.elim Or.inl fun hge => Or.inr (Or.inl hge)
  · -- the row was read one digit short
    have hkept := rowGroups_kept b lines (show 10 ≤ row by omega) (show row < 16 by omega)
    have hten : ¬ row < 10 := fun hlt => hsame (Or.inl hlt)
    have hsixteen : ¬ 16 ≤ row := fun hge => hsame (Or.inr hge)
    simp only [hkept, hten, hsixteen, false_or]

/-- An image in which every digit is 1. -/
def ones : List (List Char) := List.replicate Rom.rows (List.replicate 64 '1')

/-- The text of that image. -/
def onesText : String := String.ofList (['\n'].intercalate ones)

/-- A file system in which every file is that image. -/
def onesFile (_ : String) : Option String := some onesText

theorem isImage_ones : Rom.IsImage onesText ones := by
  have hline : ∀ line ∈ ones, line = List.replicate 64 '1' :=
    fun line hmem => List.eq_of_mem_replicate hmem
  have hdigits : ∀ line ∈ ones, ∀ c ∈ line, IsHex c := by
    intro line hmem c hc
    rw [hline line hmem] at hc
    rw [List.eq_of_mem_replicate hc]
    show (Dump.hexDigit? '1').isSome = true
    decide
  have hne : ones ≠ [] := List.ne_nil_of_length_pos (by rw [ones, List.length_replicate]; decide)
  have hwidth : ∀ line ∈ ones, line.length = 64 := by
    intro line hmem
    rw [hline line hmem, List.length_replicate]
  exact ⟨.inl (Lines.ofText_intercalate hne hdigits), List.length_replicate, hwidth, hdigits⟩

/-- On a board whose registers all hold zero, eleven rows of ones are listed as ten rows
    of ones and one of zeros. -/
theorem listing_shows_image_iff_elevenRows :
    ∃ b₁ b₂, Runs (load onesFile ["image"]) { unset := "0x00000000" } () b₁
      ∧ Runs (listMemory ["11"]) b₁ () b₂
      ∧ b₂.printed = b₁.printed ++ listingHead ++ rowsText (rowGroups b₁ "0" memoryGroups) 11
      ∧ rowGroups b₁ "0" memoryGroups 9 = groupsOf (List.replicate 64 '1')
      ∧ rowGroups b₁ "0" memoryGroups 10 ≠ groupsOf (List.replicate 64 '1') := by
  have hcount : rowCount ["11"] = .ok 11 := by decide
  have hfile : onesFile "image" = some onesText := rfl
  have hline : ∀ row < 256, ∀ line, ones[row]? = some line → line = List.replicate 64 '1' := by
    intro row hrow line hget
    rw [ones, List.getElem?_replicate, if_pos (by exact hrow)] at hget
    exact (Option.some.inj hget).symm
  obtain ⟨b₁, b₂, hload, hlist, hprinted, hrows⟩ :=
    listing_shows_image_iff isImage_ones (b := { unset := "0x00000000" }) rfl rfl hfile [] hcount
      (by decide)
  obtain ⟨line₉, hget₉, hiff₉⟩ := hrows 9 (by decide)
  obtain ⟨line₁₀, hget₁₀, hiff₁₀⟩ := hrows 10 (by decide)
  rw [hline 9 (by decide) line₉ hget₉] at hiff₉
  rw [hline 10 (by decide) line₁₀ hget₁₀] at hiff₁₀
  refine ⟨b₁, b₂, hload, hlist, hprinted, hiff₉.mpr (Or.inl (by decide)), ?_⟩
  rw [ne_eq, hiff₁₀]
  decide

end BpfLanes.Board
