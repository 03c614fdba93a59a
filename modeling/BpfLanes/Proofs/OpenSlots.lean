import BpfLanes.Proofs.DependenceGraph
import BpfLanes.Proofs.SlotTable

/-! # The first slot that is open

The slot that is found for an instruction is one that it may take, and no slot in an
earlier row would do: rows are passed over only where they are full, or where the
one lane into which a result can be forwarded is taken.
-/

namespace BpfLanes

open Compilation

variable {c d : Compilation} {p : Int} {fuel id q : Nat} {source : Option Int} {t : Table}

variable {rows lanes row lane : Int}

/-! ## The shape of a table -/

/-- A table of `rows` rows that all have `lanes` slots. -/
def Table.Sized (rows lanes : Int) (t : Table) : Prop :=
  ∀ row lane, (Table.entry t row lane).isSome = true ↔
    (0 ≤ row ∧ row < rows) ∧ 0 ≤ lane ∧ lane < lanes

/-- Every row of a table has the lanes from 0 up to `lanes`. -/
def Table.Shaped (lanes : Int) (t : Table) : Prop :=
  ∃ rows : Int, ∀ row lane, (Table.entry t row lane).isSome = true ↔
    (0 ≤ row ∧ row < rows) ∧ 0 ≤ lane ∧ lane < lanes

theorem Table.Sized.shaped (h : Table.Sized rows lanes t) : Table.Shaped lanes t :=
  ⟨rows, h⟩

theorem Table.sized_of_words {words : Array Word} :
    Table.Sized words.size lanes (words.map fun _ => Array.replicate lanes.toNat none) := by
  intro row lane
  unfold Table.entry
  by_cases hin : 0 ≤ row ∧ 0 ≤ lane
  · rw [if_pos hin, Array.getElem?_map]
    by_cases hrow : row.toNat < words.size
    · rw [Array.getElem?_eq_getElem hrow]
      simp only [Option.map_some, Option.bind_some, isSome_getElem?, Array.size_replicate]
      omega
    · rw [Array.getElem?_eq_none (by omega)]
      simp only [Option.map_none, Option.bind_none, Option.isSome_none, Bool.false_eq_true,
        false_iff]
      omega
  · rw [if_neg hin]
    simp only [Option.isSome_none, Bool.false_eq_true, false_iff]
    omega

theorem PutAt.sized {s : Placement.Slot} (hput : PutAt c q id s d)
    (h : Table.Sized rows lanes c.table) : Table.Sized rows lanes d.table := by
  intro row lane
  rw [← h row lane, hput.entry]
  split
  · next heq =>
    obtain ⟨rfl, rfl⟩ := heq
    have hfree : Table.entry c.table s.row s.lane = some none := hput.free
    simp [hfree]
  · rfl

theorem Table.Shaped.isSome_of_le (h : Table.Shaped lanes t) {row' lane' : Int}
    (hat : (Table.entry t row lane).isSome = true) (hrow : 0 ≤ row') (hle : row' ≤ row)
    (hlane : 0 ≤ lane' ∧ lane' < lanes) : (Table.entry t row' lane').isSome = true := by
  obtain ⟨rows, hrows⟩ := h
  obtain ⟨⟨_, hlt⟩, _⟩ := (hrows row lane).mp hat
  exact (hrows row' lane').mpr ⟨⟨hrow, by omega⟩, hlane⟩

theorem Table.Shaped.lane_lt (h : Table.Shaped lanes t)
    (hat : (Table.entry t row lane).isSome = true) : lane < lanes := by
  obtain ⟨rows, hrows⟩ := h
  exact ((hrows row lane).mp hat).2.2

variable {cells : Array (Option Nat)}

theorem Table.Shaped.size_le (h : Table.Shaped lanes t) {row : Nat}
    (hcells : t[row]? = some cells) : cells.size ≤ lanes.toNat := by
  by_cases hle : cells.size ≤ lanes.toNat
  · exact hle
  have hat : (Table.entry t row lanes.toNat).isSome = true := by
    unfold Table.entry
    rw [if_pos ⟨by omega, by omega⟩, Int.toNat_natCast, Int.toNat_natCast, hcells]
    simp only [Option.bind_some, isSome_getElem?]
    omega
  have := h.lane_lt hat
  omega

namespace Placement

variable {s : Slot}

theorem Slot.Free.isSome (h : s.Free t) : (Table.entry t s.row s.lane).isSome = true := by
  rw [h]
  rfl

theorem Slot.Free.get (h : s.Free t) (hcells : Position.get t s.row = .ok cells) :
    Position.get cells s.lane = .ok none := by
  obtain ⟨hrow, hlane, cells', hcells', hnone⟩ := Table.entry_eq_some_iff.mp h
  rw [Position.get_of_nonneg hrow, hcells'] at hcells
  cases hcells
  exact (Position.get_of_nonneg hlane).mpr hnone

/-- No lane in front of a slot is free in its row. -/
def Slot.Leftmost (t : Table) (s : Slot) : Prop :=
  ∀ lane, Slot.Free t { lane, row := s.row } → s.lane ≤ lane

/-! ## Rows that are passed over -/

section

variable (ht : Table.Shaped lanes t)
include ht

theorem not_free_of_isFull (hcells : Position.get t row = .ok cells)
    (hfull : isFull lanes cells = true) (hs : s.row = row) : ¬ s.Free t := by
  intro hfree
  obtain ⟨hrow, _, cells', hcells', hnone⟩ := Table.entry_eq_some_iff.mp hfree
  rw [← hs, Position.get_of_nonneg hrow, hcells'] at hcells
  obtain rfl := Option.some.inj hcells
  have hcount : ((cells'.toList.filter Option.isSome).length : Int) = lanes := by
    simpa [isFull] using hfull
  have hle := ht.size_le hcells'
  have hall : (cells'.toList.filter Option.isSome).length = cells'.toList.length := by
    have hcells : (cells'.toList.filter Option.isSome).length ≤ cells'.toList.length :=
      List.length_filter_le _ _
    have hsize : cells'.toList.length = cells'.size := Array.length_toList
    omega
  have htaken := List.length_filter_eq_length_iff.mp hall none
    (Array.mem_toList_iff.mpr (Array.mem_of_getElem? hnone))
  cases htaken

theorem firstOpen_first {r : Int} (h : firstOpen t lanes fuel row = .ok r) (hfree : s.Free t)
    (hle : row ≤ s.row) : r ≤ s.row := by
  induction fuel generalizing row with
  | zero => cases h
  | succ fuel ih =>
    obtain ⟨cells, hcells, h⟩ := bind_eq_ok.mp h
    split at h
    · next hfull =>
      have hne : s.row ≠ row := fun heq => not_free_of_isFull ht hcells hfull heq hfree
      exact ih h (by omega)
    · cases h
      exact hle

omit ht in
theorem freeLane?_least {ls : List Int} {x : Option Int} (h : freeLane? cells ls = .ok x)
    (hsorted : ls.Pairwise (· < ·)) (hmem : lane ∈ ls)
    (hfree : Position.get cells lane = .ok none) : ∃ l, x = some l ∧ l ≤ lane := by
  induction ls with
  | nil => cases hmem
  | cons l ls ih =>
    obtain ⟨hlt, hsorted⟩ := List.pairwise_cons.mp hsorted
    obtain ⟨held, hheld, h⟩ := bind_eq_ok.mp h
    cases held with
    | none =>
      cases h
      rcases List.mem_cons.mp hmem with rfl | hmem
      · exact ⟨lane, rfl, Int.le_refl _⟩
      · exact ⟨l, rfl, Int.le_of_lt (hlt lane hmem)⟩
    | some id =>
      rcases List.mem_cons.mp hmem with rfl | hmem
      · cases hheld.symm.trans hfree
      · exact ih h hsorted hmem

omit ht in
theorem pairwise_lanesOf : (lanesOf lanes).Pairwise (· < ·) := by
  unfold lanesOf
  rw [List.pairwise_map]
  exact List.pairwise_lt_range.imp fun h => Int.ofNat_lt.mpr h

omit ht in
theorem mem_lanesOf (hlow : 0 ≤ lane) (hhigh : lane < lanes) : lane ∈ lanesOf lanes :=
  List.mem_map.mpr ⟨lane.toNat, List.mem_range.mpr (by omega), by omega⟩

theorem freeLane?_of_free {x : Option Int} (hcells : Position.get t row = .ok cells)
    (h : freeLane? cells (lanesOf lanes) = .ok x) (hfree : s.Free t) (hs : s.row = row) :
    ∃ l, x = some l ∧ Slot.Free t { lane := l, row } ∧ l ≤ s.lane := by
  subst hs
  obtain ⟨l, rfl, hle⟩ := freeLane?_least h pairwise_lanesOf
    (mem_lanesOf hfree.lane_nonneg (ht.lane_lt hfree.isSome)) (hfree.get hcells)
  obtain ⟨hmem, hl⟩ := freeLane?_spec h
  exact ⟨l, rfl, Table.entry_of_get hfree.row_nonneg (nonneg_of_mem_lanesOf hmem) hcells hl, hle⟩

theorem leftmost_of_freeLane? {l : Int} (hcells : Position.get t row = .ok cells)
    (h : freeLane? cells (lanesOf lanes) = .ok (some l)) : Slot.Leftmost t { lane := l, row } := by
  intro lane hfree
  obtain ⟨_, ⟨⟩, _, hle⟩ := freeLane?_of_free ht hcells h hfree rfl
  exact hle

theorem anyLane_leftmost (h : anyLane t lanes row = .ok s) : s.Leftmost t := by
  obtain ⟨cells, hcells, h⟩ := bind_eq_ok.mp h
  obtain ⟨held, _, h⟩ := bind_eq_ok.mp h
  cases held with
  | none =>
    cases h
    intro lane hfree
    exact hfree.lane_nonneg
  | some id =>
    obtain ⟨lane, hfound, h⟩ := bind_eq_ok.mp h
    cases lane with
    | none => cases h
    | some lane =>
      cases h
      exact leftmost_of_freeLane? ht hcells hfound

theorem forwarded_first {s₀ r : Slot} (h : forwarded t lanes fuel s₀ = .ok r) (hrow : 0 ≤ s₀.row)
    (hlane : 0 ≤ s₀.lane) (hfree : s.Free t) (hle : s₀.row ≤ s.row)
    (hsame : s.row = s₀.row → s₀.Free t) : r.row ≤ s.row := by
  refine forwarded_induct (P := fun s₀ => s₀.row ≤ s.row → (s.row = s₀.row → s₀.Free t) →
    r.row ≤ s.row) hrow hlane h (fun _ hle _ => hle) ?_ hle hsame
  intro s₀ next lane htaken hnext hfound ih hle hsame
  have hne : s.row ≠ s₀.row := fun heq => htaken (hsame heq)
  refine ih (by show s₀.row + 1 ≤ s.row; omega) fun heq => ?_
  obtain ⟨l, rfl, hl, _⟩ := freeLane?_of_free ht hnext hfound hfree heq
  exact hl

theorem forwarded_leftmost {s₀ : Slot} (hrow : 0 ≤ s₀.row) (hlane : 0 ≤ s₀.lane)
    (h : forwarded t lanes fuel s₀ = .ok s) (hlt : s₀.row < s.row) : s.Leftmost t := by
  have hfree := (forwarded_spec hrow hlane h).2.1
  refine (forwarded_induct (P := fun s₀ => s₀.row ≤ s.row ∧ (s.row = s₀.row → s.lane = s₀.lane) ∧
    (s₀.row < s.row → s.Leftmost t)) hrow hlane h
    (fun _ => ⟨Int.le_refl _, fun _ => rfl, fun hlt => absurd hlt (Int.lt_irrefl _)⟩) ?_).2.2 hlt
  rintro s₀ next lane - hnext hfound ⟨hle, hsame, hlater⟩
  replace hle : s₀.row + 1 ≤ s.row := hle
  refine ⟨by omega, fun heq => by omega, fun _ => ?_⟩
  by_cases heq : s.row = s₀.row + 1
  · -- the slot is in the very next row, where a lane was looked for
    obtain ⟨l, rfl, _⟩ := freeLane?_of_free ht hnext hfound hfree heq
    obtain ⟨lane, row⟩ := s
    obtain rfl : lane = l := hsame heq
    obtain rfl : row = s₀.row + 1 := heq
    exact leftmost_of_freeLane? ht hnext hfound
  · exact hlater (by show s₀.row + 1 < s.row; omega)

end

/-! ## From a row on -/

/-- A slot in the row right after an instruction stands in its lane. -/
def Slot.Follows (c : Compilation) (source : Option Int) (s : Slot) : Prop :=
  ∀ p pl, source = some p → Position.get c.schedule p = .ok pl → s.row = pl.time + 1 →
    pl.lane = some s.lane

variable {b : Int}

/-- A slot that is not bound to the first lane. It is the first one of its row, unless it
    follows its source, and no earlier row has one that follows the source. -/
theorem Chosen.first {isBranch forward : Bool} {first : Int}
    (ht : Table.Shaped c.target.lanes c.table) (hlanes : LanesNonneg c) (hfirst : 0 ≤ first)
    (hany : c.target.branchAnyLane = false → isBranch = false)
    (h : Chosen c source isBranch first forward s) :
    (s.Leftmost c.table ∨ forward = true ∧ s.row = first) ∧
      (forward = true → ∃ p pl lane, source = some p ∧ Position.get c.schedule p = .ok pl ∧
        pl.lane = some lane) ∧
      ∀ s' : Slot, s'.Free c.table → first ≤ s'.row → (forward = true → s'.row = first →
        ∀ p pl, source = some p → Position.get c.schedule p = .ok pl → pl.lane = some s'.lane) →
        s.row ≤ s'.row := by
  cases h with
  | branch hbound hbranch => cases (hany hbound).symm.trans hbranch
  | follow _ hf hp hpl hlane hfound =>
    have hpos := hlanes _ _ _ hpl hlane
    obtain ⟨hle, -, -⟩ := forwarded_spec hfirst hpos hfound
    refine ⟨?_, fun _ => ⟨_, _, _, hp, hpl, hlane⟩, fun s' hfree hle' hsame => ?_⟩
    · rcases Int.lt_or_eq_of_le hle with hlt | heq
      · exact .inl (forwarded_leftmost ht hfirst hpos hfound hlt)
      · exact .inr ⟨hf, heq.symm⟩
    · refine forwarded_first ht hfound hfirst hpos hfree hle' fun heq => ?_
      obtain rfl := Option.some.inj (hlane.symm.trans (hsame hf heq _ _ hp hpl))
      obtain rfl : s'.row = first := heq
      exact hfree
  | anywhere _ hf hfound =>
    refine ⟨.inl (anyLane_leftmost ht hfound), fun htrue => ?_, fun s' _ hle _ => ?_⟩
    · cases hf.symm.trans htrue
    · rwa [(anyLane_spec hfirst hfound).1]

/-- A slot for an instruction that is no branch: no earlier row has one that follows the
    source, if a source with a place is followed at all. -/
theorem slotFrom_first (ht : Table.Shaped c.target.lanes c.table) (hlanes : LanesNonneg c)
    (hrow : 0 ≤ row) (h : Runs (slotFrom b row source false) c s d) :
    ∃ carried, (∀ p, carried = some p → source = some p ∧
        (∃ first, first ≤ s.row ∧ Runs (isForwarded b first (some p)) c true c) ∧
        ∃ pl lane, Position.get c.schedule p = .ok pl ∧ pl.lane = some lane) ∧
      ∀ s' : Slot, s'.Free c.table → row ≤ s'.row → s'.Follows c carried → s.row ≤ s'.row := by
  obtain ⟨rfl, first, forward, hfirst, hfw, hchosen⟩ := runs_slotFrom h
  have hge := firstOpen_ge hfirst
  obtain ⟨_, hplace, hleast⟩ := hchosen.first ht hlanes (by omega) fun _ => rfl
  cases forward with
  | false =>
    refine ⟨none, nofun, fun s' hfree hle _ => ?_⟩
    exact hleast s' hfree (firstOpen_first ht hfirst hfree hle) nofun
  | true =>
    obtain ⟨p, pl, lane, rfl, hpl, hlane⟩ := hplace rfl
    refine ⟨some p, ?_, fun s' hfree hle hfollows => ?_⟩
    · rintro _ ⟨⟩
      exact ⟨rfl, ⟨first, (hchosen.spec (by omega) hlanes).1, hfw⟩, pl, lane, hpl, hlane⟩
    · refine hleast s' hfree (firstOpen_first ht hfirst hfree hle) fun _ heq p' pl' hp' hpl' => ?_
      exact hfollows p' pl' hp' hpl' (heq.trans (isForwarded_time hfw hp' hpl'))

/-! ## What is waited for -/

/-- What an instruction waits for when it is placed: what comes before the block, and at
    most two instructions of it, which stand in different slots behind row `lastRow`. -/
structure Awaited (c : Compilation) (b : Int) (blk : Block) (lastRow : Int) (above : List Int) :
    Prop where
  entryFirst : above.Pairwise fun p q => q = -1 → p = -1
  nodup : above.Nodup
  few : ∀ p ∈ above, ∀ p' ∈ above, ∀ p'' ∈ above, p ≠ -1 → p' ≠ -1 → p'' ≠ -1 →
    p = p' ∨ p = p'' ∨ p' = p''
  placed : ∀ p ∈ above, p ≠ -1 → ∀ q pl, PlaceAt c blk p q pl →
    lastRow < pl.time ∧ pl.block = some b
  differ : ∀ p ∈ above, ∀ p' ∈ above, p ≠ -1 → p' ≠ -1 → p ≠ p' → ∀ q q' pl pl',
    PlaceAt c blk p q pl → PlaceAt c blk p' q' pl' → pl.time = pl'.time → pl.lane ≠ pl'.lane

/-- What instruction `n` of block `b` waits for if it waits for none of the block: what was
    looked up for the registers that it reads, or the last instruction of the program. -/
def FromBefore (c : Compilation) (b : Int) (blk : Block) (n : Int) (above : List Int)
    (source : Option Int) : Prop :=
  above = [] ∧ source = some (-1) ∨ above ≠ [] ∧ ∃ id i, Schedule.InstrAt c blk n id i ∧
    Runs (LastUse.definition (i.inputs.map Operand.register) b) c source c

/-- Why an instruction waits until the row of `w`. -/
inductive Wait.Exact (c : Compilation) (b : Int) (blk : Block) (lastRow n : Int)
    (above : List Int) (w : Wait) : Prop where
  /-- it reads from no instruction of the block -/
  | entry (hall : ∀ p ∈ above, p = -1) (hrow : w.row = lastRow)
    (hsource : FromBefore c b blk n above w.source)
  /-- it reads from an instruction in that row -/
  | one {p : Int} {q : Option Int} {pl : Place} (hp : p ∈ above) (hne : p ≠ -1)
    (hplace : PlaceAt c blk p q pl) (hrow : w.row = pl.time) (hsource : w.source = q)
  /-- it reads from two instructions in the row before, in different lanes -/
  | two {p p' : Int} {q q' : Option Int} {pl pl' : Place} (hp : p ∈ above) (hp' : p' ∈ above)
    (hne : p ≠ -1) (hne' : p' ≠ -1) (hdiffer : p ≠ p') (hplace : PlaceAt c blk p q pl)
    (hplace' : PlaceAt c blk p' q' pl') (htime : pl.time = pl'.time) (hrow : w.row = pl'.time + 1)
    (hsource : w.source = q')

variable {blk : Block} {lastRow n : Int} {w w' : Wait} {above : List Int}

/-- One more dependence. -/
theorem Awaits.exact {done rest : List Int} (ha : Awaited c b blk lastRow above)
    (hsplit : above = done ++ p :: rest) (hw : w.Exact c b blk lastRow n done)
    (h : Awaits c b blk lastRow w p w')
    (hbefore : p = -1 → ∃ id i, Schedule.InstrAt c blk n id i ∧
      Runs (LastUse.definition (i.inputs.map Operand.register) b) c w'.source c) :
    w'.Exact c b blk lastRow n (done ++ [p]) := by
  have hself : p ∈ done ++ [p] := by simp
  have hold : ∀ {x}, x ∈ done → x ∈ done ++ [p] := fun hx => List.mem_append_left _ hx
  have hnew : p ∉ done := by
    have hnodup := ha.nodup
    rw [hsplit] at hnodup
    intro hp
    exact (List.nodup_append.mp hnodup).2.2 _ hp _ (by simp) rfl
  have hmem : ∀ {x}, x ∈ done ++ [p] → x ∈ above := by
    intro x hx
    rw [hsplit]
    rw [List.mem_append, List.mem_singleton] at hx
    rcases hx with hx | rfl
    · exact List.mem_append_left _ hx
    · simp
  have hlater : ∀ {q pl}, p ≠ -1 → PlaceAt c blk p q pl → lastRow < pl.time :=
    fun hp hplace => (ha.placed p (hmem hself) hp _ _ hplace).1
  cases h with
  | entry hp hsource =>
    refine .entry ?_ rfl (.inr ⟨by simp, hbefore hp⟩)
    intro x hx
    rcases List.mem_append.mp hx with hx | hx
    · have hfirst := ha.entryFirst
      rw [hsplit] at hfirst
      exact (List.pairwise_append.mp hfirst).2.2 x hx p (by simp) hp
    · exact (List.mem_singleton.mp hx).trans hp
  | later hp hplace _ => exact .one hself hp hplace rfl rfl
  | level hp hplace heq =>
    have := hlater hp hplace
    cases hw with
    | entry _ hrow _ => omega
    | @one p₀ _ _ hp₀ hne₀ hplace₀ hrow₀ _ =>
      have hdiffer : p₀ ≠ p := by
        rintro rfl
        exact hnew hp₀
      exact .two (hold hp₀) hself hne₀ hp hdiffer hplace₀ hplace (by omega) rfl rfl
    | @two p₁ p₂ _ _ _ _ hp₁ hp₂ hne₁ hne₂ hdiffer =>
      -- there would be three of them
      rcases ha.few p₁ (hmem (hold hp₁)) p₂ (hmem (hold hp₂)) p (hmem hself) hne₁ hne₂ hp with
        heq | rfl | rfl
      · exact absurd heq hdiffer
      · exact absurd hp₁ hnew
      · exact absurd hp₂ hnew
  | earlier hp hplace hlt =>
    have := hlater hp hplace
    cases hw with
    | entry _ hrow _ => omega
    | one hp₀ hne₀ hplace₀ hrow₀ hsource => exact .one (hold hp₀) hne₀ hplace₀ hrow₀ hsource
    | two hp₁ hp₂ hne₁ hne₂ hdiffer hplace₁ hplace₂ htime hrow hsource =>
      exact .two (hold hp₁) (hold hp₂) hne₁ hne₂ hdiffer hplace₁ hplace₂ htime hrow hsource

theorem awaitAll_exact (ha : Awaited c b blk lastRow above)
    (h : Runs (awaitAll b blk lastRow n above) c w d) :
    d = c ∧ w.Exact c b blk lastRow n above := by
  apply runs_foldlM_induct (fun done w d => d = c ∧ Wait.Exact c b blk lastRow n done w) h
  · exact ⟨rfl, .entry (by simp) rfl (.inl ⟨rfl, rfl⟩)⟩
  · rintro done p rest w d w' e hsplit ⟨rfl, hw⟩ hr
    rw [runs_instrAt_bind] at hr
    obtain ⟨id, i, hid, hi, hr⟩ := hr
    obtain ⟨rfl, hawaits, hentry⟩ := runs_await hr
    exact ⟨rfl, hawaits.exact ha hsplit hw fun hp => ⟨id, i, ⟨hid, hi⟩, hentry hp⟩⟩

theorem Wait.Exact.row_lt (ha : Awaited c b blk lastRow above) (hlast : -1 ≤ lastRow)
    (hw : w.Exact c b blk lastRow n above) (hs : s.Found c b blk above lastRow) : w.row < s.row := by
  cases hw with
  | entry _ hrow _ =>
    rw [hrow]
    exact hs.after
  | one hp hne hplace hrow _ =>
    rw [hrow]
    exact (hs.waits _ hp hne _ _ hplace).1
  | @two p p' q q' pl pl' hp hp' hne hne' hdiffer hplace hplace' htime hrow hsource =>
    obtain ⟨hlater, hblock⟩ := ha.placed p hp hne q pl hplace
    obtain ⟨_, hblock'⟩ := ha.placed p' hp' hne' q' pl' hplace'
    obtain ⟨hlow, hlane⟩ := hs.waits p hp hne q pl hplace
    obtain ⟨_, hlane'⟩ := hs.waits p' hp' hne' q' pl' hplace'
    have hlanes := ha.differ p hp p' hp' hne hne' hdiffer q q' pl pl' hplace hplace' htime
    -- one slot cannot stand in the lanes of both
    have hskip : s.row ≠ pl.time + 1 := by
      intro heq
      rw [hlane heq (by omega) hblock, hlane' (by omega) (by omega) hblock'] at hlanes
      exact hlanes rfl
    omega

theorem Slot.Found.follows {q : Option Int} {pl : Place} (hs : s.Found c b blk above lastRow)
    (hp : p ∈ above) (hne : p ≠ -1) (hplace : PlaceAt c blk p q pl) (hpos : 0 ≤ pl.time)
    (hblock : pl.block = some b) (hsource : ∀ k, source = some k → q = some k) :
    s.Follows c source := by
  intro k pl' hk hpl' heq
  obtain ⟨_, hlane⟩ := hs.waits p hp hne q pl hplace
  obtain ⟨_, _, _, _, _, k', hk', hpl⟩ := hplace
  have hkk := hsource k hk
  rw [hk'] at hkk
  cases hkk
  rw [hpl] at hpl'
  cases hpl'
  exact hlane heq hpos hblock

theorem Wait.Exact.follows (ha : Awaited c b blk lastRow above) (hlast : -1 ≤ lastRow)
    (hw : w.Exact c b blk lastRow n above) :
    ((∀ p ∈ above, p = -1) ∧ FromBefore c b blk n above w.source) ∨
      ∀ {s source}, Slot.Found c b blk above lastRow s →
        (∀ k, source = some k → w.source = some k) → s.Follows c source := by
  cases hw with
  | entry hall _ hsource => exact .inl ⟨hall, hsource⟩
  | @one p q pl hp hne hplace hrow hsource =>
    obtain ⟨hlater, hblock⟩ := ha.placed p hp hne q pl hplace
    refine .inr fun hs hcarried => ?_
    rw [hsource] at hcarried
    exact hs.follows hp hne hplace (by omega) hblock hcarried
  | @two p p' q q' pl pl' hp hp' hne hne' hdiffer hplace hplace' htime hrow hsource =>
    obtain ⟨hlater, hblock⟩ := ha.placed p' hp' hne' q' pl' hplace'
    refine .inr fun hs hcarried => ?_
    rw [hsource] at hcarried
    exact hs.follows hp' hne' hplace' (by omega) hblock hcarried

/-! ## The slot that is found -/

/-- No slot that an instruction other than a branch could take stands in an earlier row
    than the one that is found. If it reads from no instruction of the block, only slots
    count that follow the value from before the block. -/
theorem find_first {g : Digraph} {b : Nat} {maxRow : Int} {f : Fields}
    (hb : c.blocks[b]? = some blk) (hf : Schedule.FieldsAt c blk n f)
    (hbranch : f.isBranch = false) (ht : Table.Shaped c.target.lanes c.table)
    (hlanes : LanesNonneg c) (hlast : -1 ≤ lastRow) (ha : Awaited c b blk lastRow (g.before n))
    (h : Runs (find b g lastRow maxRow n) c s d) :
    ∃ carried, (∀ p, carried = some p → (∀ q ∈ g.before n, q = -1) ∧
        FromBefore c b blk n (g.before n) (some p) ∧
        (∃ first, first ≤ s.row ∧ Runs (isForwarded b first (some p)) c true c) ∧
        ∃ pl lane, Position.get c.schedule p = .ok pl ∧ pl.lane = some lane) ∧
      ∀ s' : Slot, s'.Found c b blk (g.before n) lastRow → s'.Follows c carried →
        s.row ≤ s'.row := by
  obtain ⟨w, id, i, f', hw, hi, hf', hslot⟩ := runs_find hb ha.entryFirst h
  obtain ⟨_, hle, _⟩ := awaitAll_spec ha.entryFirst hw
  obtain ⟨_, hexact⟩ := awaitAll_exact ha hw
  obtain rfl := hf.unique ⟨id, i, hi, hf'⟩
  rw [hbranch, if_neg (by simp)] at hslot
  obtain ⟨carried, htie, hleast⟩ := slotFrom_first ht hlanes (by omega) hslot
  have hrow : ∀ {s' : Slot}, s'.Found c b blk (g.before n) lastRow → w.row + 1 ≤ s'.row :=
    fun hs' => hexact.row_lt ha hlast hs'
  rcases hexact.follows ha hlast with ⟨hall, hsource⟩ | hall
  · refine ⟨carried, ?_, ?_⟩
    · intro p hp
      obtain ⟨hp', hforward, hplace⟩ := htie p hp
      rw [hp'] at hsource
      exact ⟨hall, hsource, hforward, hplace⟩
    · intro s' hs' hfollows'
      exact hleast s' hs'.free (hrow hs') hfollows'
  · refine ⟨none, (fun p hp => by cases hp), ?_⟩
    intro s' hs' _
    exact hleast s' hs'.free (hrow hs') (hall hs' fun k hk => (htie k hk).1)
end Placement
end BpfLanes
