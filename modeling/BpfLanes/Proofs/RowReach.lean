import BpfLanes.Proofs.OpenSlots

/-! # How far down a slot is found

While no instruction stands behind row `top`, a search that starts in row `first` does
not get far: it ends in a row up to `top`, or in the first empty row, which is row
`first` or the one behind `top`. There it takes the first lane, unless it follows its
source in another one. Only a branch that is bound to the first lane may leave that
row empty, because its source stands right above it in another lane.

If the table has such a row, the search comes to an end. What can still stop it is a
source that has no lane yet.
-/

namespace BpfLanes

open Compilation

/-! ## Empty rows -/

/-- No instruction stands behind row `top`. -/
def Table.FilledTo (t : Table) (top : Int) : Prop :=
  ∀ row lane id, Table.entry t row lane = some (some id) → row ≤ top

theorem Table.FilledTo.mono {t : Table} {top top' : Int} (h : t.FilledTo top) (hle : top ≤ top') :
    t.FilledTo top' := by
  intro row lane id hs
  have := h row lane id hs
  omega

theorem PutAt.filledTo {c d : Compilation} {q id : Nat} {s : Placement.Slot} {top : Int}
    (hput : PutAt c q id s d) (h : c.table.FilledTo top) : d.table.FilledTo (max top s.row) := by
  intro row lane id' hs
  rw [hput.entry] at hs
  split at hs
  · next heq => omega
  · have := h row lane id' hs
    omega

variable {t : Table} {rows lanes top : Int}

section
variable (ht : Table.Sized rows lanes t)
include ht

theorem Table.FilledTo.free (h : t.FilledTo top) {row lane : Int} (hrow : 0 ≤ row)
    (htop : top < row) (hlt : row < rows) (hlane : 0 ≤ lane ∧ lane < lanes) :
    Placement.Slot.Free t { lane, row } := by
  have hsome := (ht row lane).mpr ⟨⟨hrow, hlt⟩, hlane⟩
  obtain ⟨x, hx⟩ := Option.isSome_iff_exists.mp hsome
  cases x with
  | none => exact hx
  | some id =>
    have := h row lane id hx
    omega

theorem Table.Sized.row (hlanes : 0 < lanes) {row : Int} (hrow : 0 ≤ row) (hlt : row < rows) :
    ∃ cells, Position.get t row = .ok cells ∧ (cells.size : Int) = lanes := by
  obtain ⟨x, hx⟩ := Option.isSome_iff_exists.mp ((ht row 0).mpr ⟨⟨hrow, hlt⟩, by omega, hlanes⟩)
  obtain ⟨_, _, cells, hcells, _⟩ := Table.entry_eq_some_iff.mp hx
  refine ⟨cells, (Position.get_of_nonneg hrow).mpr hcells, ?_⟩
  -- the last lane is there, and the one behind it is not
  obtain ⟨y, hy⟩ :=
    Option.isSome_iff_exists.mp ((ht row (lanes - 1)).mpr ⟨⟨hrow, hlt⟩, by omega, by omega⟩)
  obtain ⟨_, _, cells', hcells', hy⟩ := Table.entry_eq_some_iff.mp hy
  rw [hcells] at hcells'
  cases hcells'
  have hlast := lt_size hy
  have hle : cells.size ≤ lanes.toNat := ht.shaped.size_le hcells
  omega

theorem Table.Sized.entry_of_row {row lane : Int} (hrow : 0 ≤ row) (hlt : row < rows)
    (hlane : 0 ≤ lane ∧ lane < lanes) {cells : Array (Option Nat)}
    (hcells : Position.get t row = .ok cells) :
    ∃ x, Position.get cells lane = .ok x ∧ Table.entry t row lane = some x := by
  obtain ⟨x, hx⟩ := Option.isSome_iff_exists.mp ((ht row lane).mpr ⟨⟨hrow, hlt⟩, hlane⟩)
  obtain ⟨_, _, cells', hcells', hx'⟩ := Table.entry_eq_some_iff.mp hx
  rw [Position.get_of_nonneg hrow, hcells'] at hcells
  cases hcells
  exact ⟨x, (Position.get_of_nonneg hlane.1).mpr hx', hx⟩

theorem Table.Sized.row_lt {s : Placement.Slot} (hs : s.Free t) :
    s.row < rows ∧ s.lane < lanes := by
  obtain ⟨⟨_, hrow⟩, _, hlane⟩ := (ht s.row s.lane).mp hs.isSome
  exact ⟨hrow, hlane⟩

theorem Table.Sized.rows_le (hlanes : 0 < lanes) : rows ≤ t.size := by
  by_cases hrows : 0 < rows
  · obtain ⟨cells, hcells, _⟩ := ht.row hlanes (show 0 ≤ rows - 1 by omega) (by omega)
    rw [Position.get_of_nonneg (by omega)] at hcells
    have := lt_size hcells
    omega
  · omega

end

theorem Tabled.entry_of_get {c : Compilation} (hc : Tabled c) {p lane : Int} {pl : Place}
    (hpl : Position.get c.schedule p = .ok pl) (hlane : pl.lane = some lane) :
    ∃ id, Table.entry c.table pl.time lane = some (some id) := by
  obtain ⟨q, _, hq⟩ := Position.get_eq_ok_iff.mp hpl
  obtain ⟨id, _, hslot⟩ := hc.placed_slot hq hlane
  exact ⟨id, hslot⟩

namespace Placement

variable {c d : Compilation} {b row row' : Int} {source : Option Int} {isBranch : Bool} {s : Slot}

theorem firstFreeIn_first {lane : Int} {fuel : Nat} {r : Int}
    (h : firstFreeIn t lane fuel row = .ok r) (hfree : Slot.Free t { lane, row := row' })
    (hle : row ≤ row') : r ≤ row' := by
  induction fuel generalizing row with
  | zero => cases h
  | succ fuel ih =>
    obtain ⟨cells, hcells, h⟩ := bind_eq_ok.mp h
    obtain ⟨x, hx, h⟩ := bind_eq_ok.mp h
    cases x with
    | none =>
      cases h
      exact hle
    | some id =>
      have hne : row' ≠ row := by
        intro heq
        subst heq
        have hnone := hfree.get hcells
        rw [hx] at hnone
        cases hnone
      exact ih h (by omega)

/-! ## Where a search ends -/

/-- Where a search ends while nothing stands behind row `top` and `first` is the first
    empty row that it may take. -/
inductive Slot.Lands (c : Compilation) (source : Option Int) (isBranch : Bool) (top first : Int)
    (s : Slot) : Prop where
  | inside (hrow : s.row ≤ top)
  | opens (hrow : s.row = first) (hlane : s.lane = 0)
  /-- in the empty row, below the source and in its lane -/
  | follows {p : Int} {pl : Place} (hrow : s.row = first) (hp : source = some p)
    (hpl : Position.get c.schedule p = .ok pl) (htime : pl.time + 1 = first)
    (hlane : pl.lane = some s.lane)
  /-- one row further down, because the source of a branch that is bound to the first lane
      does not stand in it -/
  | skips {p : Int} {pl : Place} (hbound : c.target.branchAnyLane = false)
    (hbranch : isBranch = true) (hrow : s.row = first + 1) (hlane : s.lane = 0)
    (hp : source = some p) (hpl : Position.get c.schedule p = .ok pl)
    (htime : pl.time + 1 = first) (hother : pl.lane ≠ some 0)

theorem slotFrom_lands (hc : Tabled c) (ht : Table.Sized rows c.target.lanes c.table)
    (hfill : c.table.FilledTo top) (hrow : 0 ≤ row)
    (h : Runs (slotFrom b row source isBranch) c s d) :
    s.Lands c source isBranch top (max row (top + 1)) := by
  obtain ⟨_, hge, hfree, _⟩ := slotFrom_spec hrow hc.lanesNonneg h
  obtain ⟨hlt, hlane⟩ := ht.row_lt hfree
  have hlanes : 0 < c.target.lanes := by
    have := hfree.lane_nonneg
    omega
  by_cases htop : s.row ≤ top
  · exact .inside htop
  -- the first row that is empty is there, with all its lanes
  have hempty : ∀ lane, 0 ≤ lane → lane < c.target.lanes →
      Slot.Free c.table { lane, row := max row (top + 1) } := fun lane hlow hhigh =>
    hfill.free ht (by omega) (by omega) (by omega) ⟨hlow, hhigh⟩
  have hzero := hempty 0 (by omega) hlanes
  obtain ⟨_, first, forward, hfirst, hforward, hchosen⟩ := runs_slotFrom h
  have hfirst_ge := firstOpen_ge hfirst
  have hfirst_le : first ≤ max row (top + 1) :=
    firstOpen_first ht.shaped hfirst hzero (by show row ≤ max row (top + 1); omega)
  by_cases hany : c.target.branchAnyLane = false → isBranch = false
  · obtain ⟨hcase, hplace, hleast⟩ := hchosen.first ht.shaped hc.lanesNonneg (by omega) hany
    have hle : s.row ≤ max row (top + 1) := by
      cases forward with
      | false => exact hleast _ hzero hfirst_le nofun
      | true =>
        obtain ⟨p, pl, lane, hp, hpl, hlane⟩ := hplace rfl
        obtain ⟨id, hslot⟩ := hc.entry_of_get hpl hlane
        obtain ⟨_, hlow, hhigh⟩ := (ht pl.time lane).mp (by rw [hslot]; rfl)
        refine hleast _ (hempty lane hlow hhigh) hfirst_le fun _ _ p' pl' hp' hpl' => ?_
        cases hp.symm.trans hp'
        cases hpl.symm.trans hpl'
        exact hlane
    have hrow' : s.row = max row (top + 1) := by omega
    rcases hcase with hleft | ⟨rfl, heq⟩
    · have := hleft 0 (by rw [hrow']; exact hzero)
      exact .opens hrow' (Int.le_antisymm this hfree.lane_nonneg)
    · obtain ⟨-, p, pl, _, hp, hpl, htime, -⟩ := runs_isForwarded hforward
      exact .follows hrow' hp hpl (by omega)
        ((hchosen.spec (by omega) hc.lanesNonneg).2.2 rfl heq p pl hp hpl)
  cases hchosen with
  | follow hany' | anywhere hany' => exact absurd hany' hany
  | @branch row₁ row₂ hbound hbranch hrow₁ hfound =>
    have hbound₁ := le_branchRow hrow₁
    obtain ⟨hle₂, hfree₂⟩ := firstFreeIn_spec (Int.le_refl _) (by omega) hfound
    have hlt₂ : row₂ < rows := (ht.row_lt hfree₂).1
    have hnot : ¬ row₂ ≤ top := htop
    by_cases hle : row₁ ≤ max row (top + 1)
    · have hmost := firstFreeIn_first hfound hzero hle
      exact .opens (by show row₂ = _; omega) rfl
    -- the branch was sent past the empty row
    rcases (runs_branchRow hrow₁).2 with ⟨heq, -⟩ | ⟨heq, hf, p, pl, hp, hpl, hother⟩
    · omega
    · have htime := isForwarded_time (hf ▸ hforward) hp hpl
      have hnext : Slot.Free c.table { lane := 0, row := row₁ } :=
        hfill.free ht (by omega) (by omega) (by omega) ⟨by omega, hlanes⟩
      have hmost := firstFreeIn_first hfound hnext (Int.le_refl _)
      exact .skips hbound hbranch (by show row₂ = _; omega) rfl hp hpl (by omega) hother

theorem slotFrom_branch_first (hc : Tabled c) (ht : Table.Shaped c.target.lanes c.table)
    (hrow : 0 ≤ row)
    (hfar : ∀ first, row ≤ first → first ≤ s.row → ¬ Runs (isForwarded b first source) c true c)
    (h : Runs (slotFrom b row source true) c s d) :
    row ≤ s.row ∧ s.Free c.table ∧ (c.target.branchAnyLane = false → s.lane = 0) ∧
      ∀ s' : Slot, s'.Free c.table → row ≤ s'.row →
        (c.target.branchAnyLane = false → s'.lane = 0) → s.row ≤ s'.row := by
  obtain ⟨rfl, first, forward, hfirst, hfw, hchosen⟩ := runs_slotFrom h
  have hge := firstOpen_ge hfirst
  obtain ⟨hle, hfree, _⟩ := hchosen.spec (by omega) hc.lanesNonneg
  obtain rfl : forward = false := by
    cases forward with
    | false => rfl
    | true => exact absurd hfw (hfar first hge hle)
  refine ⟨by omega, hfree, ?_⟩
  cases hchosen with
  | branch hbound _ hrow₁ hfound =>
    -- nothing is forwarded, so the branch does not move on from the first open row
    obtain rfl := (runs_pure.mp hrow₁).1
    refine ⟨fun _ => rfl, fun s' hfree' hle' hlane => ?_⟩
    obtain ⟨lane', row'⟩ := s'
    obtain rfl : lane' = 0 := hlane hbound
    exact firstFreeIn_first hfound hfree' (firstOpen_first ht hfirst hfree' hle')
  | follow _ hf => cases hf
  | anywhere hany _ hfound =>
    refine ⟨fun hbound => absurd (hany hbound) (by simp), fun s' hfree' hle' _ => ?_⟩
    rw [(anyLane_spec (by omega) hfound).1]
    exact firstOpen_first ht hfirst hfree' hle'

/-! ## Searches that come to an end -/

section
variable (ht : Table.Sized rows lanes t) (hlanes : 0 < lanes)
include ht hlanes

theorem exists_free_of_not_isFull {cells : Array (Option Nat)} (hrow : 0 ≤ row) (hlt : row < rows)
    (hcells : Position.get t row = .ok cells) (hopen : isFull lanes cells = false) :
    ∃ s : Slot, s.row = row ∧ s.Free t := by
  obtain ⟨cells', hcells', hsize⟩ := ht.row hlanes hrow hlt
  rw [hcells] at hcells'
  cases hcells'
  have hless : (cells.toList.filter Option.isSome).length ≠ cells.toList.length := by
    intro heq
    have hfull : isFull lanes cells = true := by
      unfold isFull
      rw [heq, Array.length_toList, hsize]
      simp
    rw [hopen] at hfull
    cases hfull
  -- so some cell is empty
  have hnone : none ∈ cells.toList := by
    by_contra hnot
    apply hless
    apply List.length_filter_eq_length_iff.mpr
    intro x hx
    cases x with
    | none => exact absurd hx hnot
    | some id => rfl
  obtain ⟨lane, hlane⟩ := Array.mem_iff_getElem?.mp (Array.mem_toList_iff.mp hnone)
  refine ⟨{ lane, row }, rfl, ?_⟩
  apply Table.entry_of_get hrow (by show (0 : Int) ≤ lane; omega) hcells
  exact Position.get_natCast.mpr hlane

theorem rowsFrom_lt {row goal : Int} (hgoal : goal < rows) :
    (goal - row).toNat < rowsFrom t row := by
  have := ht.rows_le hlanes
  unfold rowsFrom
  omega

theorem firstOpen_ok (hfree : s.Free t) {fuel : Nat} (hrow : 0 ≤ row) (hle : row ≤ s.row)
    (hfuel : (s.row - row).toNat < fuel) :
    ∃ r, firstOpen t lanes fuel row = .ok r ∧ ∃ s' : Slot, s'.row = r ∧ s'.Free t := by
  induction fuel generalizing row with
  | zero => omega
  | succ fuel ih =>
    have hlt := (ht.row_lt hfree).1
    obtain ⟨cells, hcells, _⟩ := ht.row hlanes hrow (by omega)
    unfold firstOpen
    rw [hcells]
    cases hfull : isFull lanes cells with
    | true =>
      have hne : s.row ≠ row := fun heq => not_free_of_isFull ht.shaped hcells hfull heq hfree
      obtain ⟨r, hr, hrest⟩ := ih (show 0 ≤ row + 1 by omega) (by omega) (by omega)
      refine ⟨r, ?_, hrest⟩
      show (if isFull lanes cells = true then firstOpen t lanes fuel (row + 1) else pure row) = _
      rwa [if_pos hfull]
    | false =>
      refine ⟨row, ?_, exists_free_of_not_isFull ht hlanes hrow (by omega) hcells hfull⟩
      show (if isFull lanes cells = true then firstOpen t lanes fuel (row + 1) else pure row) = _
      rw [if_neg (by rw [hfull]; decide)]
      rfl

theorem firstFreeIn_ok {lane goal : Int} (hfree : Slot.Free t { lane, row := goal }) {fuel : Nat}
    (hrow : 0 ≤ row) (hle : row ≤ goal) (hfuel : (goal - row).toNat < fuel) :
    ∃ r, firstFreeIn t lane fuel row = .ok r := by
  induction fuel generalizing row with
  | zero => omega
  | succ fuel ih =>
    obtain ⟨hgoal, hlane⟩ : goal < rows ∧ lane < lanes := ht.row_lt hfree
    obtain ⟨cells, hcells, _⟩ := ht.row hlanes hrow (by omega)
    obtain ⟨x, hx, hentry⟩ := ht.entry_of_row hrow (by omega) ⟨hfree.lane_nonneg, hlane⟩ hcells
    unfold firstFreeIn
    rw [hcells]
    show ∃ r, (Position.get cells lane >>= _) = _
    rw [hx]
    cases x with
    | none => exact ⟨row, rfl⟩
    | some id =>
      have hne : goal ≠ row := by
        intro heq
        subst heq
        rw [show Table.entry t goal lane = some none from hfree] at hentry
        cases hentry
      exact ih (by omega) (by omega) (by omega)

omit ht in
theorem freeLane?_ok {cells : Array (Option Nat)} (hsize : (cells.size : Int) = lanes)
    {ls : List Int} (hls : ∀ l ∈ ls, l ∈ lanesOf lanes) : ∃ x, freeLane? cells ls = .ok x := by
  induction ls with
  | nil => exact ⟨none, rfl⟩
  | cons l ls ih =>
    obtain ⟨n, hn, hl⟩ := List.mem_map.mp (hls l List.mem_cons_self)
    have hlt : n < cells.size := by
      have := List.mem_range.mp hn
      omega
    have hget : Position.get cells l = .ok cells[n] := by
      rw [← hl]
      exact Position.get_natCast.mpr (Array.getElem?_eq_getElem hlt)
    unfold freeLane?
    rw [hget]
    cases cells[n] with
    | none => exact ⟨some l, rfl⟩
    | some id => exact ih fun l' hl' => hls l' (List.mem_cons_of_mem l hl')

/-- Forwarding ends at the latest in a row that is empty. -/
theorem forwarded_ok {goal : Int} (hgoal : goal < rows)
    (hempty : ∀ lane, 0 ≤ lane → lane < lanes → Slot.Free t { lane, row := goal }) {fuel : Nat}
    (hrow : 0 ≤ s.row) (hle : s.row ≤ goal) (hlane : 0 ≤ s.lane ∧ s.lane < lanes)
    (hfuel : (goal - s.row).toNat < fuel) : ∃ r, forwarded t lanes fuel s = .ok r := by
  induction fuel generalizing s with
  | zero => omega
  | succ fuel ih =>
    obtain ⟨cells, hcells, _⟩ := ht.row hlanes hrow (by omega)
    obtain ⟨x, hx, hentry⟩ := ht.entry_of_row hrow (by omega) hlane hcells
    unfold forwarded
    rw [hcells]
    show ∃ r, (Position.get cells s.lane >>= _) = _
    rw [hx]
    cases x with
    | none => exact ⟨s, rfl⟩
    | some id =>
      -- the slot is taken, so the empty row was not reached yet
      have hne : s.row ≠ goal := by
        intro heq
        have hfree := hempty s.lane hlane.1 hlane.2
        rw [← heq] at hfree
        rw [show Table.entry t s.row s.lane = some none from hfree] at hentry
        cases hentry
      obtain ⟨next, hnext, hsize⟩ := ht.row hlanes (show 0 ≤ s.row + 1 by omega) (by omega)
      obtain ⟨lane, hfound⟩ := freeLane?_ok hlanes hsize (fun l hl => hl)
      show ∃ r, (Position.get t (s.row + 1) >>= _) = _
      rw [hnext]
      show ∃ r, (freeLane? next (lanesOf lanes) >>= _) = _
      rw [hfound]
      refine ih (s := ⟨lane.getD (if 0 < lanes then lanes - 1 else s.lane), s.row + 1⟩)
        (by show 0 ≤ s.row + 1; omega) (by show s.row + 1 ≤ goal; omega) ?_
        (by show (goal - (s.row + 1)).toNat < fuel; omega)
      cases lane with
      | none =>
        show 0 ≤ (if 0 < lanes then lanes - 1 else s.lane) ∧
          (if 0 < lanes then lanes - 1 else s.lane) < lanes
        omega
      | some l =>
        obtain ⟨hmem, _⟩ := freeLane?_spec hfound
        obtain ⟨n, hn, hl⟩ := List.mem_map.mp hmem
        have := List.mem_range.mp hn
        show 0 ≤ l ∧ l < lanes
        omega

theorem anyLane_ok (hfree : s.Free t) : ∃ r, anyLane t lanes s.row = .ok r := by
  obtain ⟨hlt, hlane⟩ := ht.row_lt hfree
  obtain ⟨cells, hcells, hsize⟩ := ht.row hlanes hfree.row_nonneg hlt
  obtain ⟨x, hx, _⟩ := ht.entry_of_row hfree.row_nonneg hlt ⟨Int.le_refl 0, hlanes⟩ hcells
  unfold anyLane
  rw [hcells]
  show ∃ r, (Position.get cells 0 >>= _) = _
  rw [hx]
  cases x with
  | none => exact ⟨_, rfl⟩
  | some id =>
    obtain ⟨lane, hfound⟩ := freeLane?_ok hlanes hsize (fun l hl => hl)
    obtain ⟨l, rfl, _⟩ := freeLane?_of_free ht.shaped hcells hfound hfree rfl
    show ∃ r, (freeLane? cells (lanesOf lanes) >>= _) = _
    rw [hfound]
    exact ⟨_, rfl⟩

end

/-- The place of a source is known. If it may be followed, so is its block. -/
def Known (c : Compilation) (rows : Int) (source : Option Int) : Prop :=
  ∀ p, source = some p → ∃ pl, Position.get c.schedule p = .ok pl ∧
    (rows ≤ pl.time + 1 ∨ ∃ b, pl.block = some b)

theorem isForwarded_ok (hknown : Known c rows source) (hlt : row < rows) :
    ∃ forward, Runs (isForwarded b row source) c forward c := by
  cases source with
  | none => exact ⟨false, rfl⟩
  | some p =>
    obtain ⟨pl, hpl, hblock⟩ := hknown p rfl
    unfold isForwarded
    dsimp only
    by_cases hrow : 0 < row
    · rw [if_pos hrow]
      by_cases htime : row = pl.time + 1
      · obtain ⟨b', hb'⟩ : ∃ b', pl.block = some b' := by
          rcases hblock with hfar | hblock
          · omega
          · exact hblock
        refine ⟨decide (b' ≤ b), runs_placeOf_bind.mpr ⟨p, pl, rfl, hpl, ?_⟩⟩
        rw [if_pos (by simpa using htime), hb']
        rfl
      · refine ⟨false, runs_placeOf_bind.mpr ⟨p, pl, rfl, hpl, ?_⟩⟩
        rw [if_neg (by simpa using htime)]
        rfl
    · rw [if_neg hrow]
      exact ⟨false, rfl⟩

theorem branchRow_ok {forward : Bool} (row : Int) (hknown : Known c rows source)
    (hforward : forward = true → ∃ p, source = some p) :
    ∃ row', Runs (branchRow row source forward) c row' c := by
  cases forward with
  | false => exact ⟨row, rfl⟩
  | true =>
    obtain ⟨p, hp⟩ := hforward rfl
    obtain ⟨pl, hpl, _⟩ := hknown p hp
    exact ⟨_, runs_placeOf_bind.mpr ⟨p, pl, hp, hpl, rfl⟩⟩

variable (ht : Table.Sized rows c.target.lanes c.table) (hlanes : 0 < c.target.lanes)
  (hfill : c.table.FilledTo top) (hknown : Known c rows source) (hroom : max row (top + 1) < rows)
include ht hlanes hfill hknown hroom

theorem branch_chosen {first : Int} {forward : Bool} (hfirst : 0 ≤ first)
    (hle : first ≤ max row (top + 1)) (hforward : Runs (isForwarded b first source) c forward c)
    (hbound : c.target.branchAnyLane = false) (hbranch : isBranch = true)
    (hskip : ∀ p pl, source = some p → Position.get c.schedule p = .ok pl →
      pl.time + 1 = max row (top + 1) → pl.lane ≠ some 0 → max row (top + 1) + 1 < rows) :
    ∃ s, Chosen c source isBranch first forward s := by
  have hfrom : forward = true → ∃ p, source = some p := by
    rintro rfl
    obtain ⟨-, p, _, _, hp, -⟩ := runs_isForwarded hforward
    exact ⟨p, hp⟩
  obtain ⟨row₁, hrow₁⟩ := branchRow_ok first hknown hfrom
  have hge₁ := le_branchRow hrow₁
  -- the empty row will do, unless the source of the branch stands right above it in another lane
  have hfree : ∃ goal, row₁ ≤ goal ∧ goal < rows ∧ Slot.Free c.table { lane := 0, row := goal } := by
    by_cases hle₁ : row₁ ≤ max row (top + 1)
    · exact ⟨_, hle₁, hroom, hfill.free ht (by omega) (by omega) hroom ⟨Int.le_refl 0, hlanes⟩⟩
    · rcases (runs_branchRow hrow₁).2 with ⟨heq, -⟩ | ⟨heq, hf, p, pl, hp, hpl, hother⟩
      · omega
      · have htime := isForwarded_time (hf ▸ hforward) hp hpl
        have hmore := hskip p pl hp hpl (by omega) hother
        exact ⟨row₁, Int.le_refl _, by omega,
          hfill.free ht (by omega) (by omega) (by omega) ⟨Int.le_refl 0, hlanes⟩⟩
  obtain ⟨goal, hle₂, hlt₂, hfree⟩ := hfree
  obtain ⟨row₂, hrow₂⟩ := firstFreeIn_ok ht hlanes hfree (by omega) hle₂ (rowsFrom_lt ht hlanes hlt₂)
  exact ⟨_, .branch hbound hbranch hrow₁ hrow₂⟩

/-- A search ends as long as the table has the row where it would end. Only a source
    without a lane stops it. -/
theorem slotFrom_ends (hc : Tabled c) (hrow : 0 ≤ row)
    (hskip : ∀ p pl, c.target.branchAnyLane = false → isBranch = true → source = some p →
      Position.get c.schedule p = .ok pl → pl.time + 1 = max row (top + 1) → pl.lane ≠ some 0 →
      max row (top + 1) + 1 < rows) :
    (∃ s, Runs (slotFrom b row source isBranch) c s c) ∨
      Fails (slotFrom b row source isBranch) c .missingNumber c ∧ ∃ p pl, source = some p ∧
        Position.get c.schedule p = .ok pl ∧ pl.lane = none := by
  have hempty : ∀ lane, 0 ≤ lane → lane < c.target.lanes →
      Slot.Free c.table { lane, row := max row (top + 1) } := fun lane hlow hhigh =>
    hfill.free ht (by omega) (by omega) hroom ⟨hlow, hhigh⟩
  have hzero := hempty 0 (Int.le_refl 0) hlanes
  obtain ⟨first, hfirst, s₁, hs₁, hfree₁⟩ := firstOpen_ok ht hlanes hzero hrow
    (by show row ≤ max row (top + 1); omega) (rowsFrom_lt ht hlanes hroom)
  have hge := firstOpen_ge hfirst
  have hle : first ≤ max row (top + 1) :=
    firstOpen_first ht.shaped hfirst hzero (by show row ≤ max row (top + 1); omega)
  obtain ⟨forward, hforward⟩ := isForwarded_ok (b := b) hknown (show first < rows by omega)
  by_cases hbound : c.target.branchAnyLane = false ∧ isBranch = true
  · obtain ⟨s, hs⟩ := branch_chosen ht hlanes hfill hknown hroom (by omega) hle hforward hbound.1
      hbound.2 fun p pl => hskip p pl hbound.1 hbound.2
    exact .inl ⟨s, hs.runs hfirst hforward⟩
  have hany : c.target.branchAnyLane = false → isBranch = false := fun hfalse =>
    Bool.eq_false_iff.mpr fun htrue => hbound ⟨hfalse, htrue⟩
  cases forward with
  | false =>
    obtain ⟨s, hs⟩ := anyLane_ok ht hlanes hfree₁
    rw [hs₁] at hs
    exact .inl ⟨s, Chosen.runs (.anywhere hany rfl hs) hfirst hforward⟩
  | true =>
    obtain ⟨-, p, _, _, hp, -⟩ := runs_isForwarded hforward
    obtain ⟨pl, hpl, _⟩ := hknown p hp
    cases hlane : pl.lane with
    | none => exact .inr ⟨fails_slotFrom hany hfirst hforward hp hpl hlane, p, pl, hp, hpl, hlane⟩
    | some lane =>
      -- the source stands in the table, so its lane is one of it
      obtain ⟨id, hslot⟩ := hc.entry_of_get hpl hlane
      obtain ⟨_, hlow, hhigh⟩ := (ht pl.time lane).mp (by rw [hslot]; rfl)
      obtain ⟨s, hs⟩ := forwarded_ok ht hlanes hroom hempty (s := { lane, row := first })
        (by show 0 ≤ first; omega) hle ⟨hlow, hhigh⟩ (rowsFrom_lt ht hlanes hroom)
      exact .inl ⟨s, Chosen.runs (.follow hany rfl hp hpl hlane hs) hfirst hforward⟩

end Placement
end BpfLanes
