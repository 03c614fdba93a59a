import BpfLanes.Proofs.RowReach
import Mathlib.Data.Finset.Card

/-! # Paying for rows

Placing an instruction mostly opens one row at most. It opens two only if it leaves a
row empty: because it waits for two instructions of the last row, or because it is a
branch that is bound to the first lane and its source stands in another one. Both
times the last row is crowded: it holds an instruction in another lane than the first,
and that instruction opened no row. So if every instruction pays for one row, there is
one more paid for whenever it is needed.
-/


namespace BpfLanes

open Compilation BpfLanes.Flow

/-! ## Crowded rows -/

/-- Some instruction stands in row `top`, in another lane than the first. -/
def Table.Crowded (t : Table) (top : Int) : Prop :=
  ∃ lane id, lane ≠ 0 ∧ Table.entry t top lane = some (some id)

theorem Table.FilledTo.not_crowded {t : Table} {top row : Int} (h : t.FilledTo top)
    (hlt : top < row) : ¬ t.Crowded row := by
  rintro ⟨lane, id, _, hslot⟩
  have := h row lane id hslot
  omega

namespace Placement

/-- An instruction waits for row `top` at most, or for the row behind it if row `top` is
    crowded. -/
def Wait.Near (t : Table) (top : Int) (w : Wait) : Prop :=
  w.row ≤ top ∨ w.row = top + 1 ∧ t.Crowded top

/-- A slot in the rows that are used, in the next row, or, if the last row that is used is
    crowded, in the first lane of the row behind that. In the next row it is in the first
    lane as well, unless the last row is crowded. -/
def Slot.Near (t : Table) (top : Int) (s : Slot) : Prop :=
  s.row ≤ top ∨ (s.row = top + 1 ∧ (s.lane = 0 ∨ t.Crowded top)) ∨
    s.row = top + 2 ∧ s.lane = 0 ∧ t.Crowded top

/-- A source without a lane is not one to be followed inside a table of `rows` rows. -/
def Settled (c : Compilation) (rows : Int) (source : Option Int) : Prop :=
  ∀ p pl, source = some p → Position.get c.schedule p = .ok pl → pl.lane = none →
    rows ≤ pl.time + 1

section
variable {c : Compilation} {rows top : Int} {isBranch : Bool} {w : Wait} {s : Slot}

variable (hc : Tabled c) (hfill : c.table.FilledTo top)
include hc hfill

theorem time_eq_top {p lane : Int} {pl : Place} (hpl : Position.get c.schedule p = .ok pl)
    (hlane : pl.lane = some lane) (htime : pl.time = max w.row top) :
    pl.time = top ∧ (lane ≠ 0 → c.table.Crowded top) := by
  obtain ⟨id, hslot⟩ := hc.entry_of_get hpl hlane
  have hle := hfill _ _ _ hslot
  have heq : pl.time = top := by omega
  rw [heq] at hslot
  exact ⟨heq, fun hne => ⟨lane, id, hne, hslot⟩⟩

variable (hw : w.Near c.table top)
  (hsettled : c.target.branchAnyLane = false → isBranch = true → Settled c rows w.source)
include hw hsettled

theorem Slot.Lands.near (hlt : s.row < rows)
    (h : s.Lands c w.source isBranch top (max w.row top + 1)) : s.Near c.table top := by
  cases h with
  | inside hrow => exact .inl hrow
  | opens hrow hlane =>
    -- the wait ends one row later if the last row holds more than one source
    rcases hw with hle | ⟨heq, hcrowd⟩
    · exact .inr (.inl ⟨by omega, .inl hlane⟩)
    · exact .inr (.inr ⟨by omega, hlane, hcrowd⟩)
  | follows hrow _ hpl htime hlane =>
    obtain ⟨heq, hcrowd⟩ := time_eq_top (w := w) hc hfill hpl hlane (by omega)
    refine .inr (.inl ⟨by omega, ?_⟩)
    by_cases hzero : s.lane = 0
    · exact .inl hzero
    · exact .inr (hcrowd hzero)
  | @skips p pl hbound hbranch hrow hlane hp hpl htime hother =>
    -- a source that sends the branch on has a lane, and that is not the first one
    cases hcases : pl.lane with
    | none =>
      have := hsettled hbound hbranch p pl hp hpl hcases
      omega
    | some lane =>
      obtain ⟨heq, hcrowd⟩ := time_eq_top (w := w) hc hfill hpl hcases (by omega)
      refine .inr (.inr ⟨by omega, hlane, hcrowd ?_⟩)
      intro hzero
      rw [hcases, hzero] at hother
      exact hother rfl

theorem slotFrom_room (b row : Int) (ht : Table.Sized rows c.target.lanes c.table)
    (hlanes : 0 < c.target.lanes) (hrow : 0 ≤ row) (hstart : max row (top + 1) = max w.row top + 1)
    (hknown : Known c rows w.source) (hroom : top + 1 < rows)
    (hmore : c.table.Crowded top → top + 2 < rows) :
    (∃ s, Runs (slotFrom b row w.source isBranch) c s c) ∨
      Fails (slotFrom b row w.source isBranch) c .missingNumber c := by
  have hfits : max row (top + 1) < rows := by
    rcases hw with hle | ⟨heq, hcrowd⟩
    · omega
    · have := hmore hcrowd
      omega
  refine (slotFrom_ends ht hlanes hfill hknown hfits hc hrow ?_).imp_right And.left
  -- a branch that leaves a row empty does so below a crowded row
  intro p pl hbound hbranch hp hpl htime hother
  cases hcases : pl.lane with
  | none =>
    have := hsettled hbound hbranch p pl hp hpl hcases
    omega
  | some lane =>
    obtain ⟨heq, hcrowd⟩ := time_eq_top (w := w) hc hfill hpl hcases (by omega)
    have := hmore (hcrowd fun hzero => hother (by rw [hcases, hzero]))
    omega

end
end Placement

/-! ## Rows that are paid for -/

/-- The rows up to `top` are paid for by instructions at positions in `mine`: there is one
    for each row, and one more if row `top` is crowded. -/
def Paid (mine : Nat → Prop) (top : Int) (t : Table) : Prop :=
  ∃ payers : Finset Nat, (∀ q ∈ payers, mine q) ∧ top + 1 ≤ (payers.card : Int) ∧
    (t.Crowded top → top + 2 ≤ (payers.card : Int))

variable {mine mine' : Nat → Prop} {top : Int} {t : Table} {q rows : Nat}

section
variable (h : Paid mine top t)
include h

theorem Paid.mono (hle : ∀ q, mine q → mine' q) : Paid mine' top t := by
  obtain ⟨payers, hmine, hpaid⟩ := h
  exact ⟨payers, fun q hq => hle q (hmine q hq), hpaid⟩

theorem Paid.le (hmine : ∀ q, mine q → q < rows) : top + 1 ≤ rows := by
  obtain ⟨payers, hpayers, hrows, _⟩ := h
  have hsub : payers ⊆ Finset.range rows := by
    intro q hq
    exact Finset.mem_range.mpr (hmine q (hpayers q hq))
  have hcard := Finset.card_le_card hsub
  rw [Finset.card_range] at hcard
  omega

theorem Paid.grow (hq : ¬ mine q) :
    ∃ payers : Finset Nat, (∀ p ∈ payers, mine p ∨ p = q) ∧ top + 2 ≤ (payers.card : Int) ∧
      (t.Crowded top → top + 3 ≤ (payers.card : Int)) := by
  obtain ⟨payers, hpayers, hrows, hspare⟩ := h
  have hcard : (insert q payers).card = payers.card + 1 :=
    Finset.card_insert_of_notMem fun hmem => hq (hpayers q hmem)
  refine ⟨insert q payers, ?_, by omega, fun hcrowd => ?_⟩
  · intro p hp
    rcases Finset.mem_insert.mp hp with rfl | hp
    · exact .inr rfl
    · exact .inl (hpayers p hp)
  · have := hspare hcrowd
    omega

theorem Paid.room (hq : ¬ mine q) (hlt : q < rows) (hmine : ∀ p, mine p → p < rows) :
    top + 1 < rows ∧ (t.Crowded top → top + 2 < rows) := by
  obtain ⟨payers, hpayers, hrows, hspare⟩ := h.grow hq
  have hsub : payers ⊆ Finset.range rows := by
    intro p hp
    rw [Finset.mem_range]
    rcases hpayers p hp with hp | rfl
    · exact hmine p hp
    · exact hlt
  have hcard := Finset.card_le_card hsub
  rw [Finset.card_range] at hcard
  refine ⟨by omega, fun hcrowd => ?_⟩
  have := hspare hcrowd
  omega

end

theorem Paid.put {c d : Compilation} {id : Nat} {s : Placement.Slot} {p : Nat}
    (h : Paid mine top c.table) (hq : ¬ mine q) (hfill : c.table.FilledTo top)
    (hnear : s.Near c.table top) (hput : PutAt c p id s d) :
    Paid (fun x => mine x ∨ x = q) (max top s.row) d.table := by
  obtain ⟨payers, hpayers, hrows, hspare⟩ := h.grow hq
  -- a row that is crowded now was crowded before, or the new instruction stands in it
  have hcrowded : ∀ row, d.table.Crowded row →
      c.table.Crowded row ∨ row = s.row ∧ s.lane ≠ 0 := by
    rintro row ⟨lane, id', hne, hslot⟩
    rw [hput.entry] at hslot
    split at hslot
    · next heq =>
      rw [heq.2] at hne
      exact .inr ⟨heq.1, hne⟩
    · exact .inl ⟨lane, id', hne, hslot⟩
  refine ⟨payers, hpayers, ?_, fun hcrowd => ?_⟩
  · rcases hnear with hle | ⟨heq, _⟩ | ⟨heq, _, hcrowd⟩
    · omega
    · omega
    · have := hspare hcrowd
      omega
  · rcases hnear with hle | ⟨heq, hlane⟩ | ⟨heq, hlane, hcrowd₀⟩
    · rw [Int.max_eq_left hle]
      omega
    · -- the next row is crowded only if the last one was
      rcases hcrowded _ hcrowd with hold | ⟨_, hne⟩
      · exact absurd hold (hfill.not_crowded (by omega))
      · have := hspare (hlane.resolve_left hne)
        omega
    · rw [Int.max_eq_right (by omega)] at hcrowd ⊢
      rcases hcrowded _ hcrowd with hold | ⟨_, hne⟩
      · exact absurd hold (hfill.not_crowded (by omega))
      · exact absurd hlane hne

theorem Paid.skip (h : Paid mine top t) (hq : ¬ mine q) (hfill : t.FilledTo top) :
    Paid (fun x => mine x ∨ x = q) (top + 1) t := by
  obtain ⟨payers, hpayers, hrows, _⟩ := h.grow hq
  exact ⟨payers, hpayers, by omega, fun hcrowd => absurd hcrowd (hfill.not_crowded (by omega))⟩

end BpfLanes
