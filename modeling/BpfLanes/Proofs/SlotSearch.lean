import BpfLanes.Placement
import BpfLanes.Proofs.Access

/-! # Finding a free slot

The slot that is found for an instruction is free, stands after the rows of the
blocks before, and after every instruction that it depends on. In the row right
after such an instruction it stands in the lane of that instruction.
-/

namespace BpfLanes

open Compilation

variable {g : Digraph} {lane row row' : Int} {fuel : Nat} {x : Option Nat} {pl : Place} {t : Table}

/-! ## Slots of a table -/

/-- What is in a slot, if the table has it. -/
def Table.entry (t : Table) (row lane : Int) : Option (Option Nat) :=
  if 0 ≤ row ∧ 0 ≤ lane then t[row.toNat]?.bind fun r => r[lane.toNat]? else none

theorem Table.entry_eq_some_iff : Table.entry t row lane = some x ↔
      0 ≤ row ∧ 0 ≤ lane ∧ ∃ r, t[row.toNat]? = some r ∧ r[lane.toNat]? = some x := by
  unfold Table.entry
  split
  · next h => simp [h.1, h.2, Option.bind_eq_some_iff]
  · next h =>
    constructor
    · intro hx
      cases hx
    · rintro ⟨h₁, h₂, _⟩
      exact absurd ⟨h₁, h₂⟩ h

theorem Table.entry_of_get (hrow : 0 ≤ row) (hlane : 0 ≤ lane) {r : Array (Option Nat)}
    (hr : Position.get t row = .ok r) (hx : Position.get r lane = .ok x) :
    Table.entry t row lane = some x := by
  rw [Position.get_of_nonneg hrow] at hr
  rw [Position.get_of_nonneg hlane] at hx
  exact Table.entry_eq_some_iff.mpr ⟨hrow, hlane, r, hr, hx⟩

theorem runs_setSlot_entry {c d : Compilation} {id : Nat} {u : Unit} (hrow : 0 ≤ row)
    (hlane : 0 ≤ lane) (h : Runs (setSlot row lane id) c u d) :
    (Table.entry c.table row lane).isSome = true ∧ d = { c with table := d.table } ∧
      ∀ r l, Table.entry d.table r l =
        if r = row ∧ l = lane then some (some id) else Table.entry c.table r l := by
  obtain ⟨r, r', table, hr, hr', htable, rfl⟩ := runs_setSlot.mp h
  rw [Position.get_of_nonneg hrow] at hr
  obtain ⟨hlane', rfl⟩ := (Position.set_of_nonneg hlane).mp hr'
  obtain ⟨hrow', rfl⟩ := (Position.set_of_nonneg hrow).mp htable
  refine ⟨?_, rfl, ?_⟩
  · unfold Table.entry
    rw [if_pos ⟨hrow, hlane⟩, hr]
    simp [hlane']
  · intro r₁ l₁
    unfold Table.entry
    by_cases hin : 0 ≤ r₁ ∧ 0 ≤ l₁
    · rw [if_pos hin, if_pos hin, Array.getElem?_setIfInBounds]
      by_cases hr₁ : r₁ = row
      · subst hr₁
        by_cases hl₁ : l₁ = lane
        · subst hl₁
          simp [hrow', hlane']
        · have hne : lane.toNat ≠ l₁.toNat := by omega
          rw [if_pos rfl, if_pos hrow', if_neg (fun h => hl₁ h.2), hr]
          show (r.setIfInBounds lane.toNat (some id))[l₁.toNat]? = r[l₁.toNat]?
          rw [Array.getElem?_setIfInBounds, if_neg hne]
      · have hne : row.toNat ≠ r₁.toNat := by omega
        simp [hne, hr₁]
    · rw [if_neg hin, if_neg hin, if_neg (by omega)]

namespace Placement

variable {w w' : Wait} {s : Slot} {lanes r b p lastRow n first maxRow : Int} {blk : Block}
  {registers above : List Int} {c d : Compilation} {source : Option Int} {forward isBranch : Bool}

/-- The slot is empty. -/
def Slot.Free (t : Table) (s : Slot) : Prop :=
  Table.entry t s.row s.lane = some none

theorem Slot.Free.row_nonneg (h : s.Free t) : 0 ≤ s.row :=
  (Table.entry_eq_some_iff.mp h).1

theorem Slot.Free.lane_nonneg (h : s.Free t) : 0 ≤ s.lane :=
  (Table.entry_eq_some_iff.mp h).2.1

/-! ## Searching rows -/

theorem firstOpen_ge (h : firstOpen t lanes fuel row = .ok r) : row ≤ r := by
  induction fuel generalizing row with
  | zero => cases h
  | succ fuel ih =>
    obtain ⟨cells, _, h⟩ := bind_eq_ok.mp h
    split at h
    · have := ih h
      omega
    · cases h
      exact Int.le_refl _

theorem firstFreeIn_spec (hlane : 0 ≤ lane) (hrow : 0 ≤ row)
    (h : firstFreeIn t lane fuel row = .ok r) : row ≤ r ∧ Slot.Free t { lane, row := r } := by
  induction fuel generalizing row with
  | zero => cases h
  | succ fuel ih =>
    obtain ⟨cells, hcells, h⟩ := bind_eq_ok.mp h
    obtain ⟨x, hx, h⟩ := bind_eq_ok.mp h
    cases x with
    | none =>
      cases h
      exact ⟨Int.le_refl _, Table.entry_of_get hrow hlane hcells hx⟩
    | some id =>
      obtain ⟨hle, hfree⟩ := ih (by omega) h
      exact ⟨by omega, hfree⟩

theorem freeLane?_spec {row : Array (Option Nat)} {lanes : List Int}
    (h : freeLane? row lanes = .ok (some lane)) :
    lane ∈ lanes ∧ Position.get row lane = .ok none := by
  induction lanes with
  | nil => cases h
  | cons l lanes ih =>
    obtain ⟨x, hx, h⟩ := bind_eq_ok.mp h
    cases x with
    | none =>
      cases h
      exact ⟨List.mem_cons_self, hx⟩
    | some id =>
      obtain ⟨hmem, hfree⟩ := ih h
      exact ⟨List.mem_cons_of_mem _ hmem, hfree⟩

theorem nonneg_of_mem_lanesOf (h : lane ∈ lanesOf lanes) : 0 ≤ lane := by
  obtain ⟨l, _, rfl⟩ := List.mem_map.mp h
  omega

theorem forwarded_induct {P : Slot → Prop} {r : Slot} (hrow : 0 ≤ s.row) (hlane : 0 ≤ s.lane)
    (h : forwarded t lanes fuel s = .ok r) (hend : r.Free t → P r)
    (hdown : ∀ s next lane, ¬ s.Free t → Position.get t (s.row + 1) = .ok next →
      freeLane? next (lanesOf lanes) = .ok lane →
      P { lane := lane.getD (if 0 < lanes then lanes - 1 else s.lane), row := s.row + 1 } → P s) :
    P s := by
  induction fuel generalizing s with
  | zero => cases h
  | succ fuel ih =>
    obtain ⟨cells, hcells, h⟩ := bind_eq_ok.mp h
    obtain ⟨x, hx, h⟩ := bind_eq_ok.mp h
    have hentry := Table.entry_of_get hrow hlane hcells hx
    cases x with
    | none =>
      cases h
      exact hend hentry
    | some id =>
      obtain ⟨next, hnext, h⟩ := bind_eq_ok.mp h
      obtain ⟨lane, hfound, h⟩ := bind_eq_ok.mp h
      refine hdown s next lane (fun hfree => ?_) hnext hfound (ih ?_ ?_ h)
      · cases hentry.symm.trans hfree
      · show 0 ≤ s.row + 1
        omega
      · cases lane with
        | some l => exact nonneg_of_mem_lanesOf (freeLane?_spec hfound).1
        | none =>
          show 0 ≤ if 0 < lanes then lanes - 1 else s.lane
          split <;> omega

theorem forwarded_spec {r : Slot} (hrow : 0 ≤ s.row) (hlane : 0 ≤ s.lane)
    (h : forwarded t lanes fuel s = .ok r) :
    s.row ≤ r.row ∧ r.Free t ∧ (r.row = s.row → r.lane = s.lane) := by
  refine forwarded_induct (P := fun s => s.row ≤ r.row ∧ r.Free t ∧ (r.row = s.row → r.lane = s.lane))
    hrow hlane h (fun hfree => ⟨Int.le_refl _, hfree, fun _ => rfl⟩) ?_
  rintro s _ _ - - - ⟨hle, hfree, -⟩
  have hlt : s.row + 1 ≤ r.row := hle
  exact ⟨by omega, hfree, by omega⟩

theorem anyLane_spec {r : Slot} (hrow : 0 ≤ row) (h : anyLane t lanes row = .ok r) :
    r.row = row ∧ r.Free t := by
  obtain ⟨cells, hcells, h⟩ := bind_eq_ok.mp h
  obtain ⟨x, hx, h⟩ := bind_eq_ok.mp h
  cases x with
  | none =>
    cases h
    exact ⟨rfl, Table.entry_of_get hrow (Int.le_refl _) hcells hx⟩
  | some id =>
    obtain ⟨lane, hfree, h⟩ := bind_eq_ok.mp h
    cases lane with
    | none => cases h
    | some lane =>
      cases h
      obtain ⟨hmem, hlane⟩ := freeLane?_spec hfree
      exact ⟨rfl, Table.entry_of_get hrow (nonneg_of_mem_lanesOf hmem) hcells hlane⟩

/-! ## Waiting -/

theorem looks_writerIn {register : Int} : Looks (LastUse.writerIn blk register) :=
  fun _ => keeps_bind keeps_body fun _ => keeps_pure _

theorem looks_definitionIn : Looks (LastUse.definitionIn blk registers) := by
  intro s
  induction registers with
  | nil => exact keeps_pure _
  | cons r rest ih =>
    refine keeps_ite (keeps_bind (looks_writerIn s) fun i => ?_) ih
    cases i with
    | none => exact ih
    | some i => exact keeps_pure _

theorem looks_definitionBefore {b : Nat} : Looks (LastUse.definitionBefore registers b) := by
  intro s
  induction b with
  | zero => exact keeps_pure _
  | succ b ih =>
    refine keeps_bind keeps_block fun blk => keeps_bind (looks_definitionIn s) fun i => ?_
    cases i with
    | none => exact ih
    | some i => exact keeps_pure _

theorem looks_definition : Looks (LastUse.definition registers b) := by
  intro s
  exact keeps_ite (keeps_pure _) (looks_definitionBefore s)

/-- Instruction `p` of a block stands for position `q` and has the place `pl`. -/
def PlaceAt (c : Compilation) (blk : Block) (p : Int) (q : Option Int) (pl : Place) : Prop :=
  ∃ id i, Position.get blk.body p = .ok id ∧ c.store[id]? = some i ∧ i.position = q ∧
    ∃ k, q = some k ∧ Position.get c.schedule k = .ok pl

/-- The instructions in `above` are waited for: they stand in rows up to that of `w`,
    and one in that row is the source of `w`. -/
def Wait.Covers (c : Compilation) (blk : Block) (above : List Int) (w : Wait) : Prop :=
  ∀ p ∈ above, p ≠ -1 → ∀ q pl, PlaceAt c blk p q pl →
    pl.time ≤ w.row ∧ (pl.time = w.row → w.source = q)

theorem PlaceAt.unique {q q' : Option Int} {pl' : Place} (h : PlaceAt c blk p q pl)
    (h' : PlaceAt c blk p q' pl') : q = q' ∧ pl = pl' := by
  obtain ⟨id, i, hid, hi, rfl, k, hk, hpl⟩ := h
  obtain ⟨id', i', hid', hi', rfl, k', hk', hpl'⟩ := h'
  rw [hid] at hid'
  cases hid'
  rw [hi] at hi'
  cases hi'
  rw [hk] at hk'
  cases hk'
  rw [hpl] at hpl'
  cases hpl'
  exact ⟨rfl, rfl⟩

/-- Waiting for one more instruction `p`: for a value from before the block, or for an
    instruction in a later row, in the same row, or in an earlier row than the one that is
    waited for so far. -/
inductive Awaits (c : Compilation) (b : Int) (blk : Block) (lastRow : Int) (w : Wait) (p : Int) :
    Wait → Prop where
  | entry {registers : List Int} {source : Option Int} (hp : p = -1)
    (hsource : Runs (LastUse.definition registers b) c source c) :
    Awaits c b blk lastRow w p { row := lastRow, source }
  | later {q : Option Int} {pl : Place} (hp : p ≠ -1) (hplace : PlaceAt c blk p q pl)
    (hrow : w.row < pl.time) : Awaits c b blk lastRow w p { row := pl.time, source := q }
  | level {q : Option Int} {pl : Place} (hp : p ≠ -1) (hplace : PlaceAt c blk p q pl)
    (hrow : pl.time = w.row) : Awaits c b blk lastRow w p { row := pl.time + 1, source := q }
  | earlier {q : Option Int} {pl : Place} (hp : p ≠ -1) (hplace : PlaceAt c blk p q pl)
    (hrow : pl.time < w.row) : Awaits c b blk lastRow w p w

theorem runs_await {i : Instr} (h : Runs (await b blk i lastRow w p) c w' d) :
    d = c ∧ Awaits c b blk lastRow w p w' ∧
      (p = -1 → Runs (LastUse.definition (i.inputs.map Operand.register) b) c w'.source c) := by
  unfold await at h
  by_cases hp : p = -1
  · rw [if_pos (by simpa using hp)] at h
    obtain ⟨source, c', hr, hret⟩ := runs_bind.mp h
    obtain rfl := looks_definition.eq hr
    obtain ⟨rfl, rfl⟩ := runs_pure.mp hret
    exact ⟨rfl, .entry hp hr, fun _ => hr⟩
  · have hinside : d = c ∧ Awaits c b blk lastRow w p w' := by
      rw [if_neg (by simpa using hp), runs_instrAt_bind] at h
      obtain ⟨id, j, hid, hj, h⟩ := h
      rw [runs_placeOf_bind] at h
      obtain ⟨q, pl, hq, hpl, h⟩ := h
      have hplace : PlaceAt c blk p j.position pl := ⟨id, j, hid, hj, rfl, q, hq, hpl⟩
      split at h
      · next hge =>
        obtain ⟨rfl, rfl⟩ := runs_pure.mp h
        refine ⟨rfl, ?_⟩
        by_cases heq : pl.time = w.row
        · rw [if_pos (by simpa using heq)]
          exact .level hp hplace heq
        · rw [if_neg (by simpa using heq), Int.add_zero]
          exact .later hp hplace (by omega)
      · next hlt =>
        obtain ⟨rfl, rfl⟩ := runs_pure.mp h
        exact ⟨rfl, .earlier hp hplace (by omega)⟩
    exact ⟨hinside.1, hinside.2, fun hentry => absurd hentry hp⟩

theorem Awaits.covers (hfirst : p = -1 → ∀ q ∈ above, q = -1) (hle : lastRow ≤ w.row)
    (hw : w.Covers c blk above) (h : Awaits c b blk lastRow w p w') :
    lastRow ≤ w'.row ∧ w'.Covers c blk (above ++ [p]) := by
  have hcases : ∀ {p'}, p' ∈ above ++ [p] → p' ∈ above ∨ p' = p := by
    intro p' hp'
    simpa using hp'
  cases h with
  | entry hp hsource =>
    refine ⟨Int.le_refl _, ?_⟩
    intro p' hp' hne
    rcases hcases hp' with hmem | rfl
    · exact absurd (hfirst hp p' hmem) hne
    · exact absurd hp hne
  | later hp hplace hrow =>
    refine ⟨by dsimp only; omega, ?_⟩
    intro p' hp' hne q' pl' hplace'
    dsimp only
    rcases hcases hp' with hmem | rfl
    · obtain ⟨hle', _⟩ := hw p' hmem hne q' pl' hplace'
      omega
    · obtain ⟨rfl, rfl⟩ := hplace.unique hplace'
      exact ⟨Int.le_refl _, fun _ => rfl⟩
  | level hp hplace hrow =>
    -- no instruction in the row of `p` is forwarded any longer
    refine ⟨by dsimp only; omega, ?_⟩
    intro p' hp' hne q' pl' hplace'
    dsimp only
    rcases hcases hp' with hmem | rfl
    · obtain ⟨hle', _⟩ := hw p' hmem hne q' pl' hplace'
      omega
    · obtain ⟨rfl, rfl⟩ := hplace.unique hplace'
      omega
  | earlier hp hplace hrow =>
    refine ⟨hle, ?_⟩
    intro p' hp' hne q' pl' hplace'
    rcases hcases hp' with hmem | rfl
    · exact hw p' hmem hne q' pl' hplace'
    · obtain ⟨rfl, rfl⟩ := hplace.unique hplace'
      omega

theorem awaitAll_spec (hfirst : above.Pairwise fun p q => q = -1 → p = -1)
    (h : Runs (awaitAll b blk lastRow n above) c w d) :
    d = c ∧ lastRow ≤ w.row ∧ w.Covers c blk above := by
  have hall := runs_foldlM_induct
    (fun done w d => d = c ∧ lastRow ≤ w.row ∧ Wait.Covers c blk done w) h
    ⟨rfl, Int.le_refl _, fun p hp => by simp at hp⟩ ?_
  · exact hall
  rintro done p rest w d w' e hsplit ⟨rfl, hle, hw⟩ hr
  rw [runs_instrAt_bind] at hr
  obtain ⟨id, i, _, _, hr⟩ := hr
  obtain ⟨rfl, hawaits, _⟩ := runs_await hr
  refine ⟨rfl, hawaits.covers ?_ hle hw⟩
  intro hneg q hq
  rw [hsplit] at hfirst
  exact (List.pairwise_append.mp hfirst).2.2 q hq p (by simp) hneg

/-! ## The slot that is found -/

/-- No instruction stands in a lane before the first one. -/
def LanesNonneg (c : Compilation) : Prop :=
  ∀ (p : Int) (pl : Place) (lane : Int), Position.get c.schedule p = .ok pl →
    pl.lane = some lane → 0 ≤ lane

theorem runs_isForwarded (h : Runs (isForwarded b row source) c forward d) :
    d = c ∧ if forward then ∃ p pl b', source = some p ∧ Position.get c.schedule p = .ok pl ∧
        row = pl.time + 1 ∧ pl.block = some b' ∧ b' ≤ b
      else ∀ p pl b', source = some p → Position.get c.schedule p = .ok pl → 0 < row →
        row = pl.time + 1 → pl.block = some b' → b < b' := by
  cases source with
  | none =>
    obtain ⟨rfl, rfl⟩ := runs_pure.mp h
    exact ⟨rfl, nofun⟩
  | some p =>
    unfold isForwarded at h
    dsimp only at h
    by_cases hrow : 0 < row
    · rw [if_pos hrow, runs_placeOf_bind] at h
      obtain ⟨_, pl, hq, hpl, h⟩ := h
      cases hq
      by_cases htime : row = pl.time + 1
      · rw [if_pos (by simpa using htime), runs_lift_bind] at h
        obtain ⟨b', hb', h⟩ := h
        obtain ⟨rfl, rfl⟩ := runs_pure.mp h
        refine ⟨rfl, ?_⟩
        split
        · next hle => exact ⟨p, pl, b', rfl, hpl, htime, need_eq_ok_iff.mp hb', by simpa using hle⟩
        · next hlt =>
          rintro _ _ _ ⟨⟩ hpl' - - hb''
          cases hpl.symm.trans hpl'
          cases (need_eq_ok_iff.mp hb').symm.trans hb''
          simpa using hlt
      · rw [if_neg (by simpa using htime)] at h
        obtain ⟨rfl, rfl⟩ := runs_pure.mp h
        refine ⟨rfl, ?_⟩
        rintro _ _ _ ⟨⟩ hpl' - htime'
        cases hpl.symm.trans hpl'
        exact absurd htime' htime
    · rw [if_neg hrow] at h
      obtain ⟨rfl, rfl⟩ := runs_pure.mp h
      exact ⟨rfl, fun _ _ _ _ _ hpos => absurd hpos hrow⟩

theorem isForwarded_time (h : Runs (isForwarded b row source) c true d) (hp : source = some p)
    (hpl : Position.get c.schedule p = .ok pl) : row = pl.time + 1 := by
  obtain ⟨-, _, _, _, hp', hpl', hrow, -⟩ := runs_isForwarded h
  cases hp.symm.trans hp'
  cases hpl.symm.trans hpl'
  exact hrow

theorem runs_branchRow (h : Runs (branchRow row source forward) c row' d) :
    d = c ∧ (row' = row ∧ (forward = true → ∀ p pl, source = some p →
        Position.get c.schedule p = .ok pl → pl.lane = some 0) ∨
      row' = row + 1 ∧ forward = true ∧ ∃ p pl, source = some p ∧
        Position.get c.schedule p = .ok pl ∧ pl.lane ≠ some 0) := by
  unfold branchRow at h
  split at h
  · next hf =>
    rw [runs_placeOf_bind] at h
    obtain ⟨p, pl, hp, hpl, h⟩ := h
    obtain ⟨rfl, rfl⟩ := runs_pure.mp h
    refine ⟨rfl, ?_⟩
    split
    · next hlane =>
      refine .inl ⟨rfl, fun _ p' pl' hp' hpl' => ?_⟩
      cases hp.symm.trans hp'
      cases hpl.symm.trans hpl'
      simpa using hlane
    · next hother => exact .inr ⟨rfl, hf, p, pl, hp, hpl, by simpa using hother⟩
  · next hf =>
    obtain ⟨rfl, rfl⟩ := runs_pure.mp h
    exact ⟨rfl, .inl ⟨rfl, fun ht => absurd ht hf⟩⟩

theorem le_branchRow (h : Runs (branchRow row source forward) c row' d) : row ≤ row' := by
  rcases (runs_branchRow h).2 with ⟨rfl, -⟩ | ⟨rfl, -⟩ <;> omega

/-- The result that is waited for is forwarded: a source in the row before the slot
    stands in its lane. Only a source before `row`, in this block or an earlier one,
    counts. -/
def Slot.Forwards (c : Compilation) (b row : Int) (source : Option Int) (s : Slot) : Prop :=
  ∀ p pl b', source = some p → Position.get c.schedule p = .ok pl → pl.block = some b' →
    b' ≤ b → 0 ≤ pl.time → pl.time < row → s.row = pl.time + 1 → pl.lane = some s.lane

/-- How a slot is chosen from row `first` on: a branch that is bound to the first lane
    takes the first free slot there, what follows its source goes into its lane, anything
    else into any lane. -/
inductive Chosen (c : Compilation) (source : Option Int) (isBranch : Bool) (first : Int)
    (forward : Bool) : Slot → Prop where
  | branch {row row' : Int} (hbound : c.target.branchAnyLane = false) (hbranch : isBranch = true)
    (hrow : Runs (branchRow first source forward) c row c)
    (hfree : firstFreeIn c.table 0 (rowsFrom c.table row) row = .ok row') :
    Chosen c source isBranch first forward { lane := 0, row := row' }
  | follow {p lane : Int} {pl : Place} {s : Slot}
    (hany : c.target.branchAnyLane = false → isBranch = false) (hforward : forward = true)
    (hp : source = some p) (hpl : Position.get c.schedule p = .ok pl) (hlane : pl.lane = some lane)
    (hfound : forwarded c.table c.target.lanes (rowsFrom c.table first) { lane, row := first } = .ok s) :
    Chosen c source isBranch first forward s
  | anywhere {s : Slot} (hany : c.target.branchAnyLane = false → isBranch = false)
    (hforward : forward = false)
    (hfound : anyLane c.table c.target.lanes first = .ok s) :
    Chosen c source isBranch first forward s

theorem runs_slotFrom (h : Runs (slotFrom b row source isBranch) c s d) :
    d = c ∧ ∃ first forward,
      firstOpen c.table c.target.lanes (rowsFrom c.table row) row = .ok first ∧
      Runs (isForwarded b first source) c forward c ∧
      Chosen c source isBranch first forward s := by
  unfold slotFrom at h
  rw [runs_get_bind, runs_lift_bind] at h
  obtain ⟨first, hfirst, h⟩ := h
  obtain ⟨forward, c', hforward, hslot⟩ := runs_bind.mp h
  obtain ⟨rfl, _⟩ := runs_isForwarded hforward
  split at hslot
  · next hbranch =>
    obtain ⟨row', c'', hrow, hslot⟩ := runs_bind.mp hslot
    obtain ⟨rfl, _⟩ := runs_branchRow hrow
    rw [runs_lift_bind] at hslot
    obtain ⟨row'', hfree, hslot⟩ := hslot
    obtain ⟨rfl, rfl⟩ := runs_pure.mp hslot
    rw [Bool.and_eq_true, Bool.not_eq_true'] at hbranch
    exact ⟨rfl, first, forward, hfirst, hforward, .branch hbranch.1 hbranch.2 hrow hfree⟩
  · next hfree =>
    have hany : c'.target.branchAnyLane = false → isBranch = false := by
      intro hbound
      simpa [hbound] using hfree
    split at hslot
    · next hf =>
      rw [runs_placeOf_bind] at hslot
      obtain ⟨p, pl, hp, hpl, hslot⟩ := hslot
      rw [runs_lift_bind] at hslot
      obtain ⟨lane, hlane, hslot⟩ := hslot
      obtain ⟨hfound, rfl⟩ := runs_lift.mp hslot
      exact ⟨rfl, first, forward, hfirst, hforward,
        .follow hany hf hp hpl (need_eq_ok_iff.mp hlane) hfound⟩
    · next hf =>
      obtain ⟨hfound, rfl⟩ := runs_lift.mp hslot
      exact ⟨rfl, first, forward, hfirst, hforward, .anywhere hany (by simpa using hf) hfound⟩

theorem Chosen.runs (h : Chosen c source isBranch first forward s)
    (hfirst : firstOpen c.table c.target.lanes (rowsFrom c.table row) row = .ok first)
    (hforward : Runs (isForwarded b first source) c forward c) :
    Runs (slotFrom b row source isBranch) c s c := by
  refine runs_get_bind.mpr (runs_lift_bind.mpr ⟨first, hfirst, runs_bind.mpr ⟨_, _, hforward, ?_⟩⟩)
  cases h with
  | branch hbound hbranch hrow hfree =>
    rw [if_pos (by rw [hbound, hbranch]; rfl)]
    exact runs_bind.mpr ⟨_, _, hrow, runs_lift_bind.mpr ⟨_, hfree, rfl⟩⟩
  | follow hany hf hp hpl hlane hfound =>
    rw [if_neg (by simpa using hany), if_pos hf]
    refine runs_placeOf_bind.mpr ⟨_, _, hp, hpl, ?_⟩
    exact runs_lift_bind.mpr ⟨_, need_eq_ok_iff.mpr hlane, runs_lift.mpr ⟨hfound, rfl⟩⟩
  | anywhere hany hf hfound =>
    rw [if_neg (by simpa using hany), if_neg (by simpa using hf)]
    exact runs_lift.mpr ⟨hfound, rfl⟩

theorem fails_slotFrom (hany : c.target.branchAnyLane = false → isBranch = false)
    (hfirst : firstOpen c.table c.target.lanes (rowsFrom c.table row) row = .ok first)
    (hforward : Runs (isForwarded b first source) c true c) (hp : source = some p)
    (hpl : Position.get c.schedule p = .ok pl) (hlane : pl.lane = none) :
    Fails (slotFrom b row source isBranch) c .missingNumber c := by
  refine fails_bind.mpr (.inr ⟨_, _, runs_get.mpr ⟨rfl, rfl⟩, ?_⟩)
  refine fails_bind.mpr (.inr ⟨first, c, runs_lift.mpr ⟨hfirst, rfl⟩, ?_⟩)
  refine fails_bind.mpr (.inr ⟨_, _, hforward, ?_⟩)
  rw [if_neg (by simpa using hany)]
  refine fails_bind.mpr (.inr ⟨pl, c, runs_placeOf.mpr ⟨p, hp, hpl, rfl⟩, ?_⟩)
  rw [hlane]
  rfl

theorem Chosen.spec (hfirst : 0 ≤ first) (hlanes : LanesNonneg c)
    (h : Chosen c source isBranch first forward s) :
    first ≤ s.row ∧ s.Free c.table ∧ (forward = true → s.row = first → ∀ p pl, source = some p →
      Position.get c.schedule p = .ok pl → pl.lane = some s.lane) := by
  cases h with
  | @branch _ row' _ _ hbr hfree =>
    have hle := le_branchRow hbr
    obtain ⟨hle', hfree⟩ := firstFreeIn_spec (Int.le_refl _) (by omega) hfree
    refine ⟨by show first ≤ row'; omega, hfree, fun hf heq p pl hp hpl => ?_⟩
    replace heq : row' = first := heq
    rcases (runs_branchRow hbr).2 with ⟨-, hlane⟩ | ⟨hdown, -⟩
    · exact hlane hf p pl hp hpl
    · omega
  | follow _ _ hp hpl hlane hfound =>
    obtain ⟨hle, hfree, hsame⟩ := forwarded_spec hfirst (hlanes _ _ _ hpl hlane) hfound
    refine ⟨hle, hfree, fun _ heq p' pl' hp' hpl' => ?_⟩
    cases hp.symm.trans hp'
    cases hpl.symm.trans hpl'
    rw [hlane, hsame heq]
  | anywhere _ hf hfound =>
    obtain ⟨heq, hfree⟩ := anyLane_spec hfirst hfound
    exact ⟨by omega, hfree, fun htrue => by cases hf.symm.trans htrue⟩

theorem slotFrom_spec (hrow : 0 ≤ row) (hlanes : LanesNonneg c)
    (h : Runs (slotFrom b row source isBranch) c s d) :
    d = c ∧ row ≤ s.row ∧ s.Free c.table ∧ s.Forwards c b row source := by
  obtain ⟨rfl, first, forward, hfirst, hfw, hchosen⟩ := runs_slotFrom h
  have hge := firstOpen_ge hfirst
  obtain ⟨hle, hfree, hlane⟩ := hchosen.spec (by omega) hlanes
  refine ⟨rfl, by omega, hfree, ?_⟩
  intro p pl b' hp hpl hb' hble htime hlt heq
  refine hlane ?_ (by omega) p pl hp hpl
  -- a source in the row before the first open one has its result forwarded
  cases forward with
  | true => rfl
  | false =>
    have := (runs_isForwarded hfw).2 p pl b' hp hpl (by omega) (by omega) hb'
    omega

/-- The slot that is found: free, after the rows before the block, and after every
    instruction `p` that is depended on, in its lane if it comes right after it. -/
structure Slot.Found (c : Compilation) (b : Int) (blk : Block) (above : List Int) (lastRow : Int)
    (s : Slot) : Prop where
  free : s.Free c.table
  after : lastRow < s.row
  waits : ∀ p ∈ above, p ≠ -1 → ∀ q pl, PlaceAt c blk p q pl → pl.time < s.row ∧
    (s.row = pl.time + 1 → 0 ≤ pl.time → pl.block = some b → pl.lane = some s.lane)

section
variable {b : Nat} (hb : c.blocks[b]? = some blk)
  (hfirst : (g.before n).Pairwise fun p q => q = -1 → p = -1) (h : Runs (find b g lastRow maxRow n) c s d)
include hb hfirst h

theorem runs_find :
    ∃ w id i f, Runs (awaitAll b blk lastRow n (g.before n)) c w c ∧
      (Position.get blk.body n = .ok id ∧ c.store[id]? = some i) ∧ Fields.decode i.word = .ok f ∧
      Runs (slotFrom b ((if f.isBranch then max w.row (maxRow - 1) else w.row) + 1) w.source
        f.isBranch) c s d := by
  unfold find at h
  rw [runs_block_bind] at h
  obtain ⟨blk', hblk', h⟩ := h
  obtain rfl := Option.mem_unique hb (Position.get_natCast.mp hblk')
  rw [runs_lift_bind] at h
  obtain ⟨above, habove, h⟩ := h
  have hbefore : above = g.before n := by
    unfold Digraph.predecessors at habove
    split at habove
    · exact (Except.ok.inj habove).symm
    · cases habove
  subst hbefore
  obtain ⟨w, c', hw, hslot⟩ := runs_bind.mp h
  obtain rfl := (awaitAll_spec hfirst hw).1
  rw [runs_instrAt_bind] at hslot
  obtain ⟨id, i, hid, hi, hslot⟩ := hslot
  rw [runs_fieldsOf_bind] at hslot
  obtain ⟨f, hf, hslot⟩ := hslot
  exact ⟨w, id, i, f, hw, ⟨hid, hi⟩, hf, hslot⟩

theorem find_spec (hlast : -1 ≤ lastRow) (hlanes : LanesNonneg c) :
    d = c ∧ s.Found c b blk (g.before n) lastRow := by
  obtain ⟨w, id, i, f, hw, _, _, hslot⟩ := runs_find hb hfirst h
  obtain ⟨_, hle, hcovers⟩ := awaitAll_spec hfirst hw
  obtain ⟨rfl, hge, hfree, hforwards⟩ := slotFrom_spec (by split <;> omega) hlanes hslot
  refine ⟨rfl, hfree, by omega, ?_⟩
  intro p hp hne q pl hplace
  obtain ⟨htime, hsource⟩ := hcovers p hp hne q pl hplace
  refine ⟨by omega, ?_⟩
  intro heq hpos hblock
  obtain ⟨_, _, _, _, _, k, hk, hpl⟩ := hplace
  exact hforwards k pl b ((hsource (by omega)).trans hk) hpl hblock (Int.le_refl _) hpos
    (by split <;> omega) heq

end

end Placement
end BpfLanes
