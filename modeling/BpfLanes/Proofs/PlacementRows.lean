import BpfLanes.Proofs.ListSchedule
import BpfLanes.Proofs.RowReach

/-! # The rows that placements reach

While a block is placed, no value on record ends behind the last row that is used: its
last use was placed, and so stands in one of these rows. Hence an instruction that is
put off, until a value is no longer needed, is not put off behind that row either. So
all searches for a slot are of the same kind, and the slot that is found is close to
the last row.
-/

namespace BpfLanes

open Compilation BpfLanes.Flow Placement

variable {f : Fields} {i : Instr} {lastRow old register row stop : Int} {id k : Nat}
  {user : Option Int} {Q : Instr → Prop} {words : Array Word} {c c₀ d e x : Compilation} {b : Nat}
  {blk : Block} {g : Digraph} {order done rest : List Int} {r r' : Reach} {s₀ s s' : Slot}
  {top n : Int}

/-! ## Branches -/

theorem Fields.output?_of_isBranch (h : f.isBranch = true) : f.output? = none := by
  unfold Fields.isBranch at h
  unfold Fields.output? Opcode.writesNothing
  rw [if_pos]
  simp only [List.contains_eq_mem, decide_eq_true_eq] at h ⊢
  exact List.mem_append_left _ h

theorem Fields.inputs_of_isCall (h : f.isCall = true) : f.inputs = [] := by
  have hop : f.opcode = Opcode.call := by simpa [Fields.isCall] using h
  unfold Fields.inputs Fields.isExit
  rw [hop, if_neg (by decide), if_neg (by decide), if_neg (by decide), if_neg (by decide)]

theorem Fields.not_isNop_of_isBranch (h : f.isBranch = true) : f.isNop = false := by
  by_contra hnop
  have hop : f.opcode = Opcode.nop := by simpa [Fields.isNop] using hnop
  unfold Fields.isBranch at h
  rw [hop] at h
  exact absurd h (by decide)

namespace Schedule

section
variable (hc : Laid Q words c) (ho : Opened c c₀ b blk g lastRow order)
  (hd : Partly c₀ b blk g lastRow order done r d) (hf : FieldsAt c blk k f)
  (hbranch : f.isBranch = true)
include hc ho hd hf hbranch

theorem Opened.silent (hi : InstrAt d blk k id i) : i.output = none := by
  obtain ⟨id₀, i₀, ⟨hid, hi₀⟩, hf₀⟩ := hf
  obtain rfl := Except.ok.inj (hid.symm.trans hi.1)
  rw [Position.get_natCast] at hid
  obtain ⟨i₁, hi₁, hstands, -⟩ := (hc.holds b blk ho.block ho.basic).instr k _ hid
  obtain rfl := Option.mem_unique hi₀ hi₁
  obtain ⟨f₁, hf₁, -, hout⟩ := hstands.operands
  obtain rfl := Except.ok.inj (hf₀.symm.trans hf₁)
  rw [Fields.output?_of_isBranch hbranch, ite_self, Option.map_eq_none_iff] at hout
  obtain ⟨j, hj, hop⟩ := hd.store.operation _ i₀
    ((ho.same _ (Array.mem_of_getElem? hid)).trans hi₀)
  obtain rfl := Option.mem_unique hj hi.2
  exact hop.silent hout

/-- A branch writes nothing, so it keeps the slot that is found first. -/
theorem Opened.keeps_slot (h : Inserted d e b blk g lastRow r r' k id x s₀ s) : s = s₀ := by
  obtain ⟨id', i, hi, ⟨hsame, _⟩ | ⟨o, _, _, _, hwrites, _⟩⟩ := runs_placeOutput h.output
  · exact hsame
  · rw [ho.silent hc hd hf hbranch hi] at hwrites
    cases hwrites

end
end Schedule

/-! ## The rows where values end -/

namespace LiveRanges

/-- The last use of a range is known to satisfy `T` at the row where the range ends. -/
def Ends (T : Option Int → Int → Prop) (rs : LiveRanges) : Prop :=
  ∀ x ∈ rs, ∀ row, x.endRow = some row → T x.lastUse row

/-- No value on record ends behind row `top`. -/
def EndsBy (top : Int) (rs : LiveRanges) : Prop :=
  rs.Ends fun _ row => row ≤ top

section
variable {rs rs' : LiveRanges} {T T' : Option Int → Int → Prop} (h : rs.Ends T)
include h

theorem Ends.modifyFirst {p : LiveRange → Bool} {f : LiveRange → LiveRange}
    (hf : ∀ y ∈ rs, rs.find? p = some y → ∀ row, (f y).endRow = some row → T (f y).lastUse row) :
    Ends T (modifyFirst p f rs) := by
  intro x hx row hrow
  rcases mem_modifyFirst hx with hx | ⟨y, hy, rfl⟩
  · exact h x hx row hrow
  · exact hf y (List.mem_of_find?_eq_some hy) hy row hrow

theorem Ends.rename {new definedBy : Int} : (rs.rename old new definedBy row).Ends T :=
  h.modifyFirst fun y hy _ => h y hy

theorem Ends.append {d : LiveRange} (hd : ∀ row, d.endRow = some row → T d.lastUse row) :
    Ends T (rs ++ [d]) :=
  List.forall_mem_append.mpr ⟨h, List.forall_mem_singleton.mpr hd⟩

theorem Ends.define {d : LiveRange} (hd : ∀ last row, d.endRow = some row → T last row) :
    (rs.define d).Ends T := by
  unfold LiveRanges.define
  dsimp only
  split
  · exact h.modifyFirst fun y _ _ => hd _
  · exact h.append (hd _)

theorem Ends.readOne (hrow : T user row) : (rs.readOne register row user).Ends T := by
  unfold LiveRanges.readOne
  split
  · next r hr =>
    split
    · next hlast =>
      apply h.modifyFirst
      intro y _ hy row' hrow'
      obtain rfl := Option.mem_unique hr hy
      simp only [Bool.and_eq_true, beq_iff_eq] at hlast
      cases hrow'
      exact hlast.1 ▸ hrow
    · exact h
  · exact h

theorem Ends.read {registers : List Int} (hrow : T user row) :
    (rs.read registers row user).Ends T := by
  induction registers generalizing rs with
  | nil => exact h
  | cons register rest ih => exact ih (h.readOne hrow)

theorem Ends.mono (hle : ∀ last row, T last row → T' last row) : rs.Ends T' :=
  fun x hx row hrow => hle _ _ (h x hx row hrow)

theorem Ends.leaveBlock (hrs : rs.leaveBlock stop = .ok rs') : rs'.Ends T := by
  intro x hx
  exact h x (mem_leaveBlock hrs hx).1

end
end LiveRanges

namespace Schedule

/-! ## Slots that are given up -/

/-- The slot `s` is the one that was found first, or it was found later on, behind a row
    up to `top` that is behind the first slot. -/
def MovedTo (c : Compilation) (b : Nat) (blk : Block) (g : Digraph) (top n : Int) (s₀ s : Slot) :
    Prop :=
  s = s₀ ∨ ∃ e row, Renamed blk c e ∧ s₀.row < row ∧ row ≤ top ∧ Runs (find b g row top n) e s e

section
variable (hc : Tabled c) (hb : c.blocks[b]? = some blk) (hkind : blk.kind = .basic)
  (hends : c.ranges.EndsBy r.row) (hfill : c.table.FilledTo r.row) (hlast : -1 ≤ lastRow)
  (hfirst : (g.before k).Pairwise fun p q => q = -1 → p = -1)
include hc hb hkind hends hfill hlast hfirst

theorem runs_placeOutput_rows (hfind : Runs (find b g lastRow r.row k) c s c)
    (h : Runs (placeOutput b blk g r.row k s) c s' d) :
    d.ranges.EndsBy r.row ∧ MovedTo c b blk g r.row k s s' := by
  obtain ⟨_, _, z, _, hcleared, hcase⟩ :=
    cleared_of_placeOutput hc hb hkind hlast hfirst hfind h
  have hz : z.ranges.EndsBy r.row ∧ MovedTo c b blk g r.row k s s' := by
    rcases hcleared.attempted hc hb hkind with
      ⟨rfl, rfl⟩ | ⟨i, v, z, _, hv, hz, rfl, hy, hcase⟩
    · exact ⟨hends, .inl rfl⟩
    refine ⟨hz.ranges hends fun _ _ _ _ h => h.rename, ?_⟩
    rcases hcase with rfl | ⟨floor, hfloor, hlt, _, hagain⟩
    · exact .inl rfl
    · obtain ⟨o, _, _, hconflict⟩ := hv.needed
      have hmem := (LiveRanges.conflict_mem hconflict).1
      exact .inr ⟨_, floor, hy, hlt, hends v hmem floor hfloor, hagain⟩
  rcases hcase with ⟨rfl, _⟩ | ⟨_, _, pl, _, _, _, hplace, hrecord⟩
  · exact hz
  obtain ⟨_, _, _, _, _, _, _, rfl⟩ := runs_recordOutput hrecord
  refine ⟨hz.1.define ?_, hz.2⟩
  intro _ row hrow
  obtain ⟨q, _, hpl, _⟩ := runs_placeOf.mp hplace
  cases hlane : pl.lane with
  | none =>
    rw [hlane] at hrow
    cases hrow
  | some lane =>
    rw [hlane] at hrow
    cases hrow
    obtain ⟨id', hslot⟩ := hc.entry_of_get hpl hlane
    exact hfill _ _ _ hslot

theorem Inserted.rows {e : Compilation} (h : Inserted c d b blk g lastRow r r' k id e s s') :
    MovedTo c b blk g r.row k s s' ∧ d.ranges.EndsBy r'.row := by
  obtain ⟨hends', hmoved⟩ :=
    runs_placeOutput_rows hc hb hkind hends hfill hlast hfirst h.found h.output
  refine ⟨hmoved, ?_⟩
  -- all that happens to the ranges after that is that inputs are read
  obtain ⟨s₁, c₁, s₂, e', id', i', c₂, hfind, hout, _, hplace, hslot, _⟩ :=
    runs_placeInstr_parts h.run
  obtain ⟨rfl, rfl⟩ := h.found.unique hfind
  obtain ⟨rfl, rfl⟩ := h.output.unique hout
  obtain ⟨_, _, _, _, _, _, rfl⟩ := runs_setPlace.mp hplace
  obtain ⟨_, hrest, _⟩ :=
    runs_setSlot_entry h.slot.free.row_nonneg h.slot.free.lane_nonneg hslot
  have hrow := h.row
  rw [hrest]
  exact (hends'.mono fun _ _ h => by omega).read (by omega)

end

/-! ## Where an instruction lands -/

variable {rows : Int}

theorem find_lands (hc : Tabled c) (hb : c.blocks[b]? = some blk)
    (ht : Table.Sized rows c.target.lanes c.table) (hfill : c.table.FilledTo top)
    (hlast : -1 ≤ lastRow) (hfirst : (g.before n).Pairwise fun p q => q = -1 → p = -1)
    (h : Runs (find b g lastRow top n) c s d) :
    ∃ w f, Runs (awaitAll b blk lastRow n (g.before n)) c w c ∧ FieldsAt c blk n f ∧
      s.Lands c w.source f.isBranch top (max w.row top + 1) ∧ (f.isBranch = true → top ≤ s.row) := by
  obtain ⟨w, id, i, f, hw, hi, hf, hslot⟩ := runs_find hb hfirst h
  obtain ⟨_, hle, _⟩ := awaitAll_spec hfirst hw
  have hrow : 0 ≤ (if f.isBranch then max w.row (top - 1) else w.row) + 1 := by split <;> omega
  have hlands := slotFrom_lands hc ht hfill hrow hslot
  obtain ⟨_, hge, _⟩ := slotFrom_spec hrow hc.lanesNonneg hslot
  refine ⟨w, f, hw, ⟨id, i, hi, hf⟩, ?_, ?_⟩
  · have heq : max ((if f.isBranch then max w.row (top - 1) else w.row) + 1) (top + 1)
        = max w.row top + 1 := by
      split <;> omega
    rw [heq] at hlands
    exact hlands
  · intro hbranch
    rw [if_pos hbranch] at hge
    omega

/-! ## Rows in use -/

/-- How far a table of `rows` rows is filled when the rows in use reach as far as `r`: no
    instruction stands behind them, and no value ends there. Every instruction belongs to
    the block that it was parsed in, and has a lane or is where it was. -/
structure Stacked (rows : Int) (c : Compilation) (r : Reach) (d : Compilation) : Prop where
  sized : Table.Sized rows c.target.lanes d.table
  filled : d.table.FilledTo r.row
  ends : d.ranges.EndsBy r.row
  homes : ∀ q : Nat, d.schedule[q]?.map Place.block = c.schedule[q]?.map Place.block
  waiting : ∀ (q : Nat) (pl : Place), d.schedule[q]? = some pl → pl.lane = none →
    c.schedule[q]? = some pl

section
variable (hs : Stacked rows c r d)
include hs

section
variable (ho : Opened c c₀ b blk g lastRow order) (hd : Partly c₀ b blk g lastRow order done r d)
include ho hd

theorem Stacked.moved (h : Inserted d e b blk g lastRow r r' k id x s₀ s) :
    MovedTo d b blk g r.row k s₀ s ∧ e.ranges.EndsBy r'.row :=
  h.rows hd.tabled (ho.block_eq hd) ho.basic hs.ends hs.filled ho.last (ho.edges.entryFirst k)

theorem Stacked.step (horder : order = done ++ (k : Int) :: rest)
    (h : Runs (placeInstr b blk g lastRow r k) d r' e) : Stacked rows c r' e := by
  obtain ⟨_, x, s₀, s, hin⟩ := ho.inserted hd horder h
  have hput := hin.put
  have hren := hin.renamed
  constructor
  · apply hput.sized
    rw [hren.table]
    exact hs.sized
  · rw [hin.row]
    apply hput.filledTo
    rw [hren.table]
    exact hs.filled
  · exact (hs.moved ho hd hin).2
  · -- a place keeps its block when it is given a row and a lane
    intro q
    rw [hput.place, hren.schedule, ← hs.homes q]
    split
    · next heq =>
      subst heq
      rw [Option.map_map]
      rfl
    · rfl
  · -- the instruction has a lane now, and the others are as they were
    intro q pl hpl hlane
    rw [hput.place, hren.schedule] at hpl
    split at hpl
    · obtain ⟨_, _, rfl⟩ := Option.map_eq_some_iff.mp hpl
      cases hlane
    · exact hs.waiting q pl hpl hlane

end

theorem Stacked.setDrawings (drawings : Array Drawing) : Stacked rows c r { d with drawings } :=
  ⟨hs.sized, hs.filled, hs.ends, hs.homes, hs.waiting⟩

theorem Stacked.leaveBlock (hle : r.row ≤ r'.row) {ranges : LiveRanges}
    (hranges : d.ranges.leaveBlock stop = .ok ranges) : Stacked rows c r' { d with ranges } :=
  ⟨hs.sized, hs.filled.mono hle, (hs.ends.leaveBlock hranges).mono fun _ _ h => h.trans hle,
    hs.homes, hs.waiting⟩

theorem Stacked.home (hc : Laid Q words c) {q : Nat} (hq : Numbered c.blocks q id) :
    ∃ pl b', d.schedule[q]? = some pl ∧ pl.block = some b' := by
  obtain ⟨b', blk', k', hb', hkind', hk', rfl⟩ := hq
  have hplace := (hc.holds b' blk' hb' hkind').place k' (lt_size hk')
  have hhome := hs.homes (blk'.start.toNat + k')
  rw [hplace] at hhome
  obtain ⟨pl, hpl, hblock⟩ := Option.map_eq_some_iff.mp hhome
  exact ⟨pl, b', hpl, hblock⟩

theorem Stacked.schedule_size : d.schedule.size = c.schedule.size := by
  have hends : ∀ q : Nat, d.schedule.size ≤ q ↔ c.schedule.size ≤ q := by
    intro q
    rw [← Array.getElem?_eq_none_iff, ← Array.getElem?_eq_none_iff,
      ← Option.map_eq_none_iff (f := Place.block), hs.homes q, Option.map_eq_none_iff]
  have hle := hends c.schedule.size
  have hge := hends d.schedule.size
  omega

theorem Stacked.last_time (hc : Laid Q words c) {pl : Place}
    (hpl : Position.get d.schedule (-1) = .ok pl) (hlane : pl.lane = none) :
    (words.size : Int) ≤ pl.time + 1 := by
  have hat := hs.waiting _ pl (Position.get_last.mp hpl) hlane
  have htime := (hc.fresh _ pl hat).1
  have hsize := hs.schedule_size
  have hwords := hc.size
  omega

end

theorem stacked_start (hempty : NothingPlaced c) (ht : Table.Sized rows c.target.lanes c.table) :
    Stacked rows c r c where
  sized := ht
  filled := fun row lane id hs => absurd hs (hempty.vacant row lane id)
  ends := by
    rw [hempty.ranges]
    exact nofun
  homes := fun _ => rfl
  waiting := fun _ _ hpl _ => hpl

end Schedule
end BpfLanes
