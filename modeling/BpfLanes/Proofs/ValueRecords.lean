import BpfLanes.Proofs.RenamingRegisters
import BpfLanes.Proofs.RowSpans

/-! # Values on record

While a block is placed, the ranges on record say which value a register holds, which
instruction wrote it and which one uses it last. A value that is needed goes on record
when its instruction is placed; it ends in the row where its last use stands. So the
newest range of a register is that of the last instruction that writes it. In a block
that overwrites registers in place only, that range is used last by the instruction that
overwrites it: nothing is in the way, and no instruction is renamed or put off.
-/

namespace BpfLanes

open Compilation BpfLanes.Flow Dependence Placement

theorem Attempted.ranges_eq {s t : Compilation} {b k : Nat} {blk : Block} {g : Digraph} {row : Int}
    {used : List Int} (h : Attempted blk g k row used s t) (hs : Tabled s)
    (hb : s.blocks[b]? = some blk) (hkind : blk.kind = .basic)
    (hnew : ∀ v ∈ s.ranges, v.definedBy ≠ ((blk.start.toNat + k : Nat) : Int)) :
    t.ranges = s.ranges := by
  induction h with
  | unchanged => rfl
  | edited _ h => exact h.ranges
  | @recorded c id i old new p h hid hi hp ih =>
    -- the range to be renamed would be that of the instruction itself
    have hnum : Numbered c.blocks (blk.start.toNat + k) id := by
      rw [h.renamed.blocks]
      exact ⟨b, blk, k, hb, hkind, Position.get_natCast.mp hid, rfl⟩
    obtain ⟨i', hi', hpos⟩ := (h.renamed.tabled hs).instr _ _ hnum
    obtain rfl := Option.mem_unique hi hi'
    obtain rfl := Option.mem_unique hp hpos
    show c.ranges.rename old new _ row = s.ranges
    rw [ih, LiveRanges.rename_of_new hnew]

theorem PutAt.schedule_size {c d : Compilation} {n id : Nat} {s : Slot} (h : PutAt c n id s d) :
    d.schedule.size = c.schedule.size := by
  have hnone : ∀ p : Nat, d.schedule[p]? = none ↔ c.schedule[p]? = none := by
    intro p
    rw [h.place]
    split
    · next heq => simp [heq]
    · rfl
  have hend := hnone d.schedule.size
  have hend' := hnone c.schedule.size
  simp only [Array.getElem?_eq_none_iff] at hend hend'
  omega

namespace Schedule

variable {Q : Instr → Prop} {words : Array Word} {c c₀ d e y z : Compilation} {b k id : Nat}
  {blk : Block} {g : Digraph} {lastRow q : Int} {order done rest : List Int} {r r' : Reach}
  {s s₀ : Slot}

/-! ## Instructions that were placed -/

/-- The instructions in `done` of a block are in `e` what they are in `d`, and where, and no
    slot was cleared. -/
structure Settled (d e : Compilation) (blk : Block) (done : List Int) : Prop where
  instr : ∀ k : Nat, (k : Int) ∈ done → ∀ id i, InstrAt e blk k id i ↔ InstrAt d blk k id i
  place : ∀ k m : Nat, (k : Int) ∈ done → m ≤ k → placeIn e blk m = placeIn d blk m
  table : ∀ row lane id, Table.entry d.table row lane = some (some id) →
    Table.entry e.table row lane = some (some id)

theorem Settled.refl (d : Compilation) (blk : Block) (done : List Int) : Settled d d blk done :=
  ⟨fun _ _ _ _ => Iff.rfl, fun _ _ _ _ => rfl, fun _ _ _ h => h⟩

theorem Settled.trans (h : Settled d e blk done) (h' : Settled e y blk done) :
    Settled d y blk done where
  instr k hk id i := (h'.instr k hk id i).trans (h.instr k hk id i)
  place k m hk hle := (h'.place k m hk hle).trans (h.place k m hk hle)
  table row lane id hs := h'.table row lane id (h.table row lane id hs)

theorem Settled.mono {done' : List Int} (h : Settled d e blk done') (hsub : ∀ n ∈ done, n ∈ done') :
    Settled d e blk done :=
  ⟨fun k hk => h.instr k (hsub k hk), fun k m hk => h.place k m (hsub k hk), h.table⟩

theorem Opened.settled_place (hc : Laid Q words c) (ho : Opened c c₀ b blk g lastRow order)
    (hd : Partly c₀ b blk g lastRow order done r d) (horder : order = done ++ (k : Int) :: rest)
    (h : Runs (placeInstr b blk g lastRow r k) d r' e) : Settled d e blk done := by
  obtain ⟨_, _, _, _, hin⟩ := ho.inserted hd horder h
  refine ⟨fun m hm id i => ?_, fun m m' hm hle => hin.placeIn_of_ne ?_, fun _ _ _ => hin.kept⟩
  swap
  · have := ((ho.places.mem_done horder).mp hm).2
    omega
  have hkept : ∀ hid : blk.body[m]? = some id, ∃ j, d.store[id]? = some j ∧ e.store[id]? = some j := by
    intro hid
    obtain ⟨j, hj, _⟩ := hd.tabled.instr _ _ ⟨b, blk, m, ho.block_eq hd, ho.basic, hid, rfl⟩
    obtain ⟨j', hj', rfl⟩ := (ho.settled_step hc hd hid hm horder h).instr j hj
    exact ⟨j, hj, hj'⟩
  constructor
  · rintro ⟨hid, hi⟩
    obtain ⟨j, hj, hj'⟩ := hkept (Position.get_natCast.mp hid)
    obtain rfl := Option.mem_unique hi hj'
    exact ⟨hid, hj⟩
  · rintro ⟨hid, hi⟩
    obtain ⟨j, hj, hj'⟩ := hkept (Position.get_natCast.mp hid)
    obtain rfl := Option.mem_unique hi hj
    exact ⟨hid, hj'⟩

/-- What was placed when the instructions in `done` were is the same at the end. -/
theorem Opened.settled (hc : Laid Q words c) (ho : Opened c c₀ b blk g r.row order) {r₁ r₂ : Reach}
    (hpath : Runs (done.foldlM (placeInstr b blk g r.row) r) c₀ r₁ d) (hlisted : done <+: order)
    (h : Runs (order.foldlM (placeInstr b blk g r.row) r) c₀ r₂ e) : Settled d e blk done := by
  refine (ho.induct (fun done' r₁ e => Runs (done'.foldlM (placeInstr b blk g r.row) r) c₀ r₁ e ∧
    (done <+: done' → Settled d e blk done)) (List.prefix_refl _) h ⟨rfl, fun hnil => ?_⟩ ?_).2.2
    hlisted
  · obtain rfl := List.prefix_nil.mp hnil
    obtain ⟨_, rfl⟩ := runs_pure.mp hpath
    exact .refl _ _ _
  · rintro done' m rest r₃ y r₄ y' hsplit hy ⟨hpath', hsettled⟩ hr
    have hpath'' := runs_foldlM_snoc hpath' hr
    refine ⟨hpath'', fun hprefix => ?_⟩
    rcases List.prefix_concat_iff.mp hprefix with rfl | hprefix
    · obtain ⟨_, rfl⟩ := hpath.unique hpath''
      exact .refl _ _ _
    · exact (hsettled hprefix).trans
        ((ho.settled_place hc hy hsplit hr).mono fun n hn => hprefix.subset hn)

/-- Instruction `k` of a block comes next in `d`, after those in `done`, and is placed. What
    was placed by then is the same in `e`. -/
structure Reached (rows : Int) (c c₀ e : Compilation) (b : Nat) (blk : Block) (g : Digraph)
    (order : List Int) (r : Reach) (k : Nat) (done rest : List Int) (r₁ r₂ : Reach)
    (d d' : Compilation) : Prop where
  split : order = done ++ (k : Int) :: rest
  path : Runs (done.foldlM (placeInstr b blk g r.row) r) c₀ r₁ d
  partly : Partly c₀ b blk g r.row order done r₁ d
  stacked : Stacked rows c r₁ d
  rising : Rising c blk r.row done r₁ d
  run : Runs (placeInstr b blk g r.row r₁ k) d r₂ d'
  settled : Settled d' e blk (done ++ [(k : Int)])

theorem Opened.reached {rows : Int} (hc : Laid Q words c) (ho : Opened c c₀ b blk g r.row order)
    (hs : Stacked rows c r c₀) (h : Runs (order.foldlM (placeInstr b blk g r.row) r) c₀ r' e)
    (hk : (k : Int) ∈ order) :
    ∃ done rest r₁ r₂ d d', Reached rows c c₀ e b blk g order r k done rest r₁ r₂ d d' := by
  obtain ⟨done, rest, horder⟩ := List.append_of_mem hk
  have hrun := h
  rw [horder, List.foldlM_append, runs_bind] at hrun
  obtain ⟨r₁, d, hpath, hrest⟩ := hrun
  rw [List.foldlM_cons, runs_bind] at hrest
  obtain ⟨r₂, d', hr, _⟩ := hrest
  obtain ⟨hd, hstack, hrise⟩ := ho.rising hc hs ⟨_, horder.symm⟩ hpath
  exact ⟨done, rest, r₁, r₂, d, d', horder, hpath, hd, hstack, hrise, hr,
    ho.settled hc (runs_foldlM_snoc hpath hr) ⟨rest, by rw [horder]; simp⟩ h⟩

section
variable {rows : Int} {r₁ r₂ : Reach} {d' : Compilation}
  (h : Reached rows c c₀ e b blk g order r k done rest r₁ r₂ d d')
include h

theorem Reached.place {m : Nat} (hle : m ≤ k) : placeIn e blk m = placeIn d' blk m :=
  h.settled.place k m (by simp) hle

theorem Reached.next (heach : EachNext c c₀ b blk g order r) :
    ComesNext c b k blk g r.row r₁ d :=
  heach done k r₁ d ⟨rest, by rw [h.split]; simp⟩ h.path

end

/-! ## Values on record -/

/-- Instruction `i` of a block, which comes next in `x`, writes a value that is needed, and
    position `last` is looked up for its last use. -/
def UsedLast (x : Compilation) (blk : Block) (i : Nat) (last : Int) : Prop :=
  ∃ id a o, InstrAt x blk i id a ∧ a.output = some o ∧ o.nextUse.all (fun p => p == 0) = false ∧
    Runs (LastUse.find o.nextUse o.register) x (some last) x

/-- Instruction `i` of a block is on record as one that writes register `q`. -/
def OnRecord (e : Compilation) (blk : Block) (i : Nat) (q : Int) : Prop :=
  ∃ id a, InstrAt e blk i id a ∧ a.writes q = true

/-- The instruction at position `last` stands in a row. -/
def PlacedAt (x : Compilation) (last : Option Int) (row : Int) : Prop :=
  ∃ p pl lane, last = some p ∧ Position.get x.schedule p = .ok pl ∧ pl.time = row ∧
    pl.lane = some lane

/-- The range of the value that instruction `k` of a block, which comes next in `x`, has
    written in `e`. -/
structure ValueOf (x e : Compilation) (blk : Block) (k : Nat) (v : LiveRange) : Prop where
  definedBy : v.definedBy = ((blk.start.toNat + k : Nat) : Int)
  used : ∃ last, v.lastUse = some last ∧ UsedLast x blk k last
  recorded : OnRecord e blk k v.register
  ends : ∀ row, v.endRow = some row → PlacedAt x v.lastUse row

theorem UsedLast.unique {last last' : Int} (h : UsedLast d blk k last) (h' : UsedLast d blk k last') :
    last = last' := by
  obtain ⟨id, a, o, hi, hout, _, hlast⟩ := h
  obtain ⟨id', a', o', hi', hout', _, hlast'⟩ := h'
  obtain ⟨rfl, rfl⟩ := hi.unique hi'
  obtain rfl := Option.mem_unique hout hout'
  exact Option.some.inj (hlast.unique hlast').1

theorem Cleared.ranges_eq (h : Cleared d b blk g lastRow r k s₀ s z) (hd : Tabled d)
    (hb : d.blocks[b]? = some blk) (hkind : blk.kind = .basic)
    (hnew : ∀ v ∈ d.ranges, v.definedBy ≠ ((blk.start.toNat + k : Nat) : Int)) :
    z.ranges = d.ranges := by
  rcases h.attempted hd hb hkind with ⟨_, rfl⟩ | ⟨_, _, z, _, _, hz, rfl, _⟩
  · rfl
  · exact hz.ranges_eq hd hb hkind hnew

section
variable (ho : Opened c c₀ b blk g lastRow order) (hd : Partly c₀ b blk g lastRow order done r d)
  (horder : order = done ++ (k : Int) :: rest) (h : Runs (placeInstr b blk g lastRow r k) d r' e)
include ho hd horder h

theorem Opened.placedAt_step {last : Option Int} {row : Int} (hp : PlacedAt d last row) :
    PlacedAt e last row := by
  obtain ⟨p, pl, lane, rfl, hpl, hrow, hlane⟩ := hp
  obtain ⟨_, e', _, s, _, _, _, hren, _, hput, -⟩ := ho.inserted hd horder h
  obtain ⟨n, hn, hget⟩ := Position.get_eq_ok_iff.mp hpl
  refine ⟨p, pl, lane, rfl, Position.get_eq_ok_iff.mpr ⟨n, ?_, ?_⟩, hrow, hlane⟩
  · rw [hput.schedule_size, hren.schedule]
    exact hn
  · -- what has a slot already is not the instruction that comes next
    rw [hput.place, if_neg, hren.schedule]
    · exact hget
    · rintro rfl
      rw [hd.no_lane ho.ready (ho.index_lt horder) (ho.places.not_mem_done horder) hget] at hlane
      cases hlane

variable (hnew : ∀ v ∈ d.ranges, v.definedBy ≠ ((blk.start.toNat + k : Nat) : Int))
include hnew

/-- All that one step does with values: what is in the way is dealt with, the value that is
    written goes on record if it is needed, and then inputs are read. -/
theorem Opened.value_step :
    ∃ s₀ s z id i registers new, Runs (find b g lastRow r.row k) d s₀ d ∧ InstrAt d blk k id i ∧
      Cleared d b blk g lastRow r k s₀ s z ∧ e.store = z.store ∧ StandsAt e blk k s.row s.lane ∧
      e.ranges = LiveRanges.read (d.ranges ++ Option.toList new) registers s.row
        (some ((blk.start.toNat + k : Nat) : Int)) ∧
      (∀ v, new = some v → ValueOf d e blk k v) ∧
      (new = none → ∀ o, i.output = some o → o.nextUse.all (fun p => p == 0) = true) := by
  have hb := ho.block_eq hd
  obtain ⟨_, e', s₀, s, hin⟩ := ho.inserted hd horder h
  have hfind := hin.found
  have hout := hin.output
  have hren := hin.renamed
  obtain ⟨s₁, c₁, s₂, e₁, id', j, c₂, hfind', hout', hj, hplace, hslot, _⟩ := runs_placeInstr_parts h
  obtain ⟨rfl, rfl⟩ := hfind.unique hfind'
  obtain ⟨rfl, rfl⟩ := hout.unique hout'
  obtain ⟨_, _, _, _, _, _, hc₂⟩ := runs_setPlace.mp hplace
  obtain ⟨_, _, _, _, _, _, he⟩ := runs_setSlot.mp hslot
  have hposition : ∀ {id : Nat} {i : Instr}, InstrAt e' blk k id i →
      i.position = some ((blk.start.toNat + k : Nat) : Int) := by
    intro id i hi
    have hnum : Numbered e'.blocks (blk.start.toNat + k) id := by
      rw [hren.blocks]
      exact ⟨b, blk, k, hb, ho.basic, Position.get_natCast.mp hi.1, rfl⟩
    obtain ⟨i', hi', hpos⟩ := (hren.tabled hd.tabled).instr _ _ hnum
    obtain rfl := Option.mem_unique hi.2 hi'
    exact hpos
  have hstands := ho.stands hd horder hin
  have hranges : e.ranges = e'.ranges.read (j.inputs.map Operand.register) s.row
      (some ((blk.start.toNat + k : Nat) : Int)) := by
    rw [he, hc₂, hposition hj]
  have hstore : e.store = e'.store := by rw [he, hc₂]
  obtain ⟨id, i, z, hi, hcleared, hcase⟩ := cleared_of_placeOutput hd.tabled hb ho.basic
    ho.last (ho.edges.entryFirst k) hfind hout
  have hz := hcleared.ranges_eq hd.tabled hb ho.basic hnew
  rcases hcase with ⟨rfl, hunused⟩ | ⟨o, last, pl, ho', hneeded, hlast, hpl, hrecord⟩
  · refine ⟨s₀, s, z, id, i, j.inputs.map Operand.register, none, hfind, hi, hcleared, hstore,
      hstands, ?_, nofun, fun _ => hunused⟩
    rw [hranges, hz]
    simp
  · obtain ⟨id₁, i₁, o₁, p₁, hi₁, ho₁, hp₁, he'⟩ := runs_recordOutput hrecord
    obtain ⟨p, rfl, hplace, _⟩ := runs_placeOf.mp hpl
    have hi₂ : InstrAt e' blk k id₁ i₁ := by
      refine ⟨hi₁.1, ?_⟩
      rw [he']
      exact hi₁.2
    obtain rfl := Option.mem_unique hp₁ (hposition hi₂)
    refine ⟨s₀, s, z, id, i, j.inputs.map Operand.register, some {
      register := o₁.register, definedBy := ((blk.start.toNat + k : Nat) : Int), lastUse := some p
      row := s.row, endRow := if pl.lane.isSome then some pl.time else none }, hfind, hi, hcleared,
      by rw [hstore, he'], hstands, ?_, ?_, nofun⟩
    · rw [hranges, he', hz, LiveRanges.define_of_new hnew]
      rfl
    rintro v ⟨⟩
    refine ⟨rfl, ⟨p, rfl, id, i, o, hi, ho', hneeded, hlast⟩, ⟨id₁, i₁, ⟨hi₁.1, ?_⟩, ?_⟩, ?_⟩
    · rw [hstore]
      exact hi₂.2
    · exact Instr.writes_iff.mpr ⟨o₁, ho₁, rfl⟩
    · intro row hrow
      cases hlane : pl.lane with
      | none => simp [hlane] at hrow
      | some lane =>
        simp only [hlane, Option.isSome_some, if_true, Option.some.injEq] at hrow
        exact ⟨p, pl, lane, rfl, hplace, hrow, hlane⟩

end

theorem OnRecord.unique {q' : Int} (h : OnRecord e blk k q) (h' : OnRecord e blk k q') : q = q' := by
  obtain ⟨id, a, hi, hw⟩ := h
  obtain ⟨id', a', hi', hw'⟩ := h'
  obtain ⟨rfl, rfl⟩ := hi.unique hi'
  exact Instr.writes_unique hw hw'

theorem Settled.onRecord (h : Settled d e blk done) (hk : (k : Int) ∈ done) :
    OnRecord e blk k q ↔ OnRecord d blk k q := by
  simp only [OnRecord, h.instr k hk]

/-! ## What the records say -/

/-- A range that is left over from another block. -/
structure Foreign (blk : Block) (x : LiveRange) : Prop where
  outside : ¬ InBlock blk x.definedBy
  harmless : x.definedBy < blk.start ∨ ∃ use, x.lastUse = some use ∧ blk.stop < use

theorem Foreign.congr {x y : LiveRange} (h : Foreign blk x) (hdef : x.definedBy = y.definedBy)
    (huse : x.lastUse = y.lastUse) : Foreign blk y := by
  refine ⟨?_, ?_⟩
  · rw [← hdef]
    exact h.outside
  · rw [← hdef, ← huse]
    exact h.harmless

/-- What the records say when the instructions in `done` of a block were placed: whose values
    they hold, where these end, and which one is the newest of a register. Each
    instruction `m` comes next in `x m`. -/
structure Traced (x : Nat → Compilation) (blk : Block) (done : List Int) (d : Compilation) : Prop where
  known : ∀ v ∈ d.ranges, Foreign blk v ∨ ∃ k : Nat, (k : Int) ∈ done ∧
    v.definedBy = ((blk.start.toNat + k : Nat) : Int) ∧ OnRecord d blk k v.register
  ends : d.ranges.Ends (PlacedAt d)
  newest : ∀ (i : Nat) (q last : Int), (i : Int) ∈ done → UsedLast (x i) blk i last →
    OnRecord d blk i q →
    (∀ (m : Nat) (last' : Int), i < m → (m : Int) ∈ done → UsedLast (x m) blk m last' →
      ¬ OnRecord d blk m q) →
    ∃ v, LiveRanges.Newest d.ranges q v ∧ v.definedBy = ((blk.start.toNat + i : Nat) : Int) ∧
      v.lastUse = some last

variable {x : Nat → Compilation}

section
variable (ht : Traced x blk done d) (hc : Laid Q words c) (ho : Opened c c₀ b blk g lastRow order)
  (horder : order = done ++ (k : Int) :: rest)
include ht ho horder

theorem Traced.new : ∀ v ∈ d.ranges, v.definedBy ≠ ((blk.start.toNat + k : Nat) : Int) := by
  intro v hv heq
  rcases ht.known v hv with hforeign | ⟨m, hm, hdef, _⟩
  · exact hforeign.outside ⟨k, ho.index_lt horder, heq⟩
  · obtain rfl : m = k := by omega
    exact ho.places.not_mem_done horder hm

variable (hd : Partly c₀ b blk g lastRow order done r d)
include hc hd

theorem Traced.step (hx : x k = d) (h : Runs (placeInstr b blk g lastRow r k) d r' e) :
    Traced x blk (done ++ [(k : Int)]) e := by
  obtain ⟨s₀, s, z, id, i, registers, new, _, hi, _, _, hstands, hranges, hvalue, hnone⟩ :=
    ho.value_step hd horder h (ht.new ho horder)
  have hsettled := ho.settled_place hc hd horder h
  refine ⟨?_, ?_, ?_⟩
  · intro v hv
    rw [hranges] at hv
    obtain ⟨w, hw, hreg, hdef, huse⟩ := LiveRanges.mem_read hv
    rcases List.mem_append.mp hw with hw | hw
    · rcases ht.known w hw with hforeign | ⟨m, hm, hdef', hrec⟩
      · exact .inl (hforeign.congr hdef huse)
      · exact .inr ⟨m, by simp [hm], hdef.symm.trans hdef', hreg ▸ (hsettled.onRecord hm).mpr hrec⟩
    · have hown := hvalue w (Option.mem_toList.mp hw)
      exact .inr ⟨k, by simp, hdef.symm.trans hown.definedBy, hreg ▸ hown.recorded⟩
  · have hkept : d.ranges.Ends (PlacedAt e) :=
      ht.ends.mono fun _ _ => ho.placedAt_step hd horder h
    rw [hranges]
    refine LiveRanges.Ends.read ?_ ?_
    · cases new with
      | none => simpa using hkept
      | some v =>
        exact hkept.append fun row hrow =>
          ho.placedAt_step hd horder h ((hvalue v rfl).ends row hrow)
    · obtain ⟨pl, hpl, hrow, hlane⟩ := hstands
      exact ⟨_, pl, s.lane, rfl, Position.get_natCast.mpr hpl, hrow, hlane⟩
  · intro m q last hm hlast hrec hlater
    suffices h : ∃ v, LiveRanges.Newest (d.ranges ++ new.toList) q v ∧
        v.definedBy = ((blk.start.toNat + m : Nat) : Int) ∧ v.lastUse = some last by
      -- reading inputs changes only where ranges end
      obtain ⟨v, hv, hdef, huse⟩ := h
      obtain ⟨w, hw, hcore⟩ := hv.of_core (LiveRanges.map_core_read registers s.row
        (some ((blk.start.toNat + k : Nat) : Int)))
      simp only [LiveRange.core, Prod.mk.injEq] at hcore
      rw [hranges]
      exact ⟨w, hw, hcore.2.1.trans hdef, hcore.2.2.trans huse⟩
    rcases mem_snoc.mp hm with hm | rfl
    · obtain ⟨v, hv, hdef, huse⟩ := ht.newest m q last hm hlast ((hsettled.onRecord hm).mp hrec)
        fun m' last' hlt hm' hused hrec' =>
          hlater m' last' hlt (by simp [hm']) hused ((hsettled.onRecord hm').mpr hrec')
      refine ⟨v, ?_, hdef, huse⟩
      cases new with
      | none => simpa using hv
      | some w =>
        refine hv.append fun heq => ?_
        obtain ⟨last', _, hused⟩ := (hvalue w rfl).used
        have hlt := ((ho.places.mem_done horder).mp hm).2
        exact hlater k last' (by omega) (by simp) (hx ▸ hused) (heq ▸ (hvalue w rfl).recorded)
    · rw [hx] at hlast
      cases new with
      | none =>
        -- a value that is used is needed
        obtain ⟨id', i', o, hi', hout, hneeded, _⟩ := hlast
        obtain ⟨rfl, rfl⟩ := hi.unique hi'
        rw [hnone rfl o hout] at hneeded
        cases hneeded
      | some v =>
        obtain ⟨last', huse, hused⟩ := (hvalue v rfl).used
        obtain rfl := hused.unique hlast
        exact ⟨v, LiveRanges.newest_append ((hvalue v rfl).recorded.unique hrec),
          (hvalue v rfl).definedBy, huse⟩

end

/-! ## A block -/

/-- Each instruction `k` of a block comes next in `x k`, when the placement has come to `rs k`. -/
def NextIn (c₀ : Compilation) (b : Nat) (blk : Block) (g : Digraph) (order : List Int) (r : Reach)
    (rs : Nat → Reach) (x : Nat → Compilation) : Prop :=
  ∀ (k : Nat) (done rest : List Int), order = done ++ (k : Int) :: rest →
    Runs (done.foldlM (placeInstr b blk g r.row) r) c₀ (rs k) (x k)

theorem Opened.exists_nextIn (ho : Opened c c₀ b blk g r.row order)
    (h : Runs (order.foldlM (placeInstr b blk g r.row) r) c₀ r' e) :
    ∃ rs x, NextIn c₀ b blk g order r rs x := by
  have hnext : ∀ k : Nat, ∃ r₁ d, ∀ done rest, order = done ++ (k : Int) :: rest →
      Runs (done.foldlM (placeInstr b blk g r.row) r) c₀ r₁ d := by
    intro k
    by_cases hk : (k : Int) ∈ order
    · obtain ⟨done, rest, horder⟩ := List.append_of_mem hk
      have hrun := h
      rw [horder, List.foldlM_append, runs_bind] at hrun
      obtain ⟨r₁, d, hpath, _⟩ := hrun
      refine ⟨r₁, d, fun done' rest' horder' => ?_⟩
      -- an instruction is placed once only
      have hnodup := ho.places.nodup
      rw [horder, List.nodup_middle, List.nodup_cons, List.mem_append, not_or] at hnodup
      obtain ⟨rfl, _⟩ := (List.append_cons_inj_of_notMem hnodup.1.1 hnodup.1.2).mp
        (horder.symm.trans horder')
      exact hpath
    · exact ⟨r, c₀, fun done rest horder => absurd (by rw [horder]; simp) hk⟩
  choose rs x hx using hnext
  exact ⟨rs, x, hx⟩

/-! ## Blocks that overwrite registers in place -/

/-- A value that is overwritten in place is used last where that happens. -/
def UsedInPlace (c : Compilation) (x : Nat → Compilation) (blk : Block) (done : List Int) : Prop :=
  ∀ (reg : Int) (i k : Nat) (a : Instr), Feeds (c.bodyOf blk) reg i k →
    (c.bodyOf blk)[k]? = some a → a.writes reg = true → (i : Int) ∈ done →
    UsedLast (x i) blk i ((blk.start.toNat + k : Nat) : Int)

theorem SameBody.onRecord (hsame : SameBody c d blk) (hc : Laid Q words c)
    (hb : c.blocks[b]? = some blk) (hkind : blk.kind = .basic) :
    OnRecord d blk k q ↔ ∃ a, (c.bodyOf blk)[k]? = some a ∧ a.writes q = true := by
  constructor
  · rintro ⟨id, a, ⟨hid, ha⟩, hw⟩
    refine ⟨a, ?_, hw⟩
    rw [hsame id (mem_of_get hid)] at ha
    rw [hc.bodyOf_getElem? hb hkind, Position.get_natCast.mp hid]
    exact ha
  · rintro ⟨a, ha, hw⟩
    rw [hc.bodyOf_getElem? hb hkind] at ha
    obtain ⟨id, hid, ha⟩ := Option.bind_eq_some_iff.mp ha
    refine ⟨id, a, ⟨Position.get_natCast.mpr hid, ?_⟩, hw⟩
    rw [hsame id (Array.mem_of_getElem? hid)]
    exact ha

/-- Nothing is in the way of an instruction if what was placed is unchanged and values are
    overwritten in place. -/
theorem Traced.clear (ht : Traced x blk done d) (hc : Laid Q words c)
    (ho : Opened c c₀ b blk g lastRow order) (horder : order = done ++ (k : Int) :: rest)
    (hd : Partly c₀ b blk g lastRow order done r d) (hin : InPlace (c.bodyOf blk))
    (hsame : SameBody c d blk) (hused : UsedInPlace c x blk done) (s : Slot) (i : Instr)
    (v : LiveRange) : ¬ InTheWay d b blk g lastRow r k s i v := by
  intro hv
  obtain ⟨id, hi⟩ := hv.instr
  obtain ⟨o, hout, _, hconflict⟩ := hv.needed
  obtain ⟨l, hl, hstop, hother⟩ := hv.shielded.last
  have hk := ho.index_lt horder
  have hdone {n : Int} : n ∈ done ↔ n ∈ order ∧ n < k := ho.places.mem_done horder
  have hbody : (c.bodyOf blk)[k]? = some i := by
    rw [hc.bodyOf_getElem? ho.block ho.basic, Position.get_natCast.mp hi.1]
    exact (hsame id (mem_of_get hi.1)).symm.trans hi.2
  have hwrites : i.writes o.register = true := Instr.writes_iff.mpr ⟨o, hout, rfl⟩
  obtain ⟨hmem, hreg⟩ := LiveRanges.conflict_mem hconflict
  rcases ht.known v hmem with hforeign | ⟨m, hm, _, hrec⟩
  · rcases hforeign.harmless with hbefore | ⟨use, huse, hlt⟩
    · exact absurd hv.shielded.own (by omega)
    · obtain rfl := Option.mem_unique hl huse
      omega
  -- an instruction before it writes the register, so one of these feeds it
  rw [hreg] at hrec
  obtain ⟨a, ha, hw⟩ := (hsame.onRecord hc ho.block ho.basic).mp hrec
  obtain ⟨y, _, hfeeds⟩ := hin.feeds (by have := (hdone.mp hm).2; omega) ha hw hbody hwrites
  have hyk := hfeeds.lt
  obtain ⟨_, hact, _⟩ := hc.active_of_feeds ho.block ho.basic hfeeds
  have hy : (y : Int) ∈ done := hdone.mpr ⟨ho.lists.mpr hact, by omega⟩
  have hlatest : ∀ (m : Nat) (last : Int), y < m → (m : Int) ∈ done → UsedLast (x m) blk m last →
      ¬ OnRecord d blk m o.register := by
    intro m _ hlt hm _ hrec
    obtain ⟨a, ha, hw⟩ := (hsame.onRecord hc ho.block ho.basic).mp hrec
    rw [hfeeds.between m a hlt (by have := (hdone.mp hm).2; omega) ha] at hw
    cases hw
  obtain ⟨w, hnew, _, huse⟩ := ht.newest y _ _ hy (hused _ y k i hfeeds hbody hwrites hy)
    ((hsame.onRecord hc ho.block ho.basic).mpr hfeeds.writer) hlatest
  -- the value of that one is used last by this instruction, which has no row yet
  have hend : w.endRow = none := by
    cases hend : w.endRow with
    | none => rfl
    | some row =>
      obtain ⟨p, pl, lane, hp, hpl, _, hlane⟩ := ht.ends w hnew.mem row hend
      obtain rfl := Option.mem_unique huse hp
      rw [hd.no_lane ho.ready hk (ho.places.not_mem_done horder)
        (Position.get_natCast.mp hpl)] at hlane
      cases hlane
  obtain rfl := Option.mem_unique hconflict (hnew.conflict (by simp [LiveRange.outlives, hend]))
  obtain rfl := Option.mem_unique hl huse
  exact hother (bodyOf_position hc ho.block ho.basic hbody)

section
variable (hc : Laid Q words c) (ho : Opened c c₀ b blk g r.row order) {rs : Nat → Reach}
  (hx : NextIn c₀ b blk g order r rs x) (hforeign : ∀ v ∈ c₀.ranges, Foreign blk v)
  (hends : c₀.ranges.Ends (PlacedAt c₀)) {r₁ : Reach}
include hc ho hx hforeign hends

theorem Opened.traced (hlisted : done <+: order)
    (h : Runs (done.foldlM (placeInstr b blk g r.row) r) c₀ r₁ d) :
    Partly c₀ b blk g r.row order done r₁ d ∧ Traced x blk done d := by
  have hrun := ho.induct (fun done r₁ d => Runs (done.foldlM (placeInstr b blk g r.row) r) c₀ r₁ d ∧
    Traced x blk done d) hlisted h ⟨rfl, fun v hv => .inl (hforeign v hv), hends, ?_⟩ ?_
  · exact ⟨hrun.1, hrun.2.2⟩
  · intro i _ _ hi
    exact absurd hi (by simp)
  · rintro done k rest r₁ d r₂ d' hsplit hd ⟨hpath, ht⟩ hr
    exact ⟨runs_foldlM_snoc hpath hr,
      ht.step hc ho hsplit hd ((hx k done rest hsplit).unique hpath).2 hr⟩

variable (hnext : NextUses c blk) (hin : InPlace (c.bodyOf blk))
include hnext hin

theorem Opened.inPlace (hlisted : done <+: order)
    (h : Runs (done.foldlM (placeInstr b blk g r.row) r) c₀ r₁ d) :
    SameBody c d blk ∧ UsedInPlace c x blk done := by
  refine (ho.induct (fun done r₁ d => Runs (done.foldlM (placeInstr b blk g r.row) r) c₀ r₁ d ∧
    SameBody c d blk ∧ UsedInPlace c x blk done) hlisted h
    ⟨rfl, ho.same, fun _ _ _ _ _ _ _ hi => absurd hi (by simp)⟩ ?_).2.2
  rintro done k rest r₁ d r₂ d' hsplit hd ⟨hpath, hsame, hused⟩ hr
  obtain ⟨_, ht⟩ := ho.traced hc hx hforeign hends ⟨_, hsplit.symm⟩ hpath
  have hclear := ht.clear hc ho hsplit hd hin hsame hused
  obtain ⟨s₀, s, z, id, i, _, new, _, hi, hcleared, hstore, _, _, hvalue, hnone⟩ :=
    ho.value_step hd hsplit hr (ht.new ho hsplit)
  refine ⟨runs_foldlM_snoc hpath hr, ?_, ?_⟩
  · cases hcleared with
    | kept _ hz _ =>
      intro id hid
      rw [hstore, hz]
      exact hsame id hid
    | renamed hv _ _ => exact absurd hv (hclear _ _ _)
    | later hv _ _ _ => exact absurd hv (hclear _ _ _)
  · intro reg m k' a hfeeds ha hw hm
    rcases mem_snoc.mp hm with hm | rfl
    · exact hused reg m k' a hfeeds ha hw hm
    -- it is read later on, so its value goes on record
    obtain ⟨i', hi', hw'⟩ := hfeeds.writer
    obtain rfl := hsame.instr_eq hc ho.block ho.basic hi' hi
    obtain ⟨o, hout, hreg⟩ := Instr.writes_iff.mp hw'
    obtain ⟨p, _, _, _, _, _, huse⟩ :=
      nextUse_of_feeds hc ho.block ho.basic hnext hfeeds hi' hout hreg
    cases new with
    | none =>
      have hzero := hnone rfl o hout
      rw [huse] at hzero
      have : ((blk.start.toNat + p : Nat) : Int) = 0 := by simpa using hzero
      omega
    | some v =>
      obtain ⟨last, _, id', i', o', hi', hout', hneeded, hlast⟩ := (hvalue v rfl).used
      obtain ⟨rfl, rfl⟩ := hi.unique hi'
      obtain rfl := Option.mem_unique hout hout'
      subst hreg
      have hfindable : Findable c b blk d :=
        ⟨hd.frame.blocks.trans ho.blocks, hsame, fun _ hk => hd.placeIn_some ho.ready hk⟩
      obtain rfl := Option.some.inj
        (hfindable.lastUse hc ho.block ho.basic hnext hfeeds ha hw ‹_› hout rfl hlast)
      rw [((hx m done rest hsplit).unique hpath).2]
      exact ⟨id, i, o, hi, hout, hneeded, hlast⟩

theorem Opened.inPlace_clear (horder : order = done ++ (k : Int) :: rest) (s : Slot) (i : Instr)
    (v : LiveRange) : ¬ InTheWay (x k) b blk g r.row (rs k) k s i v := by
  have hpath := hx k done rest horder
  obtain ⟨hd, ht⟩ := ho.traced hc hx hforeign hends ⟨_, horder.symm⟩ hpath
  obtain ⟨hsame, hused⟩ := ho.inPlace hc hx hforeign hends hnext hin ⟨_, horder.symm⟩ hpath
  exact ht.clear hc ho horder hd hin hsame hused s i v

end
/-! ## Block after block -/

/-- The ranges on record are defined in blocks that were placed, and used behind them. -/
def LeftOver (c : Compilation) (done : List Int) (rs : LiveRanges) : Prop :=
  ∀ x ∈ rs, ∃ (b : Nat) (blk : Block), (b : Int) ∈ done ∧ c.blocks[b]? = some blk ∧
    blk.kind = .basic ∧ InBlock blk x.definedBy ∧ ∃ use, x.lastUse = some use ∧ blk.stop < use

theorem LeftOver.foreign {rs : LiveRanges} (hc : Laid Q words c) (hb : c.blocks[b]? = some blk)
    (hkind : blk.kind = .basic) (hnew : (b : Int) ∉ done) (h : LeftOver c done rs) :
    ∀ x ∈ rs, Foreign blk x := by
  intro x hx
  obtain ⟨b', blk', hmem, hb', hkind', ⟨k', hk', hdef⟩, use, huse, hlt⟩ := h x hx
  obtain ⟨hstart, hstop⟩ := stop_eq hc hb hkind
  obtain ⟨hstart', hstop'⟩ := stop_eq hc hb' hkind'
  have houtside : ¬ InBlock blk x.definedBy := by
    rintro ⟨k, hk, hdef'⟩
    have heq : blk.start.toNat + k = blk'.start.toNat + k' := by omega
    obtain ⟨rfl, _⟩ := hc.unique_index hb hkind (Array.getElem?_eq_getElem hk) hb' hkind'
      (Array.getElem?_eq_getElem hk') heq
    exact hnew hmem
  refine ⟨houtside, ?_⟩
  by_cases hbefore : x.definedBy < blk.start
  · exact .inl hbefore
  · -- the other block comes later, and so does the last use
    refine .inr ⟨use, huse, ?_⟩
    by_cases hinside : x.definedBy < blk.stop
    · exact absurd ⟨(x.definedBy - blk.start).toNat, by omega, by omega⟩ houtside
    · omega

theorem LeftOver.step (hb : c.blocks[b]? = some blk) (hkind : blk.kind = .basic)
    {rs rs' kept : LiveRanges} (h : LeftOver c done rs) (hcomes : rs.ComesFrom (InBlock blk) rs')
    (hleave : rs'.leaveBlock blk.stop = .ok kept) : LeftOver c (done ++ [(b : Int)]) kept := by
  intro x hx
  obtain ⟨hmem, use, huse, hlt⟩ := LiveRanges.mem_leaveBlock hleave hx
  rcases hcomes x hmem with hown | ⟨y, hy, hdef, hlast⟩
  · exact ⟨b, blk, by simp, hb, hkind, hown, use, huse, hlt⟩
  · obtain ⟨b', blk', hmem', hb', hkind', hin', use', huse', hlt'⟩ := h y hy
    exact ⟨b', blk', by simp [hmem'], hb', hkind', hdef ▸ hin', use', hlast.symm.trans huse', hlt'⟩

theorem leftOver_start (hempty : NothingPlaced c) : LeftOver c [] c.ranges := by
  rw [hempty.ranges]
  exact nofun


/-- Block `b` is about to be placed in `c₀`, with what is known of the rows and of the values
    on record by then. -/
structure Entered (rows : Int) (c c₀ : Compilation) (b : Nat) (blk : Block) (g : Digraph)
    (order : List Int) (r : Reach) : Prop where
  opened : Opened c c₀ b blk g r.row order
  each : EachNext c c₀ b blk g order r
  next : ∃ done r₀ d₀, BlockNext c done b r₀ d₀ ∧ r₀.row = r.row
  stacked : Stacked rows c r c₀
  foreign : ∀ v ∈ c₀.ranges, Foreign blk v
  ends : c₀.ranges.Ends (PlacedAt c₀)

theorem forall_entered_of_placeAll {P : Compilation → Nat → Block → Prop} {rows : Int}
    (hc : Laid Q words c) (hempty : NothingPlaced c) (ht : Table.Sized rows c.target.lanes c.table)
    (hplace : ∀ (b : Nat) (blk : Block) (g : Digraph) (order : List Int) (r r' : Reach)
      (c₀ e : Compilation), Entered rows c c₀ b blk g order r →
      Runs (order.foldlM (placeInstr b blk g r.row) r) c₀ r' e → P e b blk)
    (hkeep : Persists P) {u : Unit} (h : Runs placeAll c u d) (hb : c.blocks[b]? = some blk) (hkind : blk.kind = .basic) :
    P d b blk := by
  refine forall_block_of_placeAll (fun done r d => Stacked rows c r d ∧ LeftOver c done d.ranges ∧
    d.ranges.Ends (PlacedAt d)) hc hempty
    ⟨stacked_start hempty ht, leftOver_start hempty, by rw [hempty.ranges]; exact nofun⟩
    ?_ hkeep h hb hkind
  rintro done b blk r r' d e hb hkind hnew hd hpath ⟨hs, hleft, hends⟩ hr
  have hs' := (hd.fills_next hc hb hkind hnew hs hr).1
  obtain ⟨g, drawings, order, r₁, e₁, ranges, ho, hrun, hpartly, _, hleave, rfl, heach⟩ :=
    hd.runs_next hc hb hkind hnew hr
  have hforeign := hleft.foreign hc hb hkind hnew
  obtain ⟨rs, x, hx⟩ := ho.exists_nextIn hrun
  obtain ⟨_, ht⟩ := ho.traced hc hx hforeign hends (List.prefix_refl _) hrun
  refine ⟨⟨hs', hleft.step hb hkind hpartly.records hleave, ht.ends.leaveBlock hleave⟩, ?_⟩
  exact hkeep e₁ _ b blk (fun _ _ => rfl) (fun _ _ => rfl) (fun _ _ _ hslot => hslot)
    (hplace b blk g order r r₁ _ e₁ ⟨ho, heach hpath, ⟨done, r, d, hpath, rfl⟩,
      hs.setDrawings drawings, hforeign, hends⟩ hrun)

end Schedule
end BpfLanes
