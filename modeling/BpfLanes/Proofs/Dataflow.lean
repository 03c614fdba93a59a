import BpfLanes.Proofs.JumpRows

/-! # Register dataflow inside a block

The schedule keeps the dataflow of a block if every instruction still reads what the
last one before it wrote, if what the block needs from before is not overwritten too
early, and if what is needed after it is written last. Other blocks stand in other
rows and do not matter.
-/

namespace BpfLanes

open Compilation BpfLanes.Flow Dependence

variable {d : Compilation} {id : Nat}

/-! ## Blocks in the final table -/

theorem Jumps.Retargeted.tabled {e : Compilation} (h : Retargeted d e) (hd : Tabled d) :
    Tabled e := by
  have hblocks : e.blocks = d.blocks := by rw [h.rest]
  have htable : e.table = d.table := by rw [h.rest]
  have hschedule : e.schedule = d.schedule := by rw [h.rest]
  refine ⟨?_, ?_, ?_, ?_⟩
  · intro q id hq
    rw [hblocks] at hq
    obtain ⟨i, hi, hpos⟩ := hd.instr q id hq
    obtain ⟨j, hj, hsame⟩ := h.same id i hi
    exact ⟨j, hj, hsame.position.trans hpos⟩
  · rw [hblocks]
    exact hd.unique
  · rw [hblocks, htable, hschedule]
    exact hd.slot
  · rw [hblocks, hschedule]
    exact hd.numbered

namespace Schedule

/-- All blocks of `c` stand in the table of `e`, each in rows of its own. -/
structure AllPlaced (c e : Compilation) : Prop where
  tabled : Tabled e
  blocks : e.blocks = c.blocks
  finished : ∀ (b : Nat) (blk : Block), c.blocks[b]? = some blk → blk.kind = .basic →
    BlockDone c blk e
  apart : ∀ (b b' : Nat) (blk blk' : Block), b ≠ b' → c.blocks[b]? = some blk →
    c.blocks[b']? = some blk' → blk.kind = .basic → blk'.kind = .basic →
    RowsBefore e blk blk' ∨ RowsBefore e blk' blk

variable {Q : Instr → Prop} {words : Array Word} {c e : Compilation} {b : Nat} {blk : Block}
  {i j k t : Nat} {row lane q r : Int}

theorem allPlaced_of_retargeted {order : List Int} {r : Reach} (hc : Laid Q words c)
    (hlists : ListsBlocks c order) (hd : Progress c order r d) (he : Jumps.Retargeted d e) :
    AllPlaced c e := by
  have hplace : ∀ (blk : Block) (k : Nat), placeIn e blk k = placeIn d blk k := by
    intro blk k
    unfold placeIn
    rw [he.rest]
  refine ⟨he.tabled hd.tabled, ?_, ?_, ?_⟩
  · rw [he.rest]
    exact hd.frame.blocks
  · intro b blk hb hkind
    exact (hd.finished b blk (hlists.all b blk hb hkind) hb hkind).congr hc hb hkind
      fun k _ => hplace blk k
  · intro b b' blk blk' hne hb hb' hkind hkind'
    have hmem := hlists.all b blk hb hkind
    have hmem' := hlists.all b' blk' hb' hkind'
    rcases hd.apart b b' blk blk' hne hmem hmem' hb hb' hkind hkind' with hrows | hrows
    · exact .inl (hrows.congr (fun k _ => hplace blk k) fun k _ => hplace blk' k)
    · exact .inr (hrows.congr (fun k _ => hplace blk' k) fun k _ => hplace blk k)

theorem AllPlaced.standsAt (h : AllPlaced c e)
    (hs : Table.entry e.table row lane = some (some id)) :
    ∃ (b : Nat) (blk : Block) (k : Nat), c.blocks[b]? = some blk ∧ blk.kind = .basic ∧
      blk.body[k]? = some id ∧ StandsAt e blk k row lane := by
  obtain ⟨q, pl, hnum, hpl, hrow, hlane⟩ := (h.tabled.slot row lane id).mp hs
  rw [h.blocks] at hnum
  obtain ⟨b, blk, k, hb, hkind, hk, rfl⟩ := hnum
  exact ⟨b, blk, k, hb, hkind, hk, pl, hpl, hrow, hlane⟩

section
variable (h : AllPlaced c e) (hb : c.blocks[b]? = some blk) (hkind : blk.kind = .basic)
include h hb hkind

theorem AllPlaced.slot {k : Nat} (hid : blk.body[k]? = some id) (hs : StandsAt e blk k row lane) :
    Table.entry e.table row lane = some (some id) := by
  obtain ⟨pl, hpl, rfl, hlane⟩ := hs
  refine (h.tabled.slot pl.time lane id).mpr ⟨blk.start.toNat + k, pl, ?_, hpl, rfl, hlane⟩
  rw [h.blocks]
  exact ⟨b, blk, k, hb, hkind, hid, rfl⟩

end

/-! ## Dataflow -/

/-- Instruction `k` of a block reads register `r` as its input number `t`. -/
def ReadsAt (c : Compilation) (blk : Block) (k t : Nat) (r : Int) : Prop :=
  ∃ a o, (c.bodyOf blk)[k]? = some a ∧ a.inputs[t]? = some o ∧ o.register = r

/-- Instruction `k` of a block writes register `r`, as it was parsed. -/
def WritesAt (c : Compilation) (blk : Block) (k : Nat) (r : Int) : Prop :=
  ∃ a, (c.bodyOf blk)[k]? = some a ∧ a.writes r = true

instance (c : Compilation) (blk : Block) (k t : Nat) (r : Int) : Decidable (ReadsAt c blk k t r) :=
  decidable_of_iff (∃ a, a ∈ (c.bodyOf blk)[k]? ∧ ∃ o, o ∈ a.inputs[t]? ∧ o.register = r)
    ⟨fun ⟨a, ha, o, ho, hr⟩ => ⟨a, o, ha, ho, hr⟩, fun ⟨a, o, ha, ho, hr⟩ => ⟨a, ha, o, ho, hr⟩⟩

instance (c : Compilation) (blk : Block) (k : Nat) (r : Int) : Decidable (WritesAt c blk k r) :=
  decidable_of_iff (∃ a, a ∈ (c.bodyOf blk)[k]? ∧ a.writes r = true) Iff.rfl

/-- The word of instruction `k` of a block has register `q` as its input number `t`. -/
def WordReads (e : Compilation) (blk : Block) (k t : Nat) (q : Int) : Prop :=
  ∃ f, FieldsAt e blk k f ∧ f.inputs[t]? = some q

/-- The word of instruction `k` of a block writes register `q`. -/
def WordWrites (e : Compilation) (blk : Block) (k : Nat) (q : Int) : Prop :=
  ∃ f, FieldsAt e blk k f ∧ f.output? = some q

/-- Instruction `i` of a block stands in a row before that of instruction `j`. -/
def StandsBefore (e : Compilation) (blk : Block) (i j : Nat) : Prop :=
  ∀ ri li rj lj, StandsAt e blk i ri li → StandsAt e blk j rj lj → ri < rj

/-- The words of a block have the fields that they had, apart from offsets. -/
def RegistersKept (c e : Compilation) (blk : Block) : Prop :=
  ∀ (k : Nat) (f : Fields), FieldsAt c blk k f → ∃ offset, FieldsAt e blk k { f with offset }

/-! ## Only the block matters -/

section
variable (h : AllPlaced c e) (hb : c.blocks[b]? = some blk) (hkind : blk.kind = .basic)
include h hb hkind

end

/-! ## Blocks whose registers are kept -/

section
variable (hc : Laid Q words c) (hb : c.blocks[b]? = some blk) (hkind : blk.kind = .basic)
include hc hb hkind

theorem fieldsAt_of_body {a : Instr} (ha : (c.bodyOf blk)[k]? = some a) :
    ∃ f, FieldsAt c blk k f ∧ a.inputs.map Operand.register = f.inputs ∧
      a.output.map Operand.register = if f.isNop then none else f.output? := by
  rw [hc.bodyOf_getElem? hb hkind] at ha
  obtain ⟨id, hid, ha⟩ := Option.bind_eq_some_iff.mp ha
  obtain ⟨a', ha', hstands, _⟩ := (hc.holds b blk hb hkind).instr k id hid
  rw [ha] at ha'
  cases ha'
  obtain ⟨f, hf, hin, hout⟩ := hstands.operands
  exact ⟨f, ⟨id, a, ⟨Position.get_natCast.mpr hid, ha⟩, hf⟩, hin, hout⟩

theorem WritesAt.fields (h : WritesAt c blk k r) :
    ∃ f, FieldsAt c blk k f ∧ f.isNop = false ∧ f.output? = some r := by
  obtain ⟨a, ha, hw⟩ := h
  obtain ⟨o, ho, rfl⟩ := Instr.writes_iff.mp hw
  obtain ⟨f, hf, _, hout⟩ := fieldsAt_of_body hc hb hkind ha
  rw [ho] at hout
  split at hout
  · cases hout
  · next hnop => exact ⟨f, hf, Bool.not_eq_true _ ▸ hnop, hout.symm⟩

theorem RegistersKept.writes (hkept : RegistersKept c e blk) (h : WritesAt c blk k r) :
    WordWrites e blk k r := by
  obtain ⟨f, hf, _, hout⟩ := h.fields hc hb hkind
  obtain ⟨offset, hf'⟩ := hkept k f hf
  exact ⟨_, hf', hout⟩

end

theorem registersKept_of_sameBody (hsame : SameBody c d blk) (he : Jumps.Retargeted d e) :
    RegistersKept c e blk := by
  rintro k f ⟨id, i, ⟨hid, hi⟩, hdec⟩
  have hmem : id ∈ blk.body := by
    rw [Position.get_natCast] at hid
    exact Array.mem_of_getElem? hid
  rw [← hsame id hmem] at hi
  obtain ⟨j, hj, hbut⟩ := he.same id i hi
  obtain ⟨offset, hoffset⟩ := hbut.fields f hdec
  exact ⟨offset, id, j, ⟨hid, hj⟩, hoffset⟩

end Schedule
end BpfLanes
