import BpfLanes.Proofs.Dataflow

/-! # The program that the table holds

The table holds the words that the blocks were parsed from, up to registers and
the offsets of jumps, and every one of them that does something if the program has
a leader. The passes rewrite the program after its blocks were parsed, and it is
parsed again only if bound checks were removed. So the table holds the improved
program exactly if it was parsed again or the passes left its operations alone.
-/

namespace BpfLanes

open Compilation BpfLanes.Flow

variable {i : Instr} {id p : Nat} {w w' : Word}

/-! ## Words -/

/-- A word that does nothing. -/
def IsNop (w : Word) : Prop :=
  ∃ f, Fields.decode w = .ok f ∧ f.isNop = true

/-- The same word, apart from registers and the offset of a jump. -/
def SameButRegisters (w w' : Word) : Prop :=
  ∃ f f', Fields.decode w = .ok f ∧ Fields.decode w' = .ok f' ∧ f'.opcode = f.opcode
    ∧ f'.immediate = f.immediate ∧ (f.isJump = false → f'.offset = f.offset)

theorem SameButRegisters.symm (h : SameButRegisters w w') : SameButRegisters w' w := by
  obtain ⟨f, f', hf, hf', hop, himm, hoff⟩ := h
  refine ⟨f', f, hf', hf, hop.symm, himm.symm, ?_⟩
  intro hj
  rw [Jumps.isJump_of_opcode hop] at hj
  exact (hoff hj).symm

theorem SameButRegisters.trans {w'' : Word} (h : SameButRegisters w w')
    (h' : SameButRegisters w' w'') : SameButRegisters w w'' := by
  obtain ⟨f, f', hf, hf', hop, himm, hoff⟩ := h
  obtain ⟨g, g', hg, hg', hop', himm', hoff'⟩ := h'
  obtain rfl := Except.ok.inj (hf'.symm.trans hg)
  refine ⟨f, g', hf, hg', hop'.trans hop, himm'.trans himm, ?_⟩
  intro hj
  exact (hoff' ((Jumps.isJump_of_opcode hop).trans hj)).trans (hoff hj)

/-- Two words do the same, up to registers, or both do nothing. -/
def SameWork (w w' : Word) : Prop :=
  (IsNop w ↔ IsNop w') ∧ (¬ IsNop w → SameButRegisters w w')

/-! ## Programs in the table -/

/-- The instruction at position `p` is in a slot of the table. -/
def InTable (e : Compilation) (p : Nat) : Prop :=
  ∃ row lane id i, Table.entry e.table row lane = some (some id) ∧ e.store[id]? = some i
    ∧ i.position = some (p : Int)

/-- The table holds words of a program. Those that stand in it are the ones that do
    something, provided that `all` holds. -/
structure Emits (e : Compilation) (words : Array Word) (all : Prop) : Prop where
  slot : ∀ (row lane : Int) (id : Nat) (i : Instr), Table.entry e.table row lane = some (some id) →
    e.store[id]? = some i → ∃ (p : Nat) (w : Word), i.position = some (p : Int)
      ∧ words[p]? = some w ∧ SameButRegisters w i.word
  present : ∀ (p : Nat) (w : Word), words[p]? = some w → (InTable e p ↔ all ∧ ¬ IsNop w)

variable {e : Compilation} {parsed words : Array Word} {all : Prop}

theorem Emits.slot_at (h : Emits e words all) {row lane : Int}
    (hs : Table.entry e.table row lane = some (some id)) (hi : e.store[id]? = some i)
    (hp : i.position = some (p : Int)) (hw : words[p]? = some w) : SameButRegisters w i.word := by
  obtain ⟨q, v, hq, hv, hsame⟩ := h.slot row lane id i hs hi
  obtain rfl : q = p := by
    have := Option.mem_unique hq hp
    omega
  obtain rfl := Option.mem_unique hv hw
  exact hsame

theorem Emits.iff_sameWork (h : Emits e parsed True) (hsize : words.size = parsed.size) :
    Emits e words True ↔ ∀ (p : Nat) (w w' : Word), parsed[p]? = some w → words[p]? = some w' →
      SameWork w w' := by
  constructor
  · intro h' p w w' hw hw'
    have hnop : ¬ IsNop w ↔ ¬ IsNop w' := by
      rw [← true_and (¬ IsNop w), ← true_and (¬ IsNop w'), ← h.present p w hw, ← h'.present p w' hw']
    refine ⟨not_iff_not.mp hnop, ?_⟩
    intro hne
    obtain ⟨row, lane, id, i, hs, hi, hp⟩ := (h.present p w hw).mpr ⟨trivial, hne⟩
    exact (h.slot_at hs hi hp hw).trans (h'.slot_at hs hi hp hw').symm
  · intro hsame
    have hword : ∀ {p : Nat} {w : Word}, parsed[p]? = some w → ∃ w', words[p]? = some w' := by
      intro p w hw
      have hlt := lt_size hw
      exact ⟨words[p], Array.getElem?_eq_getElem (by omega)⟩
    constructor
    · intro row lane id i hs hi
      obtain ⟨p, w, hp, hw, hslot⟩ := h.slot row lane id i hs hi
      obtain ⟨w', hw'⟩ := hword hw
      have hne : ¬ IsNop w := ((h.present p w hw).mp ⟨row, lane, id, i, hs, hi, hp⟩).2
      exact ⟨p, w', hp, hw', ((hsame p w w' hw hw').2 hne).symm.trans hslot⟩
    · intro p w' hw'
      have hlt := lt_size hw'
      have hw : parsed[p]? = some parsed[p] := Array.getElem?_eq_getElem (by omega)
      rw [h.present p _ hw, (hsame p _ w' hw hw').1]

theorem Emits.iff_nops (h : Emits e parsed False) (hsize : words.size = parsed.size) :
    Emits e words True ↔ ∀ (p : Nat) (w : Word), words[p]? = some w → IsNop w := by
  have hempty : ∀ p : Nat, p < parsed.size → ¬ InTable e p := by
    intro p hp hin
    exact ((h.present p _ (Array.getElem?_eq_getElem hp)).mp hin).1
  constructor
  · intro h' p w hw
    by_contra hne
    have hlt := lt_size hw
    exact hempty p (by omega) ((h'.present p w hw).mpr ⟨trivial, hne⟩)
  · intro hnops
    constructor
    · intro row lane id i hs hi
      obtain ⟨p, w, hp, hw, -⟩ := h.slot row lane id i hs hi
      have hlt := lt_size hw
      exact absurd ⟨row, lane, id, i, hs, hi, hp⟩ (hempty p hlt)
    · intro p w hw
      have hlt := lt_size hw
      constructor
      · intro hin
        exact absurd hin (hempty p (by omega))
      · intro hne
        exact absurd (hnops p w hw) hne.2

/-! ## What a compilation puts into the table -/

namespace Schedule

variable {c d : Compilation} {order : List Int} {r : Reach} {n : Nat}

theorem sameButRegisters_of_placed (hd : Progress c order r d) (he : Jumps.Retargeted d e)
    {j : Instr} (hi : c.store[id]? = some i) (hstands : i.StandsFor words p)
    (hj : e.store[id]? = some j) :
    j.position = some (p : Int) ∧ SameButRegisters i.word j.word := by
  obtain ⟨f, hf, -⟩ := hstands.operands
  -- renaming keeps all but registers
  obtain ⟨i₁, hi₁, hop⟩ := hd.store.operation id i hi
  obtain ⟨f₁, hf₁, hopcode, hoffset⟩ := hop.fields f hf
  have himm := hop.immediate f f₁ hf hf₁
  -- counting rows keeps all but the offset of a jump
  obtain ⟨j', hj', hsame⟩ := he.same id i₁ hi₁
  obtain rfl := Option.mem_unique hj' hj
  refine ⟨(hsame.position.trans hop.position).trans hstands.position, ?_⟩
  obtain ⟨o, ho⟩ := hsame.fields f₁ hf₁
  refine ⟨f, { f₁ with offset := o }, hf, ho, hopcode, himm, ?_⟩
  intro hplain
  have hword := hsame.plain f₁ hf₁ ((Jumps.isJump_of_opcode hopcode).trans hplain)
  rw [hword, hf₁] at ho
  rw [← hoffset, Except.ok.inj ho]

variable {b k : Nat} {blk : Block}

theorem active_iff_not_isNop (hc : Laid (fun _ => True) words c) (hb : c.blocks[b]? = some blk)
    (hkind : blk.kind = .basic) (hk : k < blk.body.size)
    (hw : words[blk.start.toNat + k]? = some w) : Active c blk k ↔ ¬ IsNop w := by
  obtain ⟨id, i, f, hid, hi, hstands, hf⟩ := hc.standsFor_index hb hkind hk
  obtain rfl := Option.mem_unique hstands.word hw
  have hfields : FieldsAt c blk k f := ⟨id, i, ⟨Position.get_natCast.mpr hid, hi⟩, hf⟩
  constructor
  · intro hact hnop
    obtain ⟨f₁, hf₁, hact⟩ := hact
    obtain ⟨f₂, hf₂, hnop⟩ := hnop
    obtain rfl := hfields.unique hf₁
    obtain rfl := Except.ok.inj (hf.symm.trans hf₂)
    rw [hact] at hnop
    cases hnop
  · intro hne
    refine ⟨f, hfields, ?_⟩
    rw [Bool.eq_false_iff]
    intro hnop
    exact hne ⟨f, hf, hnop⟩

theorem exists_index_iff (hc : Laid (fun _ => True) words c) (hb : c.blocks[b]? = some blk)
    (hkind : blk.kind = .basic) :
    (∃ k, p = blk.start.toNat + k ∧ k < blk.body.size) ↔ blk.start ≤ p ∧ (p : Int) < blk.stop := by
  have hsize := (hc.holds b blk hb hkind).size
  have hspan := hc.cut.span b blk hb hkind
  have hstop : blk.stop = blk.start + blk.len := rfl
  constructor
  · intro hp
    omega
  · intro hp
    exact ⟨p - blk.start.toNat, by omega, by omega⟩

section
variable (hc : Laid (fun _ => True) words c) (hlists : ListsBlocks c order)
  (hd : Progress c order r d) (he : Jumps.Retargeted d e)
include hc hlists hd he

theorem inTable_iff :
    InTable e p ↔ ∃ (b : Nat) (blk : Block) (k : Nat), c.blocks[b]? = some blk
      ∧ blk.kind = .basic ∧ p = blk.start.toNat + k ∧ k < blk.body.size ∧ Active c blk k := by
  have hall := allPlaced_of_retargeted hc hlists hd he
  constructor
  · rintro ⟨row, lane, id, j, hs, hj, hposition⟩
    obtain ⟨b, blk, k, hb, hkind, hk, hstandsAt⟩ := hall.standsAt hs
    have hlt : k < blk.body.size := lt_size hk
    obtain ⟨i, hi, hstands, -⟩ := (hc.holds b blk hb hkind).instr k id hk
    obtain ⟨hposition', -⟩ := sameButRegisters_of_placed hd he hi hstands hj
    have hp := Option.mem_unique hposition hposition'
    exact ⟨b, blk, k, hb, hkind, by omega, hlt,
      (hall.finished b blk hb hkind).active k row lane hlt hstandsAt⟩
  · rintro ⟨b, blk, k, hb, hkind, rfl, hlt, hact⟩
    obtain ⟨id, i, f, hk, hi, hstands, hf⟩ := hc.standsFor_index hb hkind hlt
    obtain ⟨row, lane, hstandsAt⟩ := (hall.finished b blk hb hkind).placed k hlt hact
    obtain ⟨i₁, hi₁, _⟩ := hd.store.operation id i hi
    obtain ⟨j, hj, _⟩ := he.same id i₁ hi₁
    obtain ⟨hposition, -⟩ := sameButRegisters_of_placed hd he hi hstands hj
    exact ⟨row, lane, id, j, hall.slot hb hkind hk hstandsAt, hj, hposition⟩

theorem emits_of_placed (hcovered : Covered words c.blocks) :
    Emits e words (HasLeader words) := by
  have hall := allPlaced_of_retargeted hc hlists hd he
  constructor
  · intro row lane id j hs hj
    obtain ⟨b, blk, k, hb, hkind, hk, -⟩ := hall.standsAt hs
    obtain ⟨i, hi, hstands, -⟩ := (hc.holds b blk hb hkind).instr k id hk
    obtain ⟨hposition, hsame⟩ := sameButRegisters_of_placed hd he hi hstands hj
    exact ⟨_, i.word, hposition, hstands.word, hsame⟩
  · intro p w hw
    have hp : p < words.size := lt_size hw
    rw [← hcovered p hp, inTable_iff hc hlists hd he]
    constructor
    · rintro ⟨b, blk, k, hb, hkind, rfl, hk, hact⟩
      obtain ⟨hlow, hhigh⟩ := (exists_index_iff hc hb hkind).mp ⟨k, rfl, hk⟩
      exact ⟨⟨b, blk, hb, hkind, hlow, hhigh⟩, (active_iff_not_isNop hc hb hkind hk hw).mp hact⟩
    · rintro ⟨⟨b, blk, hb, hkind, hlow, hhigh⟩, hne⟩
      obtain ⟨k, rfl, hk⟩ := (exists_index_iff hc hb hkind).mpr ⟨hlow, hhigh⟩
      exact ⟨b, blk, k, hb, hkind, rfl, hk, (active_iff_not_isNop hc hb hkind hk hw).mpr hne⟩

end

end Schedule

/-- What the table holds in the end. It is the program that the blocks were parsed
    from: the improved one if bound checks were asked to be removed, else the source.
    So the table is the improved program exactly if that program does, position by
    position, the work of the parsed one; or, if the parsed one has no leader and so
    nothing stands in the table, exactly if the improved one does nothing. -/
theorem table_is_improved_program_iff {target : Target} {options : Options} {words : Array Word}
    {texts : Array String} (hwords : NoJumpBefore words) {e : Compilation}
    (hrun : Runs Optimize.run (start target options words texts) () e) :
    ∃ parsed, parsed = (if options.removeBoundChecks then e.words else words)
      ∧ e.words.size = words.size
      ∧ Emits e parsed (HasLeader parsed)
      ∧ (HasLeader parsed → (Emits e e.words True ↔
          ∀ (p : Nat) (w w' : Word), parsed[p]? = some w → e.words[p]? = some w' → SameWork w w'))
      ∧ (¬ HasLeader parsed → (Emits e e.words True ↔
          ∀ (p : Nat) (w : Word), e.words[p]? = some w → IsNop w)) := by
  obtain ⟨c, d₀, d, _, order, r, hprep, hready, -, -, hlists, hd, hrows⟩ :=
    Optimize.runs_run hwords hrun
  obtain ⟨parsed, fresh, marked, -, ⟨hparsed, hsize⟩, hprepared, -⟩ :=
    Optimize.runs_prepare (Optimize.uncut_start hwords) hprep
  have hewords : e.words = c.words := by
    have hdwords : d.words = c.words := by rw [hd.frame]
    rw [hrows.retargeted.rest]
    exact hdwords
  have hemits : Emits e parsed (HasLeader parsed) :=
    Schedule.emits_of_placed hprepared.blocks hlists hd hrows.retargeted hprepared.covered_blocks
  have hsize' : e.words.size = parsed.size := by
    rw [hewords, hparsed]
    split
    · rfl
    · exact hsize
  refine ⟨parsed, ?_, ?_, hemits, ?_, ?_⟩
  · rw [hparsed, hewords]
    rfl
  · rw [hewords]
    exact hsize
  · intro hlead
    exact Emits.iff_sameWork (by rwa [eq_true hlead] at hemits) hsize'
  · intro hno
    exact Emits.iff_nops (by rwa [eq_false hno] at hemits) hsize'

/-- A jump to the next instruction, and a result that is fused into the exit behind it. -/
def fusedExit : Array Word :=
  #[0x0500000000000000, 0xb700000001000000, 0x9500000000000000]

/-- The improved program exits with its result, but the table still moves the result
    into a register first. -/
theorem table_is_improved_program_iff_fusedExit :
    ∃ e, Runs Optimize.run (Schedule.quietStart fusedExit) () e ∧ NoJumpBefore fusedExit
      ∧ HasLeader fusedExit ∧ e.words[1]? = some 0x9600000001000000
      ∧ Emits e fusedExit True ∧ ¬ Emits e e.words True := by
  have he := runs_after (m := Optimize.run) (s := Schedule.quietStart fusedExit) (by decide +kernel)
  have hword : (stateAfter Optimize.run (Schedule.quietStart fusedExit)).words[1]?
      = some 0x9600000001000000 := by decide +kernel
  generalize stateAfter Optimize.run (Schedule.quietStart fusedExit) = e at *
  have hwords : NoJumpBefore fusedExit := by decide +kernel
  have hlead : HasLeader fusedExit := ⟨0, _, ⟨_, rfl, rfl⟩, Or.inl (by decide +kernel)⟩
  obtain ⟨parsed, hparsed, -, hemits, hiff, -⟩ := table_is_improved_program_iff hwords he
  obtain rfl : parsed = fusedExit := hparsed
  refine ⟨e, he, hwords, hlead, hword, by rwa [eq_true hlead] at hemits, ?_⟩
  intro h
  have hsame := (hiff hlead).mp h 1 0xb700000001000000 _ rfl hword
  have hmove : ∀ f, Fields.decode 0xb700000001000000 = .ok f → f.opcode = 0xb7 := by
    intro f hf
    obtain rfl := (Word.decode_eq_ok_iff.mp hf).2
    decide +kernel
  have hexit : ∀ f, Fields.decode 0x9600000001000000 = .ok f → f.opcode = 0x96 := by
    intro f hf
    obtain rfl := (Word.decode_eq_ok_iff.mp hf).2
    decide +kernel
  have hwork : ¬ IsNop 0xb700000001000000 := by
    intro hnop
    obtain ⟨f, hf, hnop⟩ := hnop
    have hopcode : f.opcode = Opcode.nop := by simpa [Fields.isNop] using hnop
    rw [hmove f hf] at hopcode
    exact absurd hopcode (by decide)
  obtain ⟨f, f', hf, hf', hopcode, -⟩ := hsame.2 hwork
  rw [hmove f hf, hexit f' hf'] at hopcode
  exact absurd hopcode (by decide)

end BpfLanes
