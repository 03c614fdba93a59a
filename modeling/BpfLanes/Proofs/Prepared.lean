import BpfLanes.Proofs.Annotations
import BpfLanes.Proofs.BlockPartition
import BpfLanes.Proofs.FlowFrame
import BpfLanes.Proofs.Passes

/-! # A program before its blocks are placed

A program is cut into blocks, improved, and cut again if bound checks were
removed. Whatever is asked for, the blocks that are placed in the end are those of
a program whose jumps are jumps of the source.
-/

namespace BpfLanes.Removal

open Compilation Peephole

/-! ## The instructions of a program -/

/-- The instructions that the recognisers read. -/
def shown (c : Compilation) : List Instr :=
  (c.blocks.toList.filter fun b => b.kind = .basic).flatMap c.bodyOf

/-- The recognisers after they read the program. -/
def recognised (c : Compilation) : Except Fault Watchers := (shown c).foldlM Watchers.read {}

theorem advanced_eq : advanced = (do
    let c ← get
    let w ← (recognised c : Except Fault Watchers)
    applyAll w.replacements) := rfl

section
variable {Q : Instr → Prop} {words : Array Word} {c : Compilation}

open BpfLanes.Flow

section
variable (h : Laid Q words c)
include h

theorem shown_ascending :
    ∃ positions : List Int, (shown c).map Instr.position = positions.map some
      ∧ positions.Pairwise (· < ·) := by
  refine ⟨_, Eq.trans ?_ h.listedPositions_eq, h.cut.spans_ascending⟩
  exact List.map_flatMap

theorem standsFor_of_shown {i : Instr} (hi : i ∈ shown c) :
    ∃ p, i.StandsFor words p := by
  obtain ⟨blk, hblk, hi⟩ := List.mem_flatMap.mp hi
  obtain ⟨hmem, hkind⟩ := List.mem_filter.mp hblk
  obtain ⟨b, hb⟩ := List.mem_iff_getElem?.mp hmem
  obtain ⟨k, hk⟩ := List.mem_iff_getElem?.mp hi
  have hb : c.blocks[b]? = some blk := by simpa using hb
  have hkind : blk.kind = .basic := by simpa using hkind
  rw [h.bodyOf_getElem? hb hkind] at hk
  obtain ⟨id, hid, hi⟩ := Option.bind_eq_some_iff.mp hk
  obtain ⟨j, hj, hstands, _⟩ := (h.holds b blk hb hkind).instr k id hid
  obtain rfl := Option.mem_unique hi hj
  exact ⟨_, hstands⟩

theorem fed_of_recognised {w : Watchers} (hproper : ∀ i ∈ shown c, Word.Proper i.word)
    (hw : recognised c = .ok w) :
    ∃ fed, Distinct fed ∧ w.Fed fed
      ∧ ∀ x ∈ fed, ∃ i ∈ shown c, i.word = x.1 ∧ i.position = some x.2 := by
  obtain ⟨fed, hlist, hfed⟩ := Watchers.fed_of_read hw
  have hshown : ∀ x ∈ fed, ∃ i ∈ shown c, i.word = x.1 ∧ i.position = some x.2 := by
    intro x hx
    have hmem : (x.1, some x.2) ∈ (shown c).map fun i => (i.word, i.position) :=
      hlist ▸ List.mem_map_of_mem hx
    obtain ⟨i, hi, hpair⟩ := List.mem_map.mp hmem
    exact ⟨i, hi, Prod.mk.inj hpair⟩
  refine ⟨fed, ⟨?_, ?_⟩, hfed, hshown⟩
  · intro x hx
    obtain ⟨i, hi, hword, _⟩ := hshown x hx
    exact hword ▸ hproper i hi
  · obtain ⟨positions, hpositions, hascending⟩ := shown_ascending h
    have hsame : (fed.map Prod.snd).map some = positions.map some := by
      rw [← hpositions, List.map_map]
      have hsnd := congrArg (List.map Prod.snd) hlist
      simpa [Function.comp_def] using hsnd.symm
    rw [List.map_injective_iff.mpr (Option.some_injective Int) hsame]
    exact hascending.imp fun hlt => ne_of_lt hlt

/-- A replacement that goes straight on. It stands for a load or a store of a program, or it
    drops a constant. -/
def Asked (words : Array Word) (e : Entry) : Prop :=
  Word.Straight e.word ∧ ∃ (q : Nat) (f : Fields), e.id = q ∧ WordAt words q f
    ∧ (f.IsAccess ∨ f.isMoveImmediate = true ∧ e.word = Word.nop)

theorem asked_of_recognised {w : Watchers} (hw : recognised c = .ok w) {e : Entry}
    (he : e ∈ w.replacements) : Asked words e := by
  have hdecode : ∀ i ∈ shown c, ∃ p f, i.StandsFor words p ∧ Fields.decode i.word = .ok f := by
    intro i hi
    obtain ⟨p, hstands⟩ := standsFor_of_shown h hi
    obtain ⟨f, hf, _⟩ := hstands.operands
    exact ⟨p, f, hstands, hf⟩
  obtain ⟨fed, hfed, hread, hshown⟩ := fed_of_recognised h (fun i hi => by
    obtain ⟨_, _, _, hf⟩ := hdecode i hi
    exact (Word.decode_eq_ok_iff.mp hf).1) hw
  obtain ⟨hstraight, x, hx, hkind⟩ := hread.asked hfed he
  obtain ⟨i, hi, rfl, hposition⟩ := hshown _ hx
  obtain ⟨q, f, hstands, hf⟩ := hdecode i hi
  obtain ⟨_, rfl⟩ := Word.decode_eq_ok_iff.mp hf
  exact ⟨hstraight, q, _, Option.mem_unique hposition hstands.position, ⟨_, hstands.word, hf⟩, hkind⟩

end

end
end BpfLanes.Removal

namespace BpfLanes.Optimize

open Compilation BpfLanes.Flow

variable {source words : Array Word} {s c fresh marked : Compilation}

/-- Everything that comes before the blocks are placed. -/
def prepare : CompileM Unit := do
  improve
  let options := (← get).options
  onRequest options.removeBoundChecks recut
  onRequest options.printBeforeSchedule printBlocks

theorem run_eq : run = (do
    prepare
    Schedule.placeAll
    printSummary
    Jumps.retargetAll) := by
  unfold run layOut prepare
  simp only [bind_assoc]

/-- What comes between cutting a program and finding its live registers. -/
def polish (options : Options) : CompileM Unit := do
  onRequest options.printBeforeOptimize printBlocks
  onRequest options.drawFlow Flow.draw
  Fusion.fuseAll

/-- What comes before copies and zero fills are looked for. -/
def beforeReplacing (options : Options) : CompileM Unit := do
  Flow.analyse
  polish options
  Liveness.analyse
  onRequest options.removeBoundChecks do
    let _ ← BoundCheck.removeAll
    pure ()

theorem improve_eq : improve = (do
    let options := (← get).options
    beforeReplacing options
    onRequest options.advanced Removal.advanced
    onRequest (!options.removeBoundChecks) Removal.advanced) := by
  unfold improve beforeReplacing polish
  simp only [bind_assoc]

theorem keeps_onRequest {I : Compilation → Prop} {asked : Bool} {m : CompileM Unit}
    (h : Keeps I m) : Keeps I (onRequest asked m) :=
  keeps_ite h (keeps_pure _)

/-! ## Frames -/

theorem rewritten_refl (h : JumpsFrom source s.words) : Rewritten source s s :=
  ⟨rfl, h, rfl⟩

theorem laid_of_rewritten {Q : Instr → Prop} (h : Rewritten source s c) (hs : Laid Q words s) :
    Laid Q words c := by
  have hstore : c.store = s.store := by rw [h.rest]
  have hblocks : c.blocks = s.blocks := by rw [h.rest]
  have hsched : c.schedule = s.schedule := by rw [h.rest]
  have hflow : c.flow = s.flow := by rw [h.rest]
  refine ⟨hblocks ▸ hs.cut, ?_, hsched ▸ hs.size, hsched ▸ hs.fresh, ?_⟩
  · intro b blk hblk hkind
    rw [hblocks] at hblk
    exact (hs.holds b blk hblk hkind).congr hstore hblocks hsched
  · rw [hflow, hblocks]
    exact hs.flow

theorem charted_of_rewritten (h : Rewritten source s c) (hs : Charted words s) :
    Charted words c := by
  have hstore : c.store = s.store := by rw [h.rest]
  have hblocks : c.blocks = s.blocks := by rw [h.rest]
  have hflow : c.flow = s.flow := by rw [h.rest]
  refine ⟨⟨laid_of_rewritten h hs.analysed.laid, hblocks ▸ hs.analysed.endToEnd, ?_,
    hblocks ▸ hs.analysed.last, ?_⟩, hblocks ▸ hs.entry, hblocks ▸ hs.between, hblocks ▸ hs.exit⟩
  · intro b blk hblk
    have hlinked := hs.analysed.linked b blk (hblocks ▸ hblk)
    refine ⟨hlinked.call, fun hkind => ?_⟩
    rw [hstore, hblocks]
    exact hlinked.basic hkind
  · rw [hflow, hblocks]
    exact hs.analysed.flow

theorem NoJumpBefore.of_jumpsFrom (h : JumpsFrom source words) (hs : NoJumpBefore source) :
    NoJumpBefore words := by
  intro p w f hw hf hj
  exact hs p w f (h p w f hw hf hj) hf hj

theorem keeps_advanced {Q : Instr → Prop} (hs : Laid Q words s) :
    Keeps (Rewritten source s) Removal.advanced := by
  refine gives_bind (gives_get fun c hc => hc) fun c hc => ?_
  refine gives_bind (gives_lift fun w hw => hw) fun w hw => keeps_applyAll fun e he => ?_
  exact (Removal.asked_of_recognised (laid_of_rewritten hc hs) hw he).1.noJump

theorem keeps_polish {options : Options} :
    Keeps (Rewritten source s) (polish options) := by
  apply keeps_bind (keeps_onRequest (keeps_printBlocks rewritten_inert))
  intro _
  exact keeps_bind (keeps_onRequest (keeps_draw rewritten_inert)) fun _ => keeps_fuseAll

/-- Table, live ranges, machine and requests are still those of `s`. -/
structure SameSetting (s c : Compilation) : Prop where
  table : c.table = s.table
  ranges : c.ranges = s.ranges
  target : c.target = s.target
  options : c.options = s.options

theorem SameSetting.trans {t : Compilation} (h : SameSetting s t) (h' : SameSetting t c) :
    SameSetting s c :=
  ⟨h'.table.trans h.table, h'.ranges.trans h.ranges, h'.target.trans h.target,
    h'.options.trans h.options⟩

theorem sameSetting_of_rewritten (h : Rewritten source s c) : SameSetting s c := by
  rw [h.rest]
  exact ⟨rfl, rfl, rfl, rfl⟩

theorem sameSetting_of_relabelled (h : Relabelled s c) : SameSetting s c := by
  rw [h.rest]
  exact ⟨rfl, rfl, rfl, rfl⟩

/-! ## Preparing -/

/-- What a compilation has once its blocks are known. They are those of `words`, as
    they were before (`fresh`) and after (`marked`) the last search for live registers. -/
structure Prepared (words : Array Word) (fresh marked c : Compilation) : Prop where
  laid : Laid Instr.Unmarked words fresh
  covered : Covered words fresh.blocks
  charted : HasLeader words → Charted words fresh
  sound : ∃ old, Flow.Sound old fresh.blocks.size fresh ∧
    fresh.flow = some (Flow.graphOf fresh.blocks.toList)
  filled : ∀ blk ∈ fresh.blocks, blk.kind = .basic ∨ Unfilled blk
  liveness : Runs Liveness.analyse fresh () marked
  rewritten : ∃ source, Rewritten source marked c

theorem Prepared.step {d : Compilation} (h : Prepared words fresh marked c)
    (hd : Rewritten source c d) : Prepared words fresh marked d := by
  obtain ⟨_, hc⟩ := h.rewritten
  refine ⟨h.laid, h.covered, h.charted, h.sound, h.filled, h.liveness, source,
    hd.size.trans hc.size, hd.jumps, ?_⟩
  rw [hd.rest, hc.rest]

theorem Prepared.blocks (h : Prepared words fresh marked c) : Laid (fun _ => True) words c := by
  obtain ⟨_, hc⟩ := h.rewritten
  have hmarked := (keeps_liveness h.laid.closed).runs h.liveness (Relabelled.refl fresh)
  exact laid_of_rewritten hc (hmarked.laid h.laid)

variable {d : Compilation} {u : Unit}

theorem runs_analyse_frame (hs : Uncut s) (h : Runs Flow.analyse s u c) :
    Laid Instr.Unmarked s.words c ∧ Covered s.words c.blocks
      ∧ (HasLeader s.words → Charted s.words c) ∧ c.words = s.words ∧ SameSetting s c := by
  obtain ⟨hlaid, hrest⟩ := runs_analyse hs h
  refine ⟨hlaid, covered_of_analyse hs h, ?_, ?_, ?_⟩
  · intro hlead
    exact charted_of_analyse hs hlead h
  · rw [hrest]
  · rw [hrest]
    exact ⟨rfl, rfl, rfl, rfl⟩

theorem prepared_of_analyse {c₁ c₂ : Compilation} {u u' : Unit} (hs : Uncut s)
    (h₁ : Runs Flow.analyse s u c₁) (h₂ : Rewritten source c₁ c₂)
    (h₃ : Runs Liveness.analyse c₂ u' c) :
    Prepared s.words c₂ c c ∧ c.words = c₂.words ∧ SameSetting s c := by
  obtain ⟨hlaid, hcovered, hcharted, -, hset⟩ := runs_analyse_frame hs h₁
  have hlaid₂ := laid_of_rewritten h₂ hlaid
  have hc := (keeps_liveness hlaid₂.closed).runs h₃ (Relabelled.refl c₂)
  have hwords : c.words = c₂.words := by rw [hc.rest]
  have hblocks : c₂.blocks = c₁.blocks := by rw [h₂.rest]
  obtain ⟨hsound, hflow⟩ := Flow.sound_of_analyse hs.blocks h₁
  refine ⟨⟨hlaid₂, hblocks ▸ hcovered, fun hlead => charted_of_rewritten h₂ (hcharted hlead),
    ⟨_, hsound.congr hblocks (by rw [h₂.rest]), by rw [h₂.rest]; exact hflow⟩,
    hblocks ▸ fun _ => basic_or_unfilled hs h₁, h₃, source, rewritten_refl (hwords ▸ h₂.jumps)⟩, hwords,
    (hset.trans (sameSetting_of_rewritten h₂)).trans (sameSetting_of_relabelled hc)⟩

theorem runs_beforeReplacing {options : Options} (hs : Uncut s)
    (h : Runs (beforeReplacing options) s u c) :
    (∃ fresh marked, Prepared s.words fresh marked c) ∧ JumpsFrom s.words c.words ∧
      c.words.size = s.words.size ∧ SameSetting s c := by
  unfold beforeReplacing at h
  obtain ⟨_, c₁, hr₁, h⟩ := runs_bind.mp h
  have hwords : c₁.words = s.words := (runs_analyse_frame hs hr₁).2.2.2.1
  obtain ⟨_, c₂, hr₂, h⟩ := runs_bind.mp h
  have hw₂ : Rewritten s.words c₁ c₂ :=
    keeps_polish.runs hr₂ (rewritten_refl (hwords ▸ JumpsFrom.refl _))
  obtain ⟨_, c₃, hr₃, h⟩ := runs_bind.mp h
  obtain ⟨hprep, hwords₃, hset⟩ := prepared_of_analyse hs hr₁ hw₂ hr₃
  have hw := (keeps_onRequest (keeps_bind keeps_removeAll fun _ => keeps_pure _)).runs h
    (rewritten_refl (hwords₃ ▸ hw₂.jumps))
  refine ⟨⟨c₂, c₃, hprep.step hw⟩, hw.jumps, ?_, hset.trans (sameSetting_of_rewritten hw)⟩
  rw [hw.size, hwords₃, hw₂.size, hwords]

theorem runs_improve (hs : Uncut s) (h : Runs improve s u c) :
    (∃ fresh marked, Prepared s.words fresh marked c) ∧ JumpsFrom s.words c.words ∧
      c.words.size = s.words.size ∧ SameSetting s c := by
  rw [improve_eq, runs_get_bind] at h
  obtain ⟨_, c₁, hr₁, h⟩ := runs_bind.mp h
  obtain ⟨⟨fresh, marked, hprep⟩, hjumps, hsize, hset⟩ := runs_beforeReplacing hs hr₁
  have hw := (keeps_bind (keeps_onRequest (keeps_advanced hprep.blocks)) fun _ =>
    keeps_onRequest (keeps_advanced hprep.blocks)).runs h (rewritten_refl hjumps)
  exact ⟨⟨fresh, marked, hprep.step hw⟩, hw.jumps, hw.size.trans hsize,
    hset.trans (sameSetting_of_rewritten hw)⟩

theorem runs_recut (hjumps : NoJumpBefore c.words) (h : Runs recut c u d) :
    (∃ fresh marked, Prepared c.words fresh marked d) ∧ d.words = c.words ∧ SameSetting c d := by
  unfold recut Flow.restart at h
  rw [runs_modify_bind] at h
  obtain ⟨_, c₁, hr₁, h⟩ := runs_bind.mp h
  have huncut : Uncut { c with
      branches := {}, blocks := #[Block.entry], schedule := unplaced c.words.size } :=
    ⟨hjumps, rfl, rfl, rfl⟩
  have hwords : c₁.words = c.words := (runs_analyse_frame huncut hr₁).2.2.2.1
  obtain ⟨hprep, hwords', hset⟩ :=
    prepared_of_analyse huncut hr₁ (rewritten_refl (JumpsFrom.refl _)) h
  exact ⟨⟨_, _, hprep⟩, hwords'.trans hwords, ⟨hset.1, hset.2, hset.3, hset.4⟩⟩

theorem runs_prepare (hs : Uncut s) (h : Runs prepare s u c) :
    ∃ words fresh marked, JumpsFrom s.words words ∧
      (words = (if s.options.removeBoundChecks then c.words else s.words) ∧
        c.words.size = s.words.size) ∧
      Prepared words fresh marked c ∧ SameSetting s c := by
  unfold prepare at h
  obtain ⟨_, c₁, hr₁, h⟩ := runs_bind.mp h
  obtain ⟨⟨fresh, marked, hprep⟩, hjumps, hsize, hset⟩ := runs_improve hs hr₁
  rw [runs_get_bind] at h
  obtain ⟨_, c₂, hr₂, h⟩ := runs_bind.mp h
  have hc : Rewritten c₂.words c₂ c :=
    (keeps_onRequest (keeps_printBlocks rewritten_inert)).runs h (rewritten_refl (JumpsFrom.refl _))
  have hwords : c.words = c₂.words :=
    (keeps_onRequest (keeps_printBlocks (I := fun t => t.words = c₂.words)
      fun _ _ _ _ _ _ ht => ht)).runs h rfl
  have hoptions : c₁.options.removeBoundChecks = s.options.removeBoundChecks := by rw [hset.options]
  unfold onRequest at hr₂
  split at hr₂
  · next hasked =>
    obtain ⟨⟨fresh, marked, hprep⟩, hwords₂, hset'⟩ :=
      runs_recut (NoJumpBefore.of_jumpsFrom hjumps hs.inside) hr₂
    refine ⟨c₁.words, fresh, marked, hjumps, ⟨?_, ?_⟩, hprep.step hc,
      (hset.trans hset').trans (sameSetting_of_rewritten hc)⟩
    · rw [if_pos (hoptions ▸ hasked), hwords, hwords₂]
    · rw [hwords, hwords₂, hsize]
  · next hasked =>
    obtain ⟨_, rfl⟩ := runs_pure.mp hr₂
    refine ⟨s.words, fresh, marked, JumpsFrom.refl _, ⟨?_, ?_⟩, hprep.step hc,
      hset.trans (sameSetting_of_rewritten hc)⟩
    · rw [if_neg (hoptions ▸ hasked)]
    · rw [hwords, hsize]

section
variable (h : Prepared words fresh marked c)
include h

theorem Prepared.outlines : c.blocks.map outline = fresh.blocks.map outline := by
  obtain ⟨_, hc⟩ := h.rewritten
  have hblocks : c.blocks = marked.blocks := by rw [hc.rest]
  have hmarked := (keeps_liveness h.laid.closed).runs h.liveness (Relabelled.refl fresh)
  exact hblocks ▸ hmarked.outlines

theorem Prepared.flow : c.flow = fresh.flow := by
  obtain ⟨_, hc⟩ := h.rewritten
  have hmarked := (keeps_liveness h.laid.closed).runs h.liveness (Relabelled.refl fresh)
  rw [hc.rest, hmarked.rest]

theorem Prepared.covered_blocks : Covered words c.blocks :=
  h.covered.of_outlines h.outlines

theorem Prepared.hasLeader {b : Nat} {blk : Block} (hb : c.blocks[b]? = some blk)
    (hkind : blk.kind = .basic) : HasLeader words := by
  obtain ⟨hlow, hlt, hhigh⟩ := h.blocks.cut.span b blk hb hkind
  apply (h.covered_blocks blk.start.toNat (by omega)).mp
  exact ⟨b, blk, hb, hkind, by omega, by omega⟩

end

end BpfLanes.Optimize
