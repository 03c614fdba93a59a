import BpfLanes.Proofs.DroppedUses
import BpfLanes.Proofs.StackMachine

/-! # What the removal of bound checks leaves behind

When bound checks are removed, the instructions that were marked do nothing
afterwards, and no others: the walk along the uses of a dropped value only drops what
is marked itself. It never asks whether the value is read elsewhere. So a value that
is still read is gone exactly if it was set by a marked instruction and is read by one
that is not marked.
-/

namespace BpfLanes

open Compilation BpfLanes.Flow Optimize Removal

variable {flow words : Array Word} {c d s : Compilation} {f : Fields} {p r : Int} {q : Nat}
  {group : Peephole.Group} {u : Unit}

namespace BoundCheck

/-! ## Values and their readers -/

/-- Sets a register, which an instruction that does nothing never does. -/
def Defines (f : Fields) (r : Int) : Prop := f.isNop = false ∧ f.sets r = true

/-- Control as in `flow` may come to a position with the value that the instruction at
    `p` has set in a register. -/
inductive Carried (flow words : Array Word) (r : Int) (p : Nat) : Nat → Prop where
  | set {q : Nat} {f : Fields} (hw : WordAt words p f) (hset : Defines f r)
      (hpass : Passes flow p q) : Carried flow words r p q
  | on {q q' : Nat} {f : Fields} (h : Carried flow words r p q) (hw : WordAt words q f)
      (hkeep : ¬ Defines f r) (hpass : Passes flow q q') : Carried flow words r p q'

/-- The value that the instruction at `p` has set in a register is read at `q`. -/
def Reaches (flow words : Array Word) (r : Int) (p q : Nat) : Prop :=
  Carried flow words r p q ∧ ∃ f, WordAt words q f ∧ r ∈ f.reads

/-- No value that is still read was set by an instruction that does nothing any more. -/
def NoDanglingRead (flow before after : Array Word) : Prop :=
  ∀ r p q, Reaches flow before r p q → after[q]? ≠ some Word.nop → after[p]? ≠ some Word.nop

/-- The positions that are marked. -/
def marked : Option Found → List Int
  | none => []
  | some x => x.group.map Peephole.Entry.id

theorem mem_marked_iff {found : Option Found}
    (h : d.words[q]? = if (q : Int) ∈ marked found then some Word.nop else c.words[q]?)
    (hq : c.words[q]? ≠ some Word.nop) : (q : Int) ∈ marked found ↔ d.words[q]? = some Word.nop := by
  rw [h]
  split <;> simp_all

theorem Carried.defines {p : Nat} (h : Carried flow words r p q) :
    ∃ f, WordAt words p f ∧ Defines f r := by
  induction h with
  | set hw hset => exact ⟨_, hw, hset⟩
  | on _ _ _ _ ih => exact ih

theorem Reaches.ne_nop {p : Nat} (h : Reaches flow words r p q) :
    words[p]? ≠ some Word.nop ∧ words[q]? ≠ some Word.nop := by
  have hnop : ∀ (p : Nat) (f : Fields), WordAt words p f → words[p]? = some Word.nop →
      f = ⟨0, 0, 0, 0, 0⟩ := by
    rintro p f ⟨w, hw, hf⟩ hp
    obtain rfl := Option.mem_unique hw hp
    exact Except.ok.inj (hf.symm.trans (by decide +kernel))
  obtain ⟨hcarried, f, hf, hread⟩ := h
  obtain ⟨g, hg, hset⟩ := hcarried.defines
  constructor
  · intro hp
    obtain rfl := hnop p g hg hp
    exact absurd hset.1 (by decide)
  · intro hq
    obtain rfl := hnop q f hf hq
    cases hread

theorem Part.inputs {i : Instr} (h : Part i f) :
    f.inputs.Nodup ∨ f.output? = none ∧ f.isCall = false := by
  by_cases hboth : f.opcode ∈ Opcode.readsBoth
  · have hall : ∀ o ∈ Opcode.readsBoth, (o == Opcode.move) = false
        ∧ Opcode.loadBits.lookup o = none ∧ Opcode.addImmediate.contains o = false
        ∧ (o == Opcode.moveImmediate) = false ∧ (Opcode.greaterJumps.contains o = true →
          Opcode.writesNothing.contains o = true ∧ (o == Opcode.call) = false) := by decide
    obtain ⟨hmove, hload, hadd, himmediate, hcheck⟩ := hall f.opcode hboth
    cases h with
    | context h => exact absurd h (by simp [Fields.isMove, hmove])
    | load h => exact absurd h (by simp [Fields.loadBits?, hload])
    | address h => exact absurd h (by simpa [Fields.isAddImmediate] using hadd)
    | check h => exact .inr ⟨if_pos (hcheck h).1, (hcheck h).2⟩
    | drop h => exact absurd h (by simp [Fields.isMoveImmediate, himmediate])
  · exact .inl (Fields.inputs_of_not_readsBoth (by simpa using hboth))

/-! ## Applying the marks -/

section
variable {copy : Option Instr} (hs : Readable words s) (hmarks : Marks s copy group)
include hs hmarks

theorem Marks.part (hp : p ∈ group.map Peephole.Entry.id) :
    ∃ (q : Nat) (b : Int) (blk : Block) (i : Instr) (f : Fields), p = q ∧ i ∈ s.bodyOf blk
      ∧ i.StandsFor words q ∧ Fields.decode i.word = .ok f ∧ Part i f
      ∧ (copy = some i ∨ Compares s b blk) := by
  obtain ⟨e, he, rfl⟩ := List.mem_map.mp hp
  obtain ⟨_, b, blk, n, i, f, hb, ⟨id, hid, hi⟩, hpos, hf, hpart, hwhy⟩ := hmarks.entry e he
  obtain ⟨b', _, hb'⟩ := Position.get_eq_ok_iff.mp hb
  obtain ⟨k, _, hk⟩ := Position.get_eq_ok_iff.mp hid
  obtain ⟨hbody, hstands, _⟩ := hs.index hb' hk hi
  exact ⟨_, b, blk, i, f, Option.mem_unique hpos hstands.position, List.mem_of_getElem? hbody,
    hstands, hf, hpart, hwhy⟩

theorem Marks.readsOnce : ReadsOnce words group := by
  intro q f hq hw
  obtain ⟨q', _, _, i, g, hq', _, hi, hg, hpart, _⟩ := hmarks.part hs hq
  obtain rfl := Int.ofNat.inj hq'
  obtain rfl := hw.unique ⟨_, hi.word, hg⟩
  exact hpart.inputs

theorem changed_of_apply (hc : SameRecords s c) {e : Peephole.Entry}
    (he : e ∈ group) (hq : e.id = q) (h : Runs (apply group e) c u d) :
    Changed (Dropped group) c d ∧ d.words[q]? = some Word.nop := by
  have hword : e.word = Word.nop := by rw [(hmarks.entry e he).1]; rfl
  obtain ⟨hchanged, hsettled⟩ :=
    apply_spec hs (hmarks.readsOnce hs) he hq hc (fun _ _ _ => hword) h
  constructor
  · refine hchanged.mono ?_
    rintro p word text (hdropped | ⟨e', he', hp, rfl, rfl⟩)
    · exact hdropped
    · obtain rfl := List.mem_singleton.mp he'
      refine ⟨hp ▸ List.mem_map_of_mem he, hword, ?_⟩
      rw [(hmarks.entry e' he).1]
      rfl
  · cases hsettled with
    | dropped h => exact h
    | written h => exact hword ▸ h

theorem changed_of_forM_apply {es : List Peephole.Entry} (hes : ∀ e ∈ es, e ∈ group)
    (hc : SameRecords s c) (h : Runs (es.forM fun e => apply group e) c u d) :
    Changed (Dropped group) c d ∧ ∀ e ∈ es, ∀ q : Nat, e.id = q → d.words[q]? = some Word.nop := by
  induction es generalizing c with
  | nil =>
    obtain ⟨_, rfl⟩ := runs_pure.mp h
    exact ⟨.refl _, by simp⟩
  | cons e es ih =>
    obtain ⟨_, c₁, he, hrest⟩ := runs_bind.mp h
    have hmem := hes e List.mem_cons_self
    obtain ⟨p, _, _, _, _, hp, -⟩ := hmarks.part hs (List.mem_map_of_mem hmem)
    obtain ⟨hchanged, hnop⟩ := changed_of_apply hs hmarks hc hmem hp he
    obtain ⟨hchanged', hnops⟩ := ih (fun e' he' => hes e' (List.mem_cons_of_mem _ he'))
      (hc.trans hchanged.records) hrest
    refine ⟨hchanged.trans hchanged', fun e' he' q hq => ?_⟩
    rcases List.mem_cons.mp he' with rfl | he'
    · obtain rfl := Int.ofNat.inj (hp.symm.trans hq)
      exact hchanged'.nop hnop
    · exact hnops e' he' q hq

theorem words_of_applyAll (hc : SameRecords s c)
    (h : Runs (applyAll group) c u d) (p : Nat) :
    d.words[p]? = if (p : Int) ∈ group.map Peephole.Entry.id then some Word.nop
      else c.words[p]? := by
  obtain ⟨hchanged, hnop⟩ :=
    changed_of_forM_apply hs hmarks (fun e he => List.mem_reverse.mp he) hc h
  split
  · next hp =>
    obtain ⟨e, he, hid⟩ := List.mem_map.mp hp
    exact hnop e (List.mem_reverse.mpr he) p hid
  · next hp =>
    rcases hchanged.cell p with hsame | ⟨_, _, _, _, hmarked, _⟩
    · exact hsame.1
    · exact absurd hmarked hp

end

theorem words_of_removeAll {offsets : Option (List Int)} (hs : Readable words c)
    (h : Runs removeAll c offsets d) : ∃ found e copy, Runs collect c found e
      ∧ (∀ p : Nat, d.words[p]? = if (p : Int) ∈ marked found then some Word.nop else c.words[p]?)
      ∧ (found ≠ none → Copied c copy) ∧ ∀ x, found = some x → Marks c copy x.group := by
  rw [removeAll_eq] at h
  obtain ⟨found, e, he, h⟩ := runs_bind.mp h
  obtain ⟨hmarks, hnoted⟩ := gives_collect.runs he rfl
  have hsame : SameRecords c e := by
    rw [hnoted]
    exact ⟨rfl, rfl, rfl⟩
  have hewords : e.words = c.words := by rw [hnoted]
  cases found with
  | none =>
    obtain ⟨_, rfl⟩ := runs_pure.mp h
    refine ⟨none, _, none, he, fun p => ?_, fun hne => absurd rfl hne, nofun⟩
    rw [hewords, if_neg (by simp [marked])]
  | some x =>
    obtain ⟨copy, hcopied, hmarks⟩ := hmarks x rfl
    refine ⟨some x, e, copy, he, fun p => ?_, fun _ => hcopied, fun y hy => ?_⟩
    case refine_2 => exact Option.some.inj hy ▸ hmarks
    obtain ⟨_, d', happly, h⟩ := runs_bind.mp h
    obtain ⟨_, rfl⟩ := runs_pure.mp h
    rw [words_of_applyAll hs hmarks hsame happly, hewords]
    rfl

/-! ## Reads that are left -/

/-- Bound checks are removed from a program by dropping what is marked and nothing else. If
    the context is used, the copy of its pointer that is found in the first block is marked,
    whoever reads it. All else that is marked is a part of a bound check in a block that ends
    in a comparison with a jump to the last block. No read is left dangling exactly if
    whatever reads a marked value is marked as well. -/
theorem no_dangling_read_iff {s t u c d : Compilation} {asked : Bool} {options : Options}
    {offsets : Option (List Int)} (hs : Uncut s) (ht : Runs Flow.analyse s () t)
    (hu : Runs (onRequest asked (polish options)) t () u) (hc : Runs Liveness.analyse u () c)
    (hd : Runs removeAll c offsets d) :
    ∃ found e copy, Runs collect c found e
      ∧ (∀ p : Nat, d.words[p]? = if (p : Int) ∈ marked found then some Word.nop else c.words[p]?)
      ∧ (found ≠ none → Copied c copy
        ∧ ∀ i p, copy = some i → i.position = some p → p ∈ marked found)
      ∧ (∀ p ∈ marked found, ∃ (q : Nat) (b : Int) (blk : Block) (i : Instr) (f : Fields), p = q
        ∧ i ∈ c.bodyOf blk ∧ i.StandsFor s.words q ∧ Fields.decode i.word = .ok f ∧ Part i f
        ∧ (copy = some i ∨ Compares c b blk))
      ∧ (NoDanglingRead s.words c.words d.words ↔ ∀ r p q, Reaches s.words c.words r p q →
        (p : Int) ∈ marked found → (q : Int) ∈ marked found) := by
  have hrecords := Readable.of_analyse hs ht hu hc
  obtain ⟨found, e, copy, he, hwords, hcopied, hmarks⟩ := words_of_removeAll hrecords hd
  refine ⟨found, e, copy, he, hwords, fun hfound => ⟨hcopied hfound, ?_⟩, ?_, ?_⟩
  · intro i p hi hp
    obtain ⟨x, rfl⟩ := Option.ne_none_iff_exists'.mp hfound
    obtain ⟨entry, hentry, hpos⟩ := (hmarks x rfl).copy i hi
    exact Option.mem_unique hpos hp ▸ List.mem_map_of_mem hentry
  · intro p hp
    cases found with
    | none => cases hp
    | some x => exact (hmarks x rfl).part hrecords hp
  · unfold NoDanglingRead
    refine forall₃_congr fun r p q => forall_congr' fun hreach => ?_
    rw [Ne, Ne, ← mem_marked_iff (hwords p) hreach.ne_nop.1,
      ← mem_marked_iff (hwords q) hreach.ne_nop.2, not_imp_not]

/-- The steps up to the removal of bound checks, and the removal. -/
def Removes (words : Array Word) (c d : Compilation) : Prop :=
  ∃ s t u offsets, s.words = words ∧ Uncut s ∧ Runs Flow.analyse s () t
    ∧ Runs (onRequest true (polish {})) t () u ∧ Runs Liveness.analyse u () c
    ∧ Runs removeAll c offsets d

/-- The removal with the state before it. -/
def removal : CompileM Compilation := do
  Flow.analyse
  onRequest true (polish {})
  Liveness.analyse
  let c ← get
  let _ ← removeAll
  return c

theorem exists_removes {P : Compilation → Compilation → Prop} (hs : Uncut s)
    (h : finishes removal s = true) (hP : P (resultAfter removal s) (stateAfter removal s)) :
    ∃ c d, Removes s.words c d ∧ P c d := by
  have hrun := runs_after h
  generalize resultAfter removal s = c at *
  obtain ⟨_, t, ht, hrun⟩ := runs_bind.mp hrun
  obtain ⟨_, u, hu, hrun⟩ := runs_bind.mp hrun
  obtain ⟨_, _, hc, hrun⟩ := runs_bind.mp hrun
  obtain ⟨offsets, _, hd, hrun⟩ := runs_bind.mp (runs_get_bind.mp hrun)
  obtain ⟨rfl, hlast⟩ := runs_pure.mp hrun
  exact ⟨c, _, ⟨s, t, u, offsets, rfl, hs, ht, hu, hc, hlast ▸ hd⟩, hP⟩

/-- The context pointer is copied, and the copy is read. -/
def copiedContext : Array Word :=
  #[0xbf16000000000000, 0x6160000000000000, 0x0500000000000000, 0x9500000000000000]

/-- An offset is added to the start of the packet, and the sum is compared with its end. -/
def checkedPacket : Array Word :=
  #[0x6112040000000000, 0x6113000000000000, 0x070300000e000000, 0x2d23010000000000,
    0xb700000002000000, 0x9500000000000000]

/-- The copy is dropped and the load that reads it stays. A whole bound check is dropped
    with all that reads its values. -/
theorem no_dangling_read_iff_copiedContext :
    (∃ c d found e, Removes copiedContext c d ∧ Runs collect c found e ∧ 0 ∈ marked found
        ∧ 1 ∉ marked found ∧ ¬ NoDanglingRead copiedContext c.words d.words)
      ∧ ∃ c d found e, Removes checkedPacket c d ∧ Runs collect c found e ∧ 3 ∈ marked found
        ∧ NoDanglingRead checkedPacket c.words d.words := by
  constructor
  · obtain ⟨c, d, hremoves, hwords, hnop, hleft⟩ := exists_removes
      (s := Compilation.start {} {} copiedContext (copiedContext.map fun _ => ""))
      (P := fun c d => c.words = copiedContext ∧ d.words[0]? = some Word.nop
        ∧ d.words[1]? ≠ some Word.nop) (uncut_start (by decide +kernel)) (by decide +kernel)
      (by decide +kernel)
    have ⟨s, t, u, offsets, hs, huncut, ht, hu, hc, hd⟩ := hremoves
    obtain ⟨found, e, _, hcollect, hdropped, -, -, hiff⟩ := no_dangling_read_iff huncut ht hu hc hd
    have hreach : Reaches s.words c.words 6 0 1 := by
      rw [hs, hwords]
      exact ⟨.set ⟨_, rfl, rfl⟩ ⟨by decide +kernel, by decide +kernel⟩
        (.next ⟨_, rfl, rfl⟩ (by decide +kernel) (by decide +kernel) (by decide)),
        _, ⟨_, rfl, rfl⟩, by decide +kernel⟩
    have hcopy := (mem_marked_iff (hdropped 0) hreach.ne_nop.1).mpr hnop
    have hload := (mem_marked_iff (hdropped 1) hreach.ne_nop.2).not.mpr hleft
    refine ⟨c, d, found, e, hremoves, hcollect, hcopy, hload, fun hnone => hload ?_⟩
    exact hiff.mp (hs ▸ hnone) 6 0 1 hreach hcopy
  · obtain ⟨c, d, hremoves, hwords, hnop, hrest⟩ := exists_removes
      (s := Compilation.start {} {} checkedPacket (checkedPacket.map fun _ => ""))
      (P := fun c d => c.words = checkedPacket ∧ d.words[3]? = some Word.nop
        ∧ ∀ p q : Fin 6, d.words[p]? = some Word.nop → d.words[q]? ≠ some Word.nop →
          ∀ r ∈ (Word.unpacked checkedPacket[q]).reads,
            (Word.unpacked checkedPacket[p]).sets r = false)
      (uncut_start (by decide +kernel)) (by decide +kernel) (by decide +kernel)
    have ⟨s, t, u, offsets, hs, huncut, ht, hu, hc, hd⟩ := hremoves
    obtain ⟨found, e, _, hcollect, hdropped, -, -, hiff⟩ := no_dangling_read_iff huncut ht hu hc hd
    have hcheck := (mem_marked_iff (hdropped 3) (by rw [hwords]; decide)).mpr hnop
    refine ⟨c, d, found, e, hremoves, hcollect, hcheck, ?_⟩
    rw [← show s.words = checkedPacket from hs]
    refine hiff.mpr fun r p q hreach hp => ?_
    rw [mem_marked_iff (hdropped p) hreach.ne_nop.1] at hp
    rw [mem_marked_iff (hdropped q) hreach.ne_nop.2]
    rw [hwords] at hreach
    obtain ⟨hcarried, g, ⟨w, hw, hg⟩, hread⟩ := hreach
    obtain ⟨f, ⟨v, hv, hf⟩, -, hset⟩ := hcarried.defines
    obtain ⟨-, rfl⟩ := Word.decode_eq_ok_iff.mp hf
    obtain ⟨-, rfl⟩ := Word.decode_eq_ok_iff.mp hg
    obtain ⟨hplt, rfl⟩ := Array.getElem?_eq_some_iff.mp hv
    obtain ⟨hqlt, rfl⟩ := Array.getElem?_eq_some_iff.mp hw
    by_contra hq
    have hkept := hrest ⟨p, hplt⟩ ⟨q, hqlt⟩ hp hq r hread
    exact Bool.false_ne_true (hkept.symm.trans hset)

end BoundCheck
end BpfLanes
