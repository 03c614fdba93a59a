import BpfLanes.Proofs.BoundRemoval

/-! # Replacing copies and zero fills twice

Copies and zero fills are looked for in the records of the blocks, which stay as they
are when the program is rewritten, so the same replacements are found again. An
instruction that was replaced and not dropped is replaced by the same word once more,
and the walk along its uses, which dropped nothing, drops nothing again. Only a branch
in the place of a load or a store would be treated otherwise, and there is none.
-/

namespace BpfLanes

open Compilation BpfLanes.Flow Optimize Removal
open Peephole (Entry Group)

variable {words : Array Word} {c d s t : Compilation} {f : Fields} {q : Nat} {group es : Group}
  {e : Entry} {u : Unit}

/-! ## Kinds of instructions -/

namespace Fields

/-- A store of six bytes, of the register that it stores through. -/
def StoresBase (f : Fields) : Prop := f.opcode = Opcode.store48 ∧ f.src = f.dst

theorem reads_once (h : f.IsAccess ∨ f.isMoveImmediate = true) (hbase : ¬ f.StoresBase) :
    f.inputs.Nodup ∨ f.output? = none ∧ f.isCall = false := by
  have hone : ∀ o ∈ Opcode.moveImmediate :: Opcode.loads, Opcode.readsBoth.contains o = false := by
    decide
  have hplain : ∀ o ∈ Opcode.plainStores,
      Opcode.writesNothing.contains o = true ∧ (o == Opcode.call) = false := by
    decide
  rcases h with (h | h) | h
  · exact .inl (inputs_of_not_readsBoth (hone _ (by simpa [isLoad] using Or.inr h)))
  · have hstore : f.opcode ∈ Opcode.plainStores ∨ f.opcode = Opcode.store48 := by
      simpa [isStore, Opcode.stores] using h
    rcases hstore with hstore | hstore
    · obtain ⟨hnone, hcall⟩ := hplain f.opcode hstore
      exact .inr ⟨if_pos hnone, hcall⟩
    · have hinputs : f.inputs = [f.src, f.dst] := by
        unfold inputs
        rw [hstore]
        rfl
      refine .inl (hinputs ▸ ?_)
      simpa using fun heq => hbase ⟨hstore, heq⟩
  · exact .inl (inputs_of_not_readsBoth (hone _ (by simpa [isMoveImmediate] using Or.inl h)))

end Fields

theorem Word.Straight.not_branch {w : Word} (hw : w.Straight) (hword : words[q]? = some w)
    (hf : WordAt words q f) : f.isBranch = false := by
  obtain ⟨g, hg, hbranch⟩ := hw
  obtain rfl := hf.unique ⟨w, hword, hg⟩
  exact hbranch

/-! ## Loads and stores before they are replaced -/

namespace Fusion

theorem runs_fuseAll (hparsed : ∀ blk ∈ s.blocks, Parsed words s blk) (h : Runs fuseAll s u t) :
    ∃ sites, Fused words sites s t ∧ ∀ x ∈ sites, (x.fused? words).isSome = true := by
  have hpass : ∀ {k : Kind} {blk : Block} {t t' : Compilation}, blk ∈ s.blocks →
      (∃ sites, Fused words sites s t ∧ ∀ x ∈ sites, (x.fused? words).isSome = true) →
      Runs (k.pass blk) t () t' →
      ∃ sites, Fused words sites s t' ∧ ∀ x ∈ sites, (x.fused? words).isSome = true := by
    rintro k blk t t' hblk ⟨sites, hsites, hpairs⟩ hr
    have hstore : t.store = s.store := by rw [hsites.rest]
    refine ⟨_, hsites.append (runs_pass ((hparsed blk hblk).congr hstore) hr), ?_⟩
    intro x hx
    rcases List.mem_append.mp hx with hx | hx
    · exact hpairs x hx
    · exact Option.isSome_iff_exists.mpr (Kind.mem_pairsIn.mp hx).2.2.2
  unfold fuseAll at h
  rw [runs_get_bind] at h
  obtain ⟨_, t₁, hmoves, h⟩ := runs_bind.mp h
  have ht₁ := runs_forM_induct (fun _ t => ∃ sites, Fused words sites s t ∧
    ∀ x ∈ sites, (x.fused? words).isSome = true) hmoves ⟨[], .nil s, nofun⟩ (by
      intro k blk t t' hblk ht hr
      exact hpass (k := .moves) (Array.mem_toList_iff.mp (List.mem_of_getElem? hblk)) ht hr)
  obtain ⟨g, _, h⟩ := runs_flowGraph_bind.mp h
  obtain ⟨bs, _, h⟩ := runs_lift_bind.mp h
  refine runs_forM_induct (fun _ t => ∃ sites, Fused words sites s t ∧
    ∀ x ∈ sites, (x.fused? words).isSome = true) h ht₁ ?_
  intro k b t t' _ ht hr
  obtain ⟨blk, hblk, hr⟩ := runs_block_bind.mp hr
  have hblocks : t.blocks = s.blocks := by
    obtain ⟨_, hsites, _⟩ := ht
    rw [hsites.rest]
  obtain ⟨_, _, hmem⟩ := Position.get_eq_ok_iff.mp hblk
  exact hpass (k := .exits) (hblocks ▸ Array.mem_of_getElem? hmem) ht hr

theorem Fused.access {sites : List Site} (h : Fused words sites s t)
    (hpairs : ∀ x ∈ sites, (x.fused? words).isSome = true) (hsize : s.words.size = words.size)
    (hw : WordAt words q f) (hf : f.IsAccess) : t.words[q]? = s.words[q]? := by
  have hnone : ∀ k : Kind, f.opcode ≠ k.lead ∧ f.opcode ∉ k.tails := by
    have hall : ∀ o ∈ Opcode.loads ++ Opcode.stores, ∀ k : Kind, o ≠ k.lead ∧ o ∉ k.tails := by
      intro o ho k
      cases k <;> revert o <;> decide
    exact hall f.opcode (by simpa [Fields.IsAccess, Fields.isLoad, Fields.isStore] using hf)
  rw [h.words]
  rcases rewrite_origin hsize hpairs q with hsame | ⟨x, _, ab, hab, hcovers, _⟩
  · exact hsame
  obtain ⟨w, w', hw₁, hw₂, hjoins, _⟩ := Site.fused?_eq_some_iff.mp hab
  obtain ⟨hlead, htail⟩ := Kind.opcodes_of_joins hjoins
  obtain ⟨v, hv, hdecode⟩ := hw
  obtain ⟨_, rfl⟩ := Word.decode_eq_ok_iff.mp hdecode
  rcases hcovers with rfl | rfl
  · obtain rfl := Option.mem_unique hv hw₁
    exact absurd hlead (hnone _).1
  · obtain rfl := Option.mem_unique hv hw₂
    exact absurd htail (hnone _).2

end Fusion

namespace Optimize

variable {options : Options}

theorem access_of_polish (hs : Uncut s) (ht : Runs Flow.analyse s () t)
    (hc : Runs (polish options) t () c) (hw : WordAt s.words q f) (hf : f.IsAccess) :
    c.words[q]? = s.words[q]? := by
  have hwords : t.words = s.words := (runs_analyse_frame hs ht).2.2.2.1
  obtain ⟨_, t₁, hprint, hc⟩ := runs_bind.mp hc
  obtain ⟨_, t₂, hdraw, hfuse⟩ := runs_bind.mp hc
  have hnoted : Noted t t₂ := (keeps_onRequest (keeps_draw noted_inert)).runs hdraw
    ((keeps_onRequest (keeps_printBlocks noted_inert)).runs hprint rfl)
  have hsame : t₂.words = s.words := by
    rwa [hnoted]
  have hparsed : ∀ blk ∈ t₂.blocks, Fusion.Parsed s.words t₂ blk := by
    intro blk hblk
    have hblocks : t₂.blocks = t.blocks := by rw [hnoted]
    have hstore : t₂.store = t.store := by rw [hnoted]
    exact (Fusion.parsed_of_analyse hs ht (hblocks ▸ hblk)).congr hstore
  obtain ⟨sites, hfused, hpairs⟩ := Fusion.runs_fuseAll hparsed hfuse
  rw [hfused.access hpairs (by rw [hsame]) hw hf, hsame]

/-- What holds when copies and zero fills are looked for: the records are those of some
    earlier state, in which they can be looked up, and loads and stores are still in their
    places or dropped. -/
theorem readable_before (hs : Uncut s) (h : Runs (beforeReplacing options) s () c) :
    ∃ m, Readable s.words m ∧ SameRecords m c ∧ ∀ (q : Nat) (f : Fields),
      WordAt s.words q f → f.IsAccess →
        c.words[q]? = s.words[q]? ∨ c.words[q]? = some Word.nop := by
  unfold beforeReplacing at h
  obtain ⟨_, t, ht, h⟩ := runs_bind.mp h
  obtain ⟨_, v, hv, h⟩ := runs_bind.mp h
  obtain ⟨_, m, hm, h⟩ := runs_bind.mp h
  have hpolish : Runs (onRequest true (polish options)) t () v := hv
  have hread : Readable s.words m := .of_analyse hs ht hpolish hm
  have hw := keeps_polish.runs hv (rewritten_refl (JumpsFrom.refl _))
  obtain ⟨-, hwords, -⟩ := prepared_of_analyse hs ht hw hm
  have hremoved := (keeps_onRequest (keeps_bind keeps_removeAll fun _ => keeps_pure _)).runs h
    (rewritten_refl (JumpsFrom.refl _))
  refine ⟨m, hread, .of_rewritten hremoved, fun q f hf haccess => ?_⟩
  have hkept : m.words[q]? = s.words[q]? := by
    rw [hwords]
    exact access_of_polish hs ht hv hf haccess
  unfold onRequest at h
  split at h
  · obtain ⟨offsets, c', hremove, h⟩ := runs_bind.mp h
    obtain ⟨_, rfl⟩ := runs_pure.mp h
    obtain ⟨found, _, _, _, hdropped, _⟩ := BoundCheck.words_of_removeAll hread hremove
    rw [hdropped]
    split
    · exact .inr rfl
    · exact .inl hkept
  · obtain ⟨_, rfl⟩ := runs_pure.mp h
    exact .inl hkept

end Optimize

/-! ## Groups in order -/

namespace Peephole.Group

theorem ascending_insert (h : group.ids.Pairwise (· < ·)) :
    (group.insert e).ids.Pairwise (· < ·) := by
  induction group with
  | nil => exact List.pairwise_singleton _ _
  | cons x group ih =>
    obtain ⟨hx, hgroup⟩ := List.pairwise_cons.mp h
    unfold Group.insert
    split_ifs with hlt heq
    · refine List.pairwise_cons.mpr ⟨fun id hid => ?_, h⟩
      rcases List.mem_cons.mp hid with rfl | hid
      · exact hlt
      · exact hlt.trans (hx id hid)
    · exact List.pairwise_cons.mpr ⟨heq ▸ hx, hgroup⟩
    · refine List.pairwise_cons.mpr ⟨fun id hid => ?_, ih hgroup⟩
      obtain ⟨y, hy, rfl⟩ := List.mem_map.mp hid
      rcases mem_insert hy with rfl | hy
      · omega
      · exact hx y.id (List.mem_map_of_mem hy)

theorem ascending_update (h : group.ids.Pairwise (· < ·)) :
    (group.update es).ids.Pairwise (· < ·) :=
  List.foldlRecOn (motive := fun g : Group => g.ids.Pairwise (· < ·)) es _ h
    fun _ hg _ _ => ascending_insert hg

end Peephole.Group

/-! ## All replacements -/

namespace Removal

theorem Settled.step (h : Settled s group e q c) (hd : Changed (Written group es) c d)
    (hq : (q : Int) ∉ es.ids) : Settled s group e q d := by
  rcases hd.cell q with ⟨hword, htext⟩ | ⟨word, text, hword, _, hnew⟩
  · cases h with
    | dropped h => exact .dropped (hword.trans h)
    | written h htext' i hi hidle => exact .written (hword.trans h) (htext.trans htext') i hi hidle
  · rcases hnew with ⟨_, rfl, _⟩ | ⟨x, hx, hid, _⟩
    · exact .dropped hword
    · exact absurd (hid ▸ List.mem_map_of_mem hx) hq

/-- A branch is only where the instruction is to be dropped. -/
def NoBranches (es : Group) (words : Array Word) : Prop :=
  ∀ e ∈ es, ∀ (q : Nat) (f : Fields), e.id = q → WordAt words q f → f.isBranch = true →
    e.word = Word.nop

theorem NoBranches.step {es' : Group} (h : NoBranches es c.words)
    (hstraight : ∀ e ∈ es', Word.Straight e.word) (hd : Changed (Written group es') c d) :
    NoBranches es d.words := by
  intro e he q f hq hf hbranch
  rcases hd.cell q with ⟨hword, _⟩ | ⟨word, _, hword, _, hnew⟩
  · obtain ⟨w, hw, hdecode⟩ := hf
    exact h e he q f hq ⟨w, hword ▸ hw, hdecode⟩ hbranch
  · have hw : Word.Straight word := by
      rcases hnew with ⟨_, rfl, _⟩ | ⟨x, hx, _, rfl, _⟩
      · exact Word.straight_nop
      · exact hstraight x hx
    rw [hw.not_branch hword hf] at hbranch
    cases hbranch

theorem forM_apply_spec (hs : Readable words s) (honce : ReadsOnce words group)
    (hkeys : ∀ e ∈ es, e ∈ group ∧ Word.Straight e.word ∧ ∃ q : Nat, e.id = q)
    (hids : es.ids.Nodup) (hc : SameRecords s c) (hplain : NoBranches es c.words)
    (h : Runs (es.forM fun e => apply group e) c u d) :
    Changed (Written group es) c d ∧ ∀ e ∈ es, ∀ q : Nat, e.id = q → Settled s group e q d := by
  induction es generalizing c with
  | nil =>
    obtain ⟨_, rfl⟩ := runs_pure.mp h
    exact ⟨.refl _, nofun⟩
  | cons e es ih =>
    obtain ⟨_, c₁, he, hrest⟩ := runs_bind.mp h
    obtain ⟨hmem, hstraight, q, hq⟩ := hkeys e List.mem_cons_self
    obtain ⟨hnew, hnodup⟩ := List.nodup_cons.mp hids
    obtain ⟨hchanged, hsettled⟩ :=
      apply_spec hs honce hmem hq hc (fun f => hplain e List.mem_cons_self q f hq) he
    have hplain' : NoBranches es c₁.words :=
      NoBranches.step (fun x hx => hplain x (List.mem_cons_of_mem _ hx))
        (fun x hx => List.mem_singleton.mp hx ▸ hstraight) hchanged
    obtain ⟨hchanged', hall⟩ := ih (fun x hx => hkeys x (List.mem_cons_of_mem _ hx)) hnodup
      (hc.trans hchanged.records) hplain' hrest
    refine ⟨(hchanged.mono ?_).trans (hchanged'.mono ?_), fun x hx q' hq' => ?_⟩
    · exact fun p word text => Or.imp_right fun ⟨x, hx, hw⟩ =>
        ⟨x, List.mem_singleton.mp hx ▸ List.mem_cons_self, hw⟩
    · exact fun p word text => Or.imp_right fun ⟨x, hx, hw⟩ => ⟨x, List.mem_cons_of_mem _ hx, hw⟩
    · rcases List.mem_cons.mp hx with rfl | hx
      · obtain rfl := Int.ofNat.inj (hq.symm.trans hq')
        exact hsettled.step hchanged' (hq ▸ hnew)
      · exact hall x hx q' hq'

/-! ## What is asked for -/

theorem recognised_congr (h : SameRecords s c) : recognised c = recognised s := by
  unfold recognised shown
  rw [h.blocks, funext h.bodyOf]

theorem Watchers.nodup_replacements (w : Watchers) : w.replacements.ids.Nodup := by
  rw [replacements_eq]
  have hnil : (Group.ids []).Pairwise (· < ·) := List.Pairwise.nil
  exact (Group.ascending_update hnil).imp fun hlt => ne_of_lt hlt

theorem readsOnce_of_asked (h : ∀ e ∈ group, Asked words e)
    (hbase : ∀ (q : Nat) (f : Fields), WordAt words q f → ¬ f.StoresBase) :
    ReadsOnce words group := by
  intro q f hq hf
  obtain ⟨e, he, hid⟩ := List.mem_map.mp hq
  obtain ⟨_, q', g, hq', hg, hkind⟩ := h e he
  obtain rfl := Int.ofNat.inj (hid.symm.trans hq')
  obtain rfl := hf.unique hg
  exact Fields.reads_once (hkind.imp_right And.left) (hbase q f hf)

theorem noBranches_of_asked (h : ∀ e ∈ group, Asked words e)
    (hkept : ∀ (q : Nat) (f : Fields), WordAt words q f → f.IsAccess →
      c.words[q]? = words[q]? ∨ c.words[q]? = some Word.nop) : NoBranches group c.words := by
  intro e he q g hq hg hbranch
  obtain ⟨_, q', f, hq', hf, haccess | ⟨_, hnop⟩⟩ := h e he
  · obtain rfl := Int.ofNat.inj (hq.symm.trans hq')
    have hnot : g.isBranch = false := by
      rcases hkept q f hf haccess with hword | hword
      · obtain ⟨v, hv, hdecode⟩ := hg
        obtain rfl := hf.unique ⟨v, hword ▸ hv, hdecode⟩
        exact haccess.not_branch
      · exact Word.straight_nop.not_branch hword hg
    rw [hnot] at hbranch
    cases hbranch
  · exact hnop

/-- What becomes of an instruction that is to be replaced: if it does nothing already it
    stays, else it is dropped or replaced. -/
inductive Replaced (e : Entry) (q : Nat) (c d : Compilation) : Prop
  | kept (hnop : c.words[q]? = some Word.nop) (hword : d.words[q]? = c.words[q]?)
      (htext : d.texts[q]? = c.texts[q]?)
  | dropped (hword : d.words[q]? = some Word.nop) (htext : d.texts[q]? = some "NOP")
  | written (hword : d.words[q]? = some e.word) (htext : d.texts[q]? = some e.text)

theorem Settled.replaced (h : Settled s group e q d) (hd : Changed (Written group es) c d)
    (hids : es.ids.Nodup) (he : e ∈ es) (hq : e.id = q) : Replaced e q c d := by
  rcases hd.cell q with ⟨hword, htext⟩ |
    ⟨word, text, hword, htext, ⟨_, rfl, rfl⟩ | ⟨x, hx, hid, rfl, rfl⟩⟩
  · cases h with
    | dropped h => exact .kept (hword ▸ h) hword htext
    | written h htext' => exact .written h htext'
  · exact .dropped hword htext
  · obtain rfl := List.inj_on_of_nodup_map hids hx he (hid.trans hq.symm)
    exact .written hword htext

/-- In a program that nowhere stores six bytes of the register it stores through, only the
    positions that are to be replaced change when copies and zero fills are replaced, and
    each of them is dropped or gets what it is to be replaced by, unless the instruction did
    nothing before. To replace them again changes nothing. -/
theorem advanced_idempotent {options : Options} (hs : Uncut s)
    (hbase : ∀ (q : Nat) (f : Fields), WordAt s.words q f → ¬ f.StoresBase)
    (hc : Runs (beforeReplacing options) s () c) (hd : Runs advanced c () d) :
    ∃ w, recognised c = .ok w ∧ d = { c with words := d.words, texts := d.texts }
      ∧ (∀ p : Nat, (p : Int) ∉ w.replacements.ids →
        d.words[p]? = c.words[p]? ∧ d.texts[p]? = c.texts[p]?)
      ∧ (∀ e ∈ w.replacements, ∃ q : Nat, e.id = q ∧ Replaced e q c d)
      ∧ Runs advanced d () d := by
  obtain ⟨m, hread, hsame, hkept⟩ := readable_before hs hc
  rw [advanced_eq, runs_get_bind, runs_lift_bind] at hd
  obtain ⟨w, hw, hd⟩ := hd
  have hasked : ∀ e ∈ w.replacements, Asked s.words e := fun e he =>
    asked_of_recognised hread.laid ((recognised_congr hsame).symm.trans hw) he
  have hids : (Group.ids w.replacements.reverse).Nodup := by
    unfold Group.ids
    rw [List.map_reverse]
    exact List.nodup_reverse.mpr w.nodup_replacements
  have hmem : ∀ e ∈ w.replacements.reverse, e ∈ w.replacements := fun e => List.mem_reverse.mp
  obtain ⟨hchanged, hsettled⟩ := forM_apply_spec hread (readsOnce_of_asked hasked hbase)
    (fun e he => by
      obtain ⟨hstraight, q, _, hq, _⟩ := hasked e (hmem e he)
      exact ⟨hmem e he, hstraight, q, hq⟩) hids hsame
    (fun e he => noBranches_of_asked hasked hkept e (hmem e he)) hd
  refine ⟨w, hw, hchanged.rest, fun p hp => ?_, fun e he => ?_, ?_⟩
  · rcases hchanged.cell p with hcell | ⟨_, _, _, _, ⟨hin, _⟩ | ⟨x, hx, hid, _⟩⟩
    · exact hcell
    · exact absurd hin hp
    · exact absurd (hid ▸ List.mem_map_of_mem (hmem x hx)) hp
  · obtain ⟨_, q, _, hq, _⟩ := hasked e he
    have he := List.mem_reverse.mpr he
    exact ⟨q, hq, (hsettled e he q hq).replaced hchanged hids he hq⟩
  · rw [advanced_eq, runs_get_bind, runs_lift_bind]
    refine ⟨w, (recognised_congr hchanged.records).trans hw, ?_⟩
    obtain ⟨d', hrun, rfl⟩ := forM_runs (f := fun e => apply w.replacements e) (fun _ t => t = d)
      (l := w.replacements.reverse) (s := d) rfl (by
        rintro k e _ he rfl
        have he := List.mem_of_getElem? he
        obtain ⟨hstraight, q, _, hq, _⟩ := hasked e (hmem e he)
        exact ⟨_, (hsettled e he q hq).again hq (hsame.trans hchanged.records) hstraight, rfl⟩)
    exact hrun

/-- Six bytes are copied in three steps, the last ones first. -/
def copiedBackwards : Array Word :=
  #[0x6921040000000000, 0x6b1a040000000000, 0x6921020000000000, 0x6b1a020000000000,
    0x6921000000000000, 0x6b1a000000000000, 0x0500000000000000, 0x9500000000000000]

/-- The first load and store become those of six bytes and the others are dropped, also when
    the copy is looked for again. -/
theorem advanced_idempotent_copiedBackwards :
    ∃ s c d, s.words = copiedBackwards ∧ Uncut s
      ∧ (∀ (q : Nat) (f : Fields), WordAt s.words q f → ¬ f.StoresBase)
      ∧ Runs (beforeReplacing {}) s () c ∧ Runs advanced c () d
      ∧ d.words = #[0x5921000000000000, 0x5a1a000000000000, Word.nop, Word.nop, Word.nop,
        Word.nop, 0x0500000000000000, 0x9500000000000000]
      ∧ Runs advanced d () d := by
  obtain ⟨c, d, hc, hd, hwords⟩ := exists_chain (m := beforeReplacing {}) (n := advanced)
    (s := Compilation.start {} {} copiedBackwards (copiedBackwards.map fun _ => ""))
    (P := fun _ d => d.words = #[0x5921000000000000, 0x5a1a000000000000, Word.nop, Word.nop,
      Word.nop, Word.nop, 0x0500000000000000, 0x9500000000000000])
    (by decide +kernel) (by decide +kernel) (by decide +kernel)
  have hbase : ∀ (q : Nat) (f : Fields), WordAt copiedBackwards q f → ¬ f.StoresBase := by
    rintro q f ⟨w, hw, hf⟩ ⟨hopcode, _⟩
    obtain ⟨_, rfl⟩ := Word.decode_eq_ok_iff.mp hf
    have hall : ∀ w ∈ copiedBackwards.toList, (Word.unpacked w).opcode ≠ Opcode.store48 := by
      decide +kernel
    exact hall w (Array.mem_toList_iff.mpr (Array.mem_of_getElem? hw)) hopcode
  have hs : Uncut (Compilation.start {} {} copiedBackwards (copiedBackwards.map fun _ => "")) :=
    uncut_start (by decide +kernel)
  obtain ⟨_, _, _, _, _, hagain⟩ := advanced_idempotent hs hbase hc hd
  exact ⟨_, c, d, rfl, hs, hbase, hc, hd, hwords, hagain⟩

end Removal
end BpfLanes
