import BpfLanes.Proofs.StackMachine

/-! # When zero fills can be dropped

The recogniser of zero fills drops settings to zero and stores to the stack. It
remembers the offsets of stores but not how far they reach, takes no notice of who
reads the register that it dropped the setting of, and knows of a call only that it
sets the result. Dropping its groups is safe exactly if no instruction misses a
register and every dropped store is of zero to zeros.
-/

namespace BpfLanes.Peephole.ZeroFill

open Fields
open Word (Proper unpacked)
open Stack

variable {s t : ZeroFill} {f : Fields} {id : Int} {fed : List (Word × Int)}

/-! ## What a step does -/

theorem zeroStore_eq_true (h : s.zeroStore f = .ok true) :
    f.storesToStack = true ∧ f.offset ∉ s.accessed ∧ s.register = some f.src := by
  unfold zeroStore at h
  split at h
  · next hstore =>
    simp only [Bool.and_eq_true, Bool.not_eq_eq_eq_not, Bool.not_true] at hstore
    split at h
    · split at h <;> cases h
    next himm =>
    obtain ⟨bits, hbits⟩ := storeBits?_of_isStore hstore.1 (Bool.eq_false_iff.mpr himm)
    have hboth := Except.ok.inj h
    simp only [Bool.and_eq_true, beq_iff_eq] at hboth
    refine ⟨?_, by simpa using hstore.2, hboth.1.symm⟩
    rw [Fields.storesToStack, hbits, hboth.2]
    rfl
  · cases h

theorem mem_accessed_mark (s : ZeroFill) (f : Fields) : f.offset ∈ (s.mark f).accessed := by
  unfold mark
  split
  · next h => exact List.contains_iff_mem.mp h
  · simp

theorem Move.takes (h : Move s id f t) (hnew : id ∉ s.notes.positions)
    (hmem : id ∈ t.notes.positions) :
    f.zeroes = true ∨ s.phase ≠ .idle ∧ s.zeroStore f = .ok true ∧ f.offset ∈ t.accessed := by
  cases h with
  | rest | touch => exact absurd hmem hnew
  | zero _ hzero | again _ hzero | next _ hzero => exact .inl hzero
  | store hp hstore => exact .inr ⟨hp, hstore, mem_accessed_mark _ f⟩
  | lose | spoil =>
    refine absurd (List.mem_append_left _ ?_) hnew
    simpa [Notes.positions, abandon, mark, Group.ids] using hmem
  | close =>
    refine absurd ?_ hnew
    simpa [Notes.positions, mark, Group.ids] using hmem

theorem accessed_subset_mark (s : ZeroFill) (f : Fields) : s.accessed ⊆ (s.mark f).accessed := by
  unfold mark
  split
  · exact List.Subset.refl _
  · exact List.subset_append_left ..

theorem Move.accessed (h : Move s id f t) : s.accessed ⊆ t.accessed := by
  cases h with
  | rest | zero | again | next | lose => exact List.Subset.refl _
  | touch | store | spoil | close => exact accessed_subset_mark _ f

theorem Move.marks (h : Move s id f t) (hregister : s.register ≠ some Opcode.stackRegister)
    (hstore : f.isStackStore = true) : f.offset ∈ t.accessed := by
  rw [Fields.isStackStore, Bool.and_eq_true] at hstore
  obtain ⟨hstore, hdst⟩ := hstore
  cases h with
  | rest hp hzero htouch =>
    unfold stackAccess at htouch
    rw [(classes_of_isStore hstore).2.1, Bool.false_and, if_neg Bool.false_ne_true] at htouch
    split at htouch
    · cases htouch
    · next himm =>
      obtain ⟨bits, hbits⟩ := storeBits?_of_isStore hstore (Bool.eq_false_iff.mpr himm)
      rw [Fields.storesToStack, hbits, hdst] at htouch
      cases htouch
  | touch | store | spoil | close => exact mem_accessed_mark _ f
  | zero _ hzero | again _ hzero | next _ hzero =>
    rw [zeroes_of_isStore hstore] at hzero
    cases hzero
  | lose hp hzero hlost =>
    exfalso
    apply hregister
    rw [← hlost.2]
    obtain ⟨r, hr⟩ := Option.isSome_iff_exists.mp hlost.1
    unfold Fields.output? at hr ⊢
    split at hr
    · cases hr
    · next hwrites => rw [if_neg hwrites, beq_iff_eq.mp hdst]

theorem output?_of_zeroes (h : f.zeroes = true) :
    f.output? = some f.dst ∧ f.sets f.dst = true := by
  simp only [Fields.zeroes, Bool.and_eq_true] at h
  have hopcode : f.opcode = Opcode.moveImmediate := by simpa [Fields.isMoveImmediate] using h.1
  exact ⟨by rw [Fields.output?, hopcode]; rfl, (sets_of_isMoveImmediate h.1 _).mpr rfl⟩

theorem Move.register (h : Move s id f t) :
    t.register = s.register ∨ t.register = none
      ∨ f.zeroes = true ∧ t.register = some f.dst := by
  cases h with
  | rest | touch | store => exact .inl rfl
  | lose | spoil | close => exact .inr (.inl rfl)
  | zero _ hzero | again _ hzero | next _ hzero =>
    exact .inr (.inr ⟨hzero, (output?_of_zeroes hzero).1⟩)

/-- The instructions that were read before are in no group that they were not in. -/
theorem Move.earlier (h : Move s id f t) (hid : id ∉ fed.map Prod.snd)
    (hwithin : s.notes.Within (fed.map Prod.snd)) {x : Word × Int} (hx : x ∈ fed)
    (hmem : x.2 ∈ t.notes.positions) : x.2 ∈ s.notes.positions := by
  have hfresh : id ∉ s.notes.pending.ids := fun hin =>
    hid (hwithin.subset (List.mem_append_right _ hin))
  rcases List.mem_append.mp ((h.notes.subperm hfresh).subset hmem) with hold | hlast
  · exact hold
  · exact absurd (List.mem_singleton.mp hlast ▸ List.mem_map_of_mem hx) hid

theorem Move.each {P : List (Word × Int) → Word × Int → Prop} {w : Word} {v : ZeroFill}
    (h : Move s id (unpacked w) v) (hfed : Distinct (fed ++ [(w, id)]))
    (hwithin : s.notes.Within (fed.map Prod.snd))
    (hold : Each (fun before y => y.2 ∈ s.notes.positions → P before y) fed)
    (hnew : (unpacked w).zeroes = true ∨ s.phase ≠ .idle ∧ s.zeroStore (unpacked w) = .ok true →
      P fed (w, id)) :
    Each (fun before y => y.2 ∈ v.notes.positions → P before y) (fed ++ [(w, id)]) := by
  have hfresh : id ∉ s.notes.positions := fun hmem => hfed.last.2 (hwithin.subset hmem)
  refine each_concat.mpr ⟨hold.imp fun before y hy hP hmem => hP ?_, fun hmem => hnew ?_⟩
  · exact h.earlier hfed.last.2 hwithin hy hmem
  · exact (h.takes hfresh hmem).imp_right fun hstore => ⟨hstore.1, hstore.2.1⟩

/-! ## What is dropped -/

/-- What was dropped so far, and what is remembered of the stores. -/
structure Watched (fed : List (Word × Int)) (s : ZeroFill) : Prop where
  marked : ∀ x ∈ fed, (unpacked x.1).isStackStore = true → (unpacked x.1).offset ∈ s.accessed
  register : s.register ≠ some Opcode.stackRegister
  dropped : Each (fun before y => y.2 ∈ s.notes.positions → (unpacked y.1).zeroes = true
    ∨ (unpacked y.1).storesToStack = true ∧ ∀ x ∈ before, (unpacked x.1).isStackStore = true →
      (unpacked x.1).offset ≠ (unpacked y.1).offset) fed

theorem watched_run (hfed : Distinct fed)
    (hframe : ∀ x ∈ fed, (unpacked x.1).sets Opcode.stackRegister = false)
    (h : Runs (readAll read fed) {} () t) : Watched fed t := by
  refine moves.run_induct (P := fun fed s =>
    (∀ x ∈ fed, (unpacked x.1).sets Opcode.stackRegister = false) → Watched fed s) ?_ ?_ hfed h
    hframe
  · exact fun _ => ⟨nofun, nofun, each_nil⟩
  intro fed w id u v hdistinct _ hwithin hu hmove hframe
  obtain ⟨hmarked, hregister, hdropped⟩ := hu fun x hx => hframe x (List.mem_append_left _ hx)
  refine ⟨fun x hx hstore => ?_, fun hr => ?_, ?_⟩
  · rcases List.mem_append.mp hx with hx | hx
    · exact hmove.accessed (hmarked x hx hstore)
    · obtain rfl := List.mem_singleton.mp hx
      exact hmove.marks hregister hstore
  · rcases hmove.register with hsame | hnone | ⟨hzero, hdst⟩
    · exact hregister (hsame.symm.trans hr)
    · rw [hnone] at hr
      cases hr
    · have hsets := (output?_of_zeroes hzero).2
      rw [Option.mem_unique hdst hr, hframe (w, id) (by simp)] at hsets
      cases hsets
  · refine hmove.each hdistinct (hwithin.look w id) hdropped ?_
    rintro (hzero | ⟨-, hstore⟩)
    · exact .inl hzero
    · obtain ⟨hstack, hapart, -⟩ := zeroStore_eq_true hstore
      refine .inr ⟨hstack, fun x hx hearlier heq => hapart ?_⟩
      exact heq ▸ hmarked x hx hearlier

/-- The register of a group surely holds zero. -/
structure Holding (fed : List (Word × Int)) (s : ZeroFill) : Prop where
  register : s.phase ≠ .idle → ∃ r, s.register = some r ∧ (zerosAfter fed).registers r = true
  stored : Each (fun before y => y.2 ∈ s.notes.positions → (unpacked y.1).isStore = true →
    (zerosAfter before).registers (unpacked y.1).src = true) fed

theorem Move.holding {w : Word} {v : ZeroFill} (h : Move s id (unpacked w) v)
    (hcall : (unpacked w).isCall = false) (hs : s.phase ≠ .idle → ∃ r, s.register = some r
      ∧ (zerosAfter fed).registers r = true) (hv : v.phase ≠ .idle) :
    ∃ r, v.register = some r ∧ (zerosAfter (fed ++ [(w, id)])).registers r = true := by
  rw [zerosAfter_concat]
  -- an instruction that does not set the register leaves it at zero
  have hkeep : ∀ r, (unpacked w).sets r = false → (zerosAfter fed).registers r = true →
      ((zerosAfter fed).step (unpacked w)).registers r = true := by
    intro r hsets hr
    simpa [Zeros.step, hsets] using hr
  have hset : (unpacked w).zeroes = true → ∃ r, (unpacked w).output? = some r
      ∧ ((zerosAfter fed).step (unpacked w)).registers r = true := by
    intro hzero
    obtain ⟨hout, hsets⟩ := output?_of_zeroes hzero
    exact ⟨_, hout, by simp [Zeros.step, hsets, hzero]⟩
  cases h with
  | rest hp hzero htouch hkept =>
    obtain ⟨r, hr, hholds⟩ := hs hv
    have hzeroed : s.phase = .zeroed := by
      cases hphase : s.phase with
      | idle => exact absurd hphase hv
      | zeroed => rfl
      | storing => exact absurd hphase hp
    refine ⟨r, hr, hkeep r ?_ hholds⟩
    rcases hkept hzeroed with hnone | hother
    · simp [Fields.sets, hcall, hnone]
    · rw [hr] at hother
      simp [Fields.sets, hcall, hother]
  | store hp hstore =>
    obtain ⟨r, hr, hholds⟩ := hs hp
    have hstack := (zeroStore_eq_true hstore).1
    have hisStore := isStore_of_mem_covered (offset_mem_covered hstack)
    exact ⟨r, hr, hkeep r (sets_of_isStore hisStore r) hholds⟩
  | zero _ hzero | again _ hzero | next _ hzero => exact hset hzero
  | touch hp => exact absurd hp hv
  | lose | spoil | close => exact absurd rfl hv

theorem holding_run (hfed : Distinct fed) (hcalls : ∀ x ∈ fed, (unpacked x.1).isCall = false)
    (h : Runs (readAll read fed) {} () t) : Holding fed t := by
  refine moves.run_induct (P := fun fed s =>
    (∀ x ∈ fed, (unpacked x.1).isCall = false) → Holding fed s) ?_ ?_ hfed h hcalls
  · exact fun _ => ⟨fun h => absurd rfl h, each_nil⟩
  intro fed w id u v hdistinct _ hwithin hu hmove hcalls
  obtain ⟨hregister, hstored⟩ := hu fun x hx => hcalls x (List.mem_append_left _ hx)
  refine ⟨fun hv => hmove.holding (hcalls (w, id) (by simp)) hregister hv, ?_⟩
  refine hmove.each hdistinct (hwithin.look w id) hstored ?_
  rintro (hzero | ⟨hp, hstore⟩) hisStore
  · rw [zeroes_of_isStore hisStore] at hzero
    cases hzero
  · obtain ⟨r, hr, hholds⟩ := hregister hp
    have hsrc := (zeroStore_eq_true hstore).2.2
    rwa [← Option.mem_unique hr hsrc]

/-! ## Safety -/

theorem harmless_run (hfed : Distinct fed)
    (hframe : ∀ x ∈ fed, (unpacked x.1).sets Opcode.stackRegister = false)
    (hcalls : ∀ x ∈ fed, (unpacked x.1).isCall = false)
    (hmeet : ∀ x ∈ fed, ∀ y ∈ fed, ∀ b ∈ (unpacked x.1).covered, b ∈ (unpacked y.1).covered →
      (unpacked x.1).offset = (unpacked y.1).offset)
    (h : Runs (readAll read fed) {} () t) : Harmless t.notes.positions fed := by
  intro n hn hy hstore
  have hregister := (holding_run hfed hcalls h).stored n hn hy hstore
  refine ⟨hregister, fun b hb => ?_⟩
  rcases (watched_run hfed hframe h).dropped n hn hy with hzero | ⟨-, hapart⟩
  · rw [zeroes_of_isStore hstore] at hzero
    cases hzero
  · refine zerosAfter_bytes fun x hx hcovered => ?_
    exact hapart x hx (isStackStore_of_mem_covered hcovered)
      (hmeet x (List.mem_of_mem_take hx) _ (List.get_mem _ _) b hcovered hb)

/-- Exactly when dropping the groups of a run is safe, and that without calls and partial
    overlaps only reads of dropped registers are in the way. -/
theorem dropping_safe_iff (hfed : Distinct fed)
    (hframe : ∀ x ∈ fed, (unpacked x.1).sets Opcode.stackRegister = false)
    (h : Runs (readAll read fed) {} () t) :
    (Safe t.notes.positions fed ↔
        ReadsKept t.notes.positions fed ∧ Harmless t.notes.positions fed)
      ∧ ((∀ x ∈ fed, (unpacked x.1).isCall = false) →
        (∀ x ∈ fed, ∀ y ∈ fed, ∀ b ∈ (unpacked x.1).covered, b ∈ (unpacked y.1).covered →
          (unpacked x.1).offset = (unpacked y.1).offset) →
        (Safe t.notes.positions fed ↔ ReadsKept t.notes.positions fed)) := by
  have hwatched := watched_run hfed hframe h
  have hdrop : ∀ x ∈ fed, x.2 ∈ t.notes.positions → Droppable (unpacked x.1) := by
    intro x hx hmem
    obtain ⟨n, hn, rfl⟩ := List.getElem_of_mem hx
    rcases hwatched.dropped n hn hmem with hzero | ⟨hstore, -⟩
    · exact Or.inl hzero
    · exact Or.inr hstore
  have hfresh : Each (fun before y => y.2 ∈ t.notes.positions → (unpacked y.1).isStore = true →
      (unpacked y.1).storesToStack = true ∧ ∀ x ∈ before, (unpacked x.1).isStackStore = true →
        (unpacked x.1).offset ≠ (unpacked y.1).offset) fed := by
    refine hwatched.dropped.imp fun before y _ hy hmem hstore => ?_
    rcases hy hmem with hzero | hapart
    · rw [zeroes_of_isStore hstore] at hzero
      cases hzero
    · exact hapart
  constructor
  · constructor
    · intro hsafe
      exact ⟨hsafe.reads, harmless_of_keepsStack hfresh hsafe.stack⟩
    · intro ⟨hreads, hharmless⟩
      exact ⟨hreads, keepsStack_of_harmless hdrop hreads hharmless⟩
  · intro hcalls hmeet
    have hharmless := harmless_run hfed hframe hcalls hmeet h
    exact ⟨Safe.reads, fun hreads => ⟨hreads, keepsStack_of_harmless hdrop hreads hharmless⟩⟩

/-- Eight bytes of the stack are set to ones, and then the upper four of them to zero. -/
def overlappedFill : List (Word × Int) :=
  [(0xb7010000ffffffff, 0), (0x7b1af8ff00000000, 1), (0xb702000000000000, 2),
    (0x632afcff00000000, 3), (0xb700000001000000, 4)]

/-- Two slots of the stack are set to zero, and one is returned. -/
def plainFill : List (Word × Int) :=
  [(0xb701000000000000, 0), (0x7b1af8ff00000000, 1), (0x7b1af0ff00000000, 2),
    (0xb700000001000000, 3), (0x9500000000000000, 4)]

/-- The setting to zero that is needed is dropped as well as those that are not. -/
theorem dropping_safe_iff_overlappedFill :
    (∃ t, Runs (readAll read overlappedFill) {} () t ∧ t.notes.positions = [2, 3]
        ∧ ¬ Safe t.notes.positions overlappedFill)
      ∧ ∃ t, Runs (readAll read plainFill) {} () t ∧ t.notes.positions = [0, 1, 2]
        ∧ Safe t.notes.positions plainFill := by
  have hdistinct : Distinct overlappedFill ∧ Distinct plainFill := by
    refine ⟨⟨?_, by decide⟩, ⟨?_, by decide⟩⟩ <;>
    · unfold Proper
      decide
  constructor
  · obtain ⟨t, ht⟩ : ∃ t, t = stateAfter (readAll read overlappedFill) {} := ⟨_, rfl⟩
    have hrun : Runs (readAll read overlappedFill) {} () t := ht ▸ runs_stateAfter (by decide +kernel)
    have hpositions : t.notes.positions = [2, 3] := by
      rw [ht]
      decide +kernel
    refine ⟨t, hrun, hpositions, fun hsafe => ?_⟩
    have hharmless := ((dropping_safe_iff hdistinct.1 (by decide) hrun).1.mp hsafe).2
    rw [hpositions] at hharmless
    revert hharmless
    decide +kernel
  · obtain ⟨t, ht⟩ : ∃ t, t = stateAfter (readAll read plainFill) {} := ⟨_, rfl⟩
    have hrun : Runs (readAll read plainFill) {} () t := ht ▸ runs_stateAfter (by decide +kernel)
    have hpositions : t.notes.positions = [0, 1, 2] := by
      rw [ht]
      decide +kernel
    refine ⟨t, hrun, hpositions,
      ((dropping_safe_iff hdistinct.2 (by decide) hrun).2 (by decide) (by decide +kernel)).mpr ?_⟩
    rw [hpositions]
    decide +kernel

end BpfLanes.Peephole.ZeroFill
