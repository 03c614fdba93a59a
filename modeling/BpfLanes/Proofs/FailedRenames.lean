import BpfLanes.Proofs.RecordsInStep
import BpfLanes.Proofs.RowBound

/-! # What a failed renaming leaves behind

A renaming that fails is not undone. It changes nothing if there is no free register,
and otherwise the word of the instruction whose value was to be renamed names the new
register already.
-/

namespace BpfLanes

open Compilation BpfLanes.Flow

variable {e : Fault} {o : Operand}

variable {blk : Block} {g : Digraph} {n row old new : Int} {used : List Int} {s t : Compilation}
  {id : Nat} {i : Instr}

theorem Renaming.freeRegister_error {liveOut : RegMap} (h : freeRegister liveOut used = .error e) :
    e = .noRegister := by
  unfold freeRegister at h
  split at h
  · cases h
  · exact (Except.error.inj h).symm

theorem Attempted.store_eq (h : Attempted blk g n row used s t)
    (hnone : ∀ new, Renaming.freeRegister blk.liveOut used ≠ .ok new) : t.store = s.store := by
  induction h with
  | unchanged => rfl
  | edited hnew h => exact absurd hnew (hnone _)
  | recorded h _ _ _ ih => exact ih

theorem Edited.rewrites (h : Edited blk g n old new s t) (hid : Position.get blk.body n = .ok id)
    (hi : s.store[id]? = some i)
    (hreaders : ∀ m, (n, m) ∈ g.edges → Position.get blk.body m ≠ .ok id) :
    ∃ j, t.store[id]? = some j ∧ i.Rewrites old new j := by
  induction h with
  | @writer id' i' j hid' hi' hj =>
    obtain rfl := Except.ok.inj (hid.symm.trans hid')
    obtain rfl := Option.mem_unique hi hi'
    have hlt := lt_size hi
    exact ⟨j, Array.getElem?_setIfInBounds_self_of_lt hlt, hj⟩
  | @reader c m id' i' j h hm hid' hi' hj ih =>
    obtain ⟨k, hk, hrewrites⟩ := ih
    have hne : id' ≠ id := fun heq => hreaders m hm.1 (heq ▸ hid')
    exact ⟨k, (Array.getElem?_setIfInBounds_ne hne).trans hk, hrewrites⟩

/-- A renaming that finds a free register has changed the instruction, however it ends. -/
theorem ends_edited {b : Nat} {w : Word} (hs : Tabled s) (hb : s.blocks[b]? = some blk)
    (hkind : blk.kind = .basic) (hnode : n ∈ g.nodes)
    (hnew : Renaming.freeRegister blk.liveOut used = .ok new)
    (hid : Position.get blk.body n = .ok id) (hi : s.store[id]? = some i) (ho : i.output = some o)
    (hw : Word.setTarget i.word new = .ok w) :
    EndsIn (fun t => ∃ u, Edited blk g n o.register new s u ∧ t.store = u.store) (fun _ => True)
      ((Schedule.renameValue b blk g n row old used).run s) := by
  have hsucc : g.successors n = .ok (g.after n) := by simp [Digraph.successors, hnode]
  unfold Schedule.renameValue
  rw [(runs_lift.mpr ⟨hsucc, rfl⟩).run_bind]
  refine EndsIn.bind (P := fun _ => True) ((ends_rename hs hb hkind ?_ hnew hid hi ho hw).mono
    fun t ht => ⟨t, ht, rfl⟩) fun _ _ => ?_
  · intro m hm
    obtain ⟨hmem, hne⟩ := List.mem_filter.mp hm
    exact ⟨Digraph.mem_successors hsucc hmem, by simpa using hne⟩
  · refine keeps_bind keeps_instrAt fun i => keeps_bind (keeps_lift _) fun o => ?_
    exact keeps_bind (keeps_lift _) fun position => keeps_modify fun c hc => hc

namespace Schedule

section
variable {Q : Instr → Prop} {words : Array Word} {c c₀ d : Compilation} {b k : Nat} {lastRow : Int}
  {order done rest : List Int} {r : Reach} (hc : Laid Q words c)
  (ho : Opened c c₀ b blk g lastRow order) (hd : Partly c₀ b blk g lastRow order done r d)
  (horder : order = done ++ (k : Int) :: rest)
include hc ho hd horder

theorem Opened.output_eq (hi : InstrAt d blk k id i) (hout : i.output = some o) :
    ∃ f, Fields.decode i.word = .ok f ∧ o.register = f.dst := by
  obtain ⟨id', i₀, f₀, hid', hi₀, hstands, hf₀⟩ :=
    hc.standsFor_index ho.block ho.basic (ho.index_lt horder)
  have hid := Position.get_natCast.mp hi.1
  obtain rfl := Option.mem_unique hid hid'
  obtain ⟨f, hf, _, hstep⟩ := hstands.operands
  obtain rfl := Except.ok.inj (hf₀.symm.trans hf)
  rw [← ho.same id (Array.mem_of_getElem? hid)] at hi₀
  obtain ⟨j, hj, hrel⟩ := ((ho.history hc hd hid).1 (ho.places.not_mem_done horder)).instr i₀ hi₀
  obtain rfl := Option.mem_unique hj hi.2
  obtain ⟨_, hs, houtput, _⟩ := hrel.1.fields hf₀
  rw [houtput] at hout
  have hwritten : i₀.OutputInStep f₀ := hstep
  exact ⟨_, hs, (hwritten.written hout (j := i₀) (s := 0) (t := 0)).1⟩

omit hd horder in
theorem Opened.reader_ne (hid : Position.get blk.body k = .ok id) {m : Int}
    (hm : ((k : Int), m) ∈ g.edges) : Position.get blk.body m ≠ .ok id := by
  intro hm'
  have hlt : (k : Int) < m := ho.edges.ascend _ hm
  obtain ⟨m', rfl⟩ := Int.eq_ofNat_of_zero_le (show 0 ≤ m by omega)
  rw [Position.get_natCast] at hid hm'
  have := hc.index_eq ho.block ho.basic hid hm'
  omega

/-- The instruction that comes next has the new register in its word once its value begins
    to be renamed. -/
theorem Opened.rewritten {old row new : Int} {used : List Int} (hi : InstrAt d blk k id i)
    (hout : i.output = some o) (hnew : Renaming.freeRegister blk.liveOut used = .ok new) :
    EndsIn (fun t => ∃ j, t.store[id]? = some j ∧ Word.setTarget i.word new = .ok j.word)
      (fun _ => True) ((renameValue b blk g k row old used).run d) := by
  obtain ⟨hrange, _⟩ := Renaming.freeRegister_spec hnew
  obtain ⟨f, hf, _⟩ := ho.output_eq hc hd horder hi hout
  obtain ⟨w, hw, _⟩ := Field.edit_accepts (k := .target) (Word.decode_eq_ok_iff.mp hf).1
    (show 0 ≤ new ∧ new < 2 ^ 8 by omega)
  have hnode : (k : Int) ∈ g.nodes := by
    refine ho.edges.node k ?_
    rw [hc.bodyOf_length ho.block ho.basic]
    exact ho.index_lt horder
  refine (ends_edited hd.tabled (ho.block_eq hd) ho.basic hnode hnew hi.1 hi.2 hout hw).mono ?_
  rintro t ⟨u, hu, hstore⟩
  obtain ⟨j, hj, hrewrites⟩ := hu.rewrites hi.1 hi.2 fun m hm => ho.reader_ne hc hi.1 hm
  exact ⟨j, by rw [hstore]; exact hj, hrewrites.word⟩

end

/-- A renaming that fails leaves the records of the block alone exactly if there is no free
    register. Otherwise the word of the instruction has the new register in its target field
    already. The slots of the table keep their instructions. -/
theorem failed_rename_unchanged_iff {target : Target} {options : Options} {words : Array Word}
    {texts : Array String} (hwords : NoJumpBefore words) {c x y : Compilation}
    (hprep : Runs Optimize.prepare (start target options words texts) () c)
    {b n lastRow row : Int} {blk : Block} {g : Digraph} {r : Reach}
    (hnext : ComesNext c b n blk g lastRow r x) {id : Nat} {i : Instr} {o : Operand}
    (hi : InstrAt x blk n id i) (ho : i.output = some o) {v : LiveRange}
    (hv : x.ranges.conflict? o.register row = some v) {fault : Fault}
    (hfail : Fails (renameValue b blk g n row o.register (x.ranges.taken row)) x fault y) :
    y.table = x.table ∧
    ((∀ id' ∈ blk.body, y.store[id']? = x.store[id']?) ↔
      Renaming.freeRegister blk.liveOut (x.ranges.taken row) = .error .noRegister) ∧
    ∀ new, Renaming.freeRegister blk.liveOut (x.ranges.taken row) = .ok new →
      ∃ j, y.store[id]? = some j ∧ Word.setTarget i.word new = .ok j.word ∧ j.word ≠ i.word := by
  obtain ⟨parsed, hready⟩ := placeable_of_prepare hwords hprep
  have hc := hready.laid
  obtain ⟨b, k, _, _, _, order, earlier, rest, r₀, _, _, rfl, rfl, rfl, horder, _, _, _, _, _, hopen,
    hrun⟩ := hnext.opened hc hready.unplaced
  have hd := runs_placeInstrs hopen.ready hopen.edges hopen.places hopen.last ⟨_, horder.symm⟩ hrun
  have hb := hopen.block_eq hd
  have hfailed := attempted_of_fails hd.tabled hb hopen.basic hfail
  have hbegun : ∀ new, Renaming.freeRegister blk.liveOut (x.ranges.taken row) = .ok new →
      ∃ j, y.store[id]? = some j ∧ Word.setTarget i.word new = .ok j.word ∧ j.word ≠ i.word := by
    intro new hnew
    obtain ⟨hrange, hfree⟩ := Renaming.freeRegister_spec hnew
    obtain ⟨f, hf, hreg⟩ := hopen.output_eq hc hd horder hi ho
    obtain ⟨j, hj, hword⟩ := (hopen.rewritten hc hd horder hi ho hnew).fails hfail
    refine ⟨j, hj, hword, fun hsame => hfree ?_⟩
    -- the new register is not the one that the word had
    have hdecode := Word.decode_setTarget hword hf
    rw [hsame, hf] at hdecode
    have hdst : f.dst = new % 2 ^ 4 := congrArg Fields.dst (Except.ok.inj hdecode)
    rw [show new = o.register by omega]
    exact LiveRanges.mem_taken_of_conflict hv
  refine ⟨hfailed.renamed.table, ⟨fun hsame => ?_, fun hnone => ?_⟩, hbegun⟩
  · cases hnew : Renaming.freeRegister blk.liveOut (x.ranges.taken row) with
    | error e => rw [Renaming.freeRegister_error hnew]
    | ok new =>
      obtain ⟨j, hj, _, hne⟩ := hbegun new hnew
      rw [hsame id (mem_of_get hi.1), hi.2] at hj
      cases hj
      exact absurd rfl hne
  · intro id' _
    rw [hfailed.store_eq fun new hnew => by rw [hnone] at hnew; cases hnew]

/-- A value that is read again behind its block, in a register that is still needed. -/
def neededBehind : Compilation :=
  start {} { printTable := false }
    #[0xb701000001000000, 0xbf12000000000000, 0xb701000005000000, 0xbf14000000000000,
      0x0500000000000000, 0xbf10000000000000, 0x9500000000000000]
    #["r1 = 1", "r2 = r1", "r1 = 5", "r4 = r1", "goto +0", "r0 = r1", "exit"]

/-- The third instruction is left with another register in its word. -/
theorem failed_rename_unchanged_iff_neededBehind :
    ∃ c x y blk g r i o fault, Runs Optimize.prepare neededBehind () c ∧
      ComesNext c 1 2 blk g (-1) r x ∧ InstrAt x blk 2 2 i ∧ i.output = some o ∧
      Fails (renameValue 1 blk g 2 0 o.register (x.ranges.taken 0)) x fault y ∧
      ∃ j, y.store[2]? = some j ∧ j.word ≠ i.word := by
  obtain ⟨c, hc⟩ : ∃ c, c = stateAfter Optimize.prepare neededBehind := ⟨_, rfl⟩
  have hprep : Runs Optimize.prepare neededBehind () c := hc ▸ runs_stateAfter (by decide +kernel)
  have hblocks : finishes blockOrder c = true ∧ resultAfter blockOrder c = [1, 2] := by
    rw [hc]
    decide +kernel
  obtain ⟨r₀, hr₀⟩ : ∃ r : Reach, r = { row := -1, position := -1 } := ⟨_, rfl⟩
  have hfound : c.blocks[1]?.bind (fun blk =>
      (Dependence.graph blk.liveIn blk.liveOut (c.bodyOf blk)).toOption.bind fun g =>
        let placed := [0, 1].foldlM (placeInstr 1 blk g r₀.row) r₀
        let x := stateAfter placed c
        blk.body[2]?.bind fun id => x.store[2]?.bind fun i => i.output.bind fun o =>
          (x.ranges.conflict? o.register 0).bind fun _ =>
            (Renaming.freeRegister blk.liveOut (x.ranges.taken 0)).toOption.map fun _ =>
              (id, finishes (placementOrder blk g) c, resultAfter (placementOrder blk g) c,
                finishes placed c, finishes (renameValue 1 blk g 2 0 o.register (x.ranges.taken 0)) x))
      = some (2, true, [0, 1, 2, 3, 4], true, false) := by
    rw [hr₀, hc]
    decide +kernel
  obtain ⟨blk, hblk, hfound⟩ := Option.bind_eq_some_iff.mp hfound
  obtain ⟨g, hg, hfound⟩ := Option.bind_eq_some_iff.mp hfound
  obtain ⟨id, hid, hfound⟩ := Option.bind_eq_some_iff.mp hfound
  obtain ⟨i, hi, hfound⟩ := Option.bind_eq_some_iff.mp hfound
  obtain ⟨o, ho, hfound⟩ := Option.bind_eq_some_iff.mp hfound
  obtain ⟨v, hv, hfound⟩ := Option.bind_eq_some_iff.mp hfound
  obtain ⟨new, hnew, hfound⟩ := Option.map_eq_some_iff.mp hfound
  simp only [Prod.mk.injEq] at hfound
  obtain ⟨rfl, horder, hresult, hplaced, hfails⟩ := hfound
  have hwords : NoJumpBefore neededBehind.words := by decide +kernel
  have hlaid := (placeable_of_prepare hwords hprep).choose_spec.laid
  have hrun := runs_after hblocks.1
  rw [(blockOrder_spec hlaid hrun).1, hblocks.2] at hrun
  have hlisted := runs_after horder
  rw [(placementOrder_sorted hlisted).1, hresult] at hlisted
  have hnext : ComesNext c 1 2 blk g (-1) _ _ :=
    ⟨[1, 2], [], [0, 1, 2, 3, 4], [0, 1], r₀, c, c, hrun, by decide, by rw [hr₀]; rfl,
      Position.get_natCast.mpr hblk, eq_ok_of_toOption hg, rfl, hlisted, by decide,
      runs_after hplaced, by rw [hr₀]⟩
  obtain ⟨fault, y, hfails⟩ := fails_of_not_finishes hfails
  have hat : InstrAt (stateAfter ([0, 1].foldlM (placeInstr 1 blk g r₀.row) r₀) c) blk 2 2 i :=
    ⟨Position.get_natCast.mpr hid, hi⟩
  obtain ⟨j, hj, _, hne⟩ := (failed_rename_unchanged_iff hwords hprep hnext hat ho hv hfails).2.2 new
    (eq_ok_of_toOption hnew)
  exact ⟨c, _, y, blk, g, _, i, o, fault, hprep, hnext, hat, ho, hfails, j, hj, hne⟩

end Schedule
end BpfLanes
