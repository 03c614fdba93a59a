import BpfLanes.Proofs.FailedRenames
import BpfLanes.Proofs.FirstSlots

/-! # Values that are overwritten

A value that a block needs is on record from the instruction that writes it to the one
that uses it last. An instruction whose value would overwrite it heeds it: its own value
moves to a free register or, if there is none, it is put off. So it stands no earlier
than that last use. What is left to check is whether those that read a value which moved
were told, and the order of instructions that do not heed each other.
-/

namespace BpfLanes

open Compilation BpfLanes.Flow Dependence Placement

variable {q l : Int} {o : Operand} {v : LiveRange} {f f' : Fields}

theorem LiveRange.ended {row : Int} (h : ¬ v.outlives row = true) :
    ∃ last, v.endRow = some last ∧ last ≤ row := by
  unfold LiveRange.outlives at h
  cases hend : v.endRow with
  | none => simp [hend] at h
  | some last => exact ⟨last, rfl, by simpa [hend] using h⟩

theorem Fields.dst_of_output (h : f.output? = some q) : f.dst = q := by
  unfold Fields.output? at h
  split at h
  · cases h
  · exact Option.some.inj h

namespace Schedule

theorem runs_renameValue_free {b : Nat} {blk : Block} {g : Digraph} {n row old : Int}
    {used : List Int} {s t : Compilation} {u : Unit} (hb : s.blocks[b]? = some blk)
    (h : Runs (renameValue b blk g n row old used) s u t) :
    ∃ new, Renaming.freeRegister blk.liveOut used = .ok new := by
  unfold renameValue at h
  obtain ⟨ns, _, h⟩ := runs_lift_bind.mp h
  obtain ⟨_, _, h, _⟩ := runs_bind.mp h
  unfold Renaming.rename at h
  obtain ⟨blk', hblk', h⟩ := runs_block_bind.mp h
  rw [Position.get_natCast, hb] at hblk'
  cases hblk'
  obtain ⟨new, hnew, _⟩ := runs_lift_bind.mp h
  exact ⟨new, hnew⟩

/-! ## What an instruction does about a value in its way -/

/-- The value of instruction `k` of a block, which comes next in `x`, moves to another
    register: a value is in the way, and there is a free register. -/
def Moved (x : Compilation) (b : Int) (blk : Block) (g : Digraph) (top : Int) (r : Reach) (k : Int) :
    Prop :=
  ∃ s i v new, InTheWay x b blk g top r k s i v ∧
    Renaming.freeRegister blk.liveOut (x.ranges.taken s.row) = .ok new

variable {Q : Instr → Prop} {words : Array Word} {c c₀ d e y z : Compilation} {b k id : Nat}
  {blk : Block} {g : Digraph} {lastRow top : Int} {order done rest : List Int} {r r' : Reach}
  {s s₀ : Slot} {i j : Instr} {rs : Nat → Reach} {x : Nat → Compilation}

section
variable (hc : Laid Q words c) (ho : Opened c c₀ b blk g lastRow order)
  (hd : Partly c₀ b blk g lastRow order done r d) (horder : order = done ++ (k : Int) :: rest)
  (hi : InstrAt d blk k id i) (hfind : Runs (find b g lastRow r.row k) d s₀ d)
  (h : Cleared d b blk g lastRow r k s₀ s z)
include hc ho hd horder hi hfind h

/-- The value stays in its register, and its instruction behind a value in the way; or it
    moves, and the word says so. -/
theorem Opened.outcome :
    s₀.row ≤ s.row ∧
    ((z.store = d.store ∧ ¬ Moved d b blk g lastRow r k ∧
      ∀ i' v, InTheWay d b blk g lastRow r k s₀ i' v → ∃ row, v.endRow = some row ∧ row ≤ s.row) ∨
    ∃ v new j, InTheWay d b blk g lastRow r k s₀ i v ∧
      Renaming.freeRegister blk.liveOut (d.ranges.taken s₀.row) = .ok new ∧
      z.store[id]? = some j ∧ Word.setTarget i.word new = .ok j.word) := by
  cases h with
  | kept hs hz hclear =>
    subst hs hz
    refine ⟨Int.le_refl _, .inl ⟨rfl, ?_, fun i' v hv => absurd hv (hclear _ i' v)⟩⟩
    rintro ⟨s', i', v, _, hv, _⟩
    exact hclear s' i' v hv
  | renamed hv hs hrename =>
    obtain ⟨new, hnew⟩ := runs_renameValue_free (ho.block_eq hd) hrename
    obtain rfl := hv.instr_unique hi
    obtain ⟨o, hout, _⟩ := hv.needed
    obtain ⟨_, j, hj, hword⟩ := (ho.rewritten hc hd horder hi hout hnew).runs hrename
    exact ⟨by rw [hs], .inr ⟨_, new, j, hv, hnew, hj, hword⟩⟩
  | @later i' v fault z' floor printed hv hfail hfloor hrow hlt hz _ =>
    subst hz
    obtain rfl := hv.instr_unique hi
    obtain ⟨o, hout, _⟩ := hv.needed
    have hfailed := attempted_of_fails hd.tabled (ho.block_eq hd) ho.basic hfail
    refine ⟨by omega, ?_⟩
    cases hnew : Renaming.freeRegister blk.liveOut (d.ranges.taken s₀.row) with
    | ok new =>
      obtain ⟨j, hj, hword⟩ := (ho.rewritten hc hd horder hi hout hnew).fails hfail
      exact .inr ⟨v, new, j, hv, rfl, hj, hword⟩
    | error fault' =>
      refine .inl ⟨hfailed.store_eq fun new => by rw [hnew]; exact nofun, ?_, ?_⟩
      · rintro ⟨s', i', v', new, hv', hfree⟩
        obtain ⟨rfl, _, _⟩ := hv.unique hv'
        rw [hnew] at hfree
        cases hfree
      · intro i' v' hv'
        obtain ⟨_, _, rfl⟩ := hv.unique hv'
        exact ⟨floor, hfloor, by omega⟩

/-- Whether the value of an instruction moves is seen in its word. -/
theorem Opened.moved_step (hf : Fields.decode i.word = .ok f) (hq : f.output? = some q)
    (hj : z.store[id]? = some j) :
    (∃ f', Fields.decode j.word = .ok f' ∧ f'.output? = some q) ↔ ¬ Moved d b blk g lastRow r k := by
  obtain ⟨_, ⟨hstore, hstays, _⟩ | ⟨v, new, j', hv, hnew, hj', hword⟩⟩ :=
    ho.outcome hc hd horder hi hfind h
  · rw [hstore] at hj
    obtain rfl := Option.mem_unique hi.2 hj
    exact ⟨fun _ => hstays, fun _ => ⟨f, hf, hq⟩⟩
  · obtain rfl := Option.mem_unique hj hj'
    refine ⟨?_, fun hstays => absurd ⟨s₀, i, v, new, hv, hnew⟩ hstays⟩
    rintro ⟨f', hf', hsame⟩
    -- the new register is free, and the old one holds the value in the way
    obtain ⟨hrange, hfree⟩ := Renaming.freeRegister_spec hnew
    obtain ⟨o, hout, _, hconflict⟩ := hv.needed
    obtain ⟨f₁, hf₁, hreg⟩ := ho.output_eq hc hd horder hi hout
    obtain rfl := Except.ok.inj (hf.symm.trans hf₁)
    rw [Word.decode_setTarget hword hf] at hf'
    cases hf'
    have hdst := Fields.dst_of_output hsame
    have hold := Fields.dst_of_output hq
    refine absurd (LiveRanges.mem_taken_of_conflict hconflict) ?_
    rw [show o.register = new by dsimp only at hdst; omega]
    exact hfree

/-- An instruction that writes a register stands no earlier than the last use of the newest
    value on record for it, unless it is that last use. -/
theorem Opened.heeded_step (hout : i.output = some o)
    (hneeded : o.nextUse.all (fun p => p == 0) = false) (hj : z.store[id]? = some j)
    (hf' : Fields.decode j.word = .ok f') (hq : f'.output? = some q)
    (hv : LiveRanges.Newest d.ranges q v) (hown : blk.start ≤ v.definedBy)
    (hlast : v.lastUse = some l) (hstop : l ≤ blk.stop) (hplain : d.bounds.actionRegister ≠ some q)
    (hother : i.position ≠ some l) : ∃ row, v.endRow = some row ∧ row ≤ s.row := by
  obtain ⟨hle, hcase⟩ := ho.outcome hc hd horder hi hfind h
  obtain ⟨f, hf, hreg⟩ := ho.output_eq hc hd horder hi hout
  by_cases hlive : v.outlives s₀.row = true
  · rcases hcase with ⟨hstore, _, hbehind⟩ | ⟨_, new, j', _, hnew, hj', hword⟩
    · -- the instruction keeps its register, so the value is in the way
      rw [hstore] at hj
      obtain rfl := Option.mem_unique hi.2 hj
      obtain rfl := Except.ok.inj (hf.symm.trans hf')
      have hsame : o.register = q := hreg.trans (Fields.dst_of_output hq)
      refine hbehind i v ⟨hfind, ⟨id, hi⟩, ⟨o, hout, hneeded, ?_⟩, ⟨hown, ⟨l, hlast, hstop, hother⟩, ?_⟩⟩
      · rw [hsame]
        exact hv.conflict hlive
      · rw [hv.register_eq]
        exact hplain
    · -- it moved to a register without a value that is needed
      obtain rfl := Option.mem_unique hj hj'
      obtain ⟨hrange, hfree⟩ := Renaming.freeRegister_spec hnew
      rw [Word.decode_setTarget hword hf] at hf'
      cases hf'
      have hdst := Fields.dst_of_output hq
      refine absurd (LiveRanges.mem_taken.mpr ⟨v, hv.mem, ?_, hlive⟩) hfree
      rw [hv.register_eq]
      dsimp only at hdst
      omega
  · obtain ⟨row, hrow, hend⟩ := LiveRange.ended hlive
    exact ⟨row, hrow, by omega⟩

end

/-! ## Values that are heeded -/

/-- Instruction `k` of a block heeds the value of instruction `i`: it is on record in register
    `q` until instruction `l` of the block uses it last, nothing newer is on record there
    when `k` comes next, the value of `k` is needed as well, and `q` is not the register of
    the program's result. Each instruction `m` comes next in `x m`. -/
structure Heeds (e : Compilation) (x : Nat → Compilation) (blk : Block) (i k l : Nat) (q : Int) :
    Prop where
  lt : i < k
  inside : l < blk.body.size
  used : UsedLast (x i) blk i ((blk.start.toNat + l : Nat) : Int)
  recorded : OnRecord e blk i q
  newest : ∀ m last, i < m → m < k → UsedLast (x m) blk m last → ¬ OnRecord e blk m q
  needed : ∃ last, UsedLast (x k) blk k last
  plain : (x k).bounds.actionRegister ≠ some q

/-! ## A block -/

section
variable {rows : Int} (hc : Laid Q words c)
  (hin : Entered rows c c₀ b blk g order r) (hx : NextIn c₀ b blk g order r rs x)
  (h : Runs (order.foldlM (placeInstr b blk g r.row) r) c₀ r' e)
include hc hin h

theorem Entered.mem_of_onRecord (hrec : OnRecord e blk k q) : (k : Int) ∈ order := by
  have ho := hin.opened
  have hpartly := runs_placeInstrs ho.ready ho.edges ho.places ho.last (List.prefix_refl _) h
  obtain ⟨id, a, ha, hw⟩ := hrec
  have hid := Position.get_natCast.mp ha.1
  obtain ⟨id', i, f, hid', hi, hstands, hf⟩ := hc.standsFor_index ho.block ho.basic (lt_size hid)
  obtain rfl := Option.mem_unique hid hid'
  refine ho.lists.mpr ⟨f, ⟨id, i, ⟨ha.1, hi⟩, hf⟩, Bool.eq_false_iff.mpr fun hnop => ?_⟩
  -- what does nothing is not on record with an output
  obtain ⟨f', hf', _, hout⟩ := hstands.operands
  obtain rfl := Except.ok.inj (hf.symm.trans hf')
  rw [if_pos hnop, Option.map_eq_none_iff] at hout
  obtain ⟨j, hj, hop⟩ := hpartly.store.operation id i
    ((ho.same id (Array.mem_of_getElem? hid)).trans hi)
  obtain rfl := Option.mem_unique hj ha.2
  obtain ⟨o, ho', _⟩ := Instr.writes_iff.mp hw
  rw [hop.silent hout] at ho'
  cases ho'

include hx

/-- All that is known when instruction `k` comes next, and of what becomes of it. -/
theorem Entered.placing (hk : (k : Int) ∈ order) :
    ∃ done rest s₀ s z id i, order = done ++ (k : Int) :: rest ∧
      Partly c₀ b blk g r.row order done (rs k) (x k) ∧ Traced x blk done (x k) ∧
      Settled (x k) e blk done ∧ Runs (find b g r.row (rs k).row k) (x k) s₀ (x k) ∧
      InstrAt (x k) blk k id i ∧ Cleared (x k) b blk g r.row (rs k) k s₀ s z ∧
      (∀ j, InstrAt e blk k id j → z.store[id]? = some j) ∧ StandsAt e blk k s.row s.lane := by
  have ho := hin.opened
  obtain ⟨done, rest, _, _, _, _, hr⟩ := ho.reached hc hin.stacked h hk
  obtain ⟨rfl, rfl⟩ := (hx k done rest hr.split).unique hr.path
  obtain ⟨_, ht⟩ := ho.traced hc hx hin.foreign hin.ends ⟨_, hr.split.symm⟩ hr.path
  obtain ⟨s₀, s, z, id, i, _, _, hfind, hi, hcleared, hstore, hstands, _⟩ :=
    ho.value_step hr.partly hr.split hr.run (ht.new ho hr.split)
  refine ⟨done, rest, s₀, s, z, id, i, hr.split, hr.partly, ht, ?_, hfind, hi, hcleared,
    fun j hj => ?_, (standsAt_congr (hr.place (Nat.le_refl k))).mpr hstands⟩
  · exact (ho.settled_place hc hr.partly hr.split hr.run).trans
      (hr.settled.mono fun n hn => by simp [hn])
  · rw [← hstore]
    exact ((hr.settled.instr k (by simp) _ _).mp hj).2

/-- An instruction stands no earlier than the last use of a value that it heeds and whose
    register it overwrites. -/
theorem Entered.heeded {i l : Nat} {row lane : Int} (hheeds : Heeds e x blk i k l q)
    (hw : WordWrites e blk k q) (hs : StandsAt e blk k row lane) :
    ∃ row' lane', StandsAt e blk l row' lane' ∧ row' ≤ row := by
  by_cases heq : l = k
  · exact ⟨row, lane, heq ▸ hs, Int.le_refl _⟩
  have ho := hin.opened
  obtain ⟨f', hf', hq⟩ := hw
  have hk := hf'.index_lt
  have hpartly := runs_placeInstrs ho.ready ho.edges ho.places ho.last (List.prefix_refl _) h
  obtain ⟨done, rest, s₀, s, z, id, a, horder, hd, ht, hdone, hfind, ha, hcleared, hstore, hstands⟩ :=
    hin.placing hc hx h (mem_done_of_standsAt ho.ready hpartly (by omega) hs)
  have hmem {n : Int} : n ∈ done ↔ n ∈ order ∧ n < k := ho.places.mem_done horder
  -- the value is on record when `k` comes next, as the newest one of its register
  have hlt := hheeds.lt
  have hi : (i : Int) ∈ done := hmem.mpr ⟨hin.mem_of_onRecord hc h hheeds.recorded, by omega⟩
  obtain ⟨v, hv, hdef, huse⟩ := ht.newest i q _ hi hheeds.used
    ((hdone.onRecord hi).mp hheeds.recorded) fun m last hlt hm hused hrec =>
      hheeds.newest m last hlt (by have := (hmem.mp hm).2; omega) hused
        ((hdone.onRecord hm).mpr hrec)
  obtain ⟨last, id', a', o, ha', hout, hneeded, _⟩ := hheeds.needed
  obtain ⟨rfl, rfl⟩ := ha.unique ha'
  obtain ⟨id', j, hj, hdec⟩ := hf'
  obtain rfl := Except.ok.inj (ha.1.symm.trans hj.1)
  obtain ⟨a', ha', hpos⟩ := hd.tabled.instr _ _
    ⟨b, blk, k, ho.block_eq hd, ho.basic, Position.get_natCast.mp ha.1, rfl⟩
  obtain rfl := Option.mem_unique ha.2 ha'
  have hinside := hheeds.inside
  have hother : a.position ≠ some ((blk.start.toNat + l : Nat) : Int) := by
    rw [hpos]
    intro hsame
    have := Option.some.inj hsame
    omega
  obtain ⟨hstart, hstop⟩ := stop_eq hc ho.block ho.basic
  obtain ⟨row', hend, hle⟩ := ho.heeded_step hc hd horder ha hfind hcleared hout hneeded
    (hstore j hj) hdec hq hv (by omega) huse (by omega) hheeds.plain hother
  -- that use was placed by then, and stays where it is
  obtain ⟨p, pl, lane', hp, hpl, hrow', hlane'⟩ := ht.ends v hv.mem row' hend
  obtain rfl := Option.mem_unique huse hp
  have hl : StandsAt (x k) blk l row' lane' := ⟨pl, Position.get_natCast.mp hpl, hrow', hlane'⟩
  refine ⟨row', lane', ?_, ?_⟩
  · have hmem := mem_done_of_standsAt ho.ready hd hinside hl
    exact (standsAt_congr (hdone.place l l hmem (Nat.le_refl l))).mpr hl
  · rwa [(hstands.unique hs).1] at hle

/-- What an instruction writes is not renamed before it comes next. -/
theorem Entered.parsed (hf : FieldsAt c blk k f) (hnop : f.isNop = false)
    (hi : InstrAt (x k) blk k id i) :
    ∃ a src, InstrAt c blk k id a ∧ i.output = a.output ∧
      Fields.decode i.word = .ok { f with src } := by
  have ho := hin.opened
  obtain ⟨done, rest, _, _, _, _, _, horder, hd, _⟩ :=
    hin.placing hc hx h (ho.lists.mpr ⟨f, hf, hnop⟩)
  obtain ⟨id', a, ha, hdec⟩ := hf
  obtain rfl := Except.ok.inj (hi.1.symm.trans ha.1)
  have hid := Position.get_natCast.mp ha.1
  obtain ⟨i', hi', hrel⟩ := ((ho.history hc hd hid).1 (ho.places.not_mem_done horder)).instr a
    ((ho.same id (Array.mem_of_getElem? hid)).trans ha.2)
  obtain rfl := Option.mem_unique hi.2 hi'
  obtain ⟨_, hsrc, hout, _⟩ := hrel.1.fields hdec
  exact ⟨a, _, ha, hout, hsrc⟩

theorem Entered.moved_iff (hw : WritesAt c blk k q) :
    WordWrites e blk k q ↔ ¬ Moved (x k) b blk g r.row (rs k) k := by
  have ho := hin.opened
  obtain ⟨f₀, hf₀, hnop, hout₀⟩ := hw.fields hc ho.block ho.basic
  obtain ⟨done, rest, s₀, s, z, id, a, horder, hd, _, _, hfind, ha, hcleared, hstore, _⟩ :=
    hin.placing hc hx h (ho.lists.mpr ⟨f₀, hf₀, hnop⟩)
  obtain ⟨_, src, _, _, hdec⟩ := hin.parsed hc hx h hf₀ hnop ha
  have hpartly := runs_placeInstrs ho.ready ho.edges ho.places ho.last (List.prefix_refl _) h
  obtain ⟨j, hj, _⟩ := hpartly.tabled.instr _ _
    ⟨b, blk, k, ho.block_eq hpartly, ho.basic, Position.get_natCast.mp ha.1, rfl⟩
  rw [← ho.moved_step hc hd horder ha hfind hcleared hdec hout₀ (hstore j ⟨ha.1, hj⟩)]
  constructor
  · rintro ⟨f', ⟨id', j', hi', hdec'⟩, hq⟩
    obtain ⟨rfl, rfl⟩ := InstrAt.unique ⟨ha.1, hj⟩ hi'
    exact ⟨f', hdec', hq⟩
  · rintro ⟨f', hdec', hq⟩
    exact ⟨f', ⟨id, j, ⟨ha.1, hj⟩, hdec'⟩, hq⟩

/-- An instruction keeps the registers that it reads if neither its own value nor one that it
    reads moves. -/
theorem Entered.untouched {t : Nat} (hown : ¬ Moved (x k) b blk g r.row (rs k) k)
    (hfrom : ∀ reg i, Feeds (c.bodyOf blk) reg i k → ¬ Moved (x i) b blk g r.row (rs i) i)
    (hreads : ReadsAt c blk k t q) : WordReads e blk k t q := by
  have ho := hin.opened
  obtain ⟨a, o, ha, ho', rfl⟩ := hreads
  have hlt := (List.getElem?_eq_some_iff.mp ha).1
  obtain ⟨f, ⟨id, i, hi, hdec⟩, hinputs, _⟩ := fieldsAt_of_body hc ho.block ho.basic ha
  have hid := Position.get_natCast.mp hi.1
  have hindex : ∀ m, blk.body[m]? = some id → m = k := fun _ => hc.index_eq ho.block ho.basic hid
  have hkept := (ho.induct (fun done r₁ d =>
    Runs (done.foldlM (placeInstr b blk g r.row) r) c₀ r₁ d ∧ Stays (· = ·) id c₀ d)
    (List.prefix_refl _) h ⟨rfl, .of_same (fun _ => rfl) rfl rfl⟩ ?_).2.2
  · obtain ⟨j, hj, rfl⟩ := hkept.instr i ((ho.same id (Array.mem_of_getElem? hid)).trans hi.2)
    refine ⟨f, ⟨id, i, ⟨hi.1, hj⟩, hdec⟩, ?_⟩
    rw [← hinputs, List.getElem?_map, ho']
    rfl
  · rintro done m rest r₁ d r₂ d' hsplit _ ⟨hpath, hstays⟩ hr
    refine ⟨runs_foldlM_snoc hpath hr, ?_⟩
    obtain ⟨rfl, rfl⟩ := hpath.unique (hx m done rest hsplit)
    obtain ⟨hd, ht⟩ := ho.traced hc hx hin.foreign hin.ends ⟨_, hsplit.symm⟩ hpath
    by_cases hm : Moved (x m) b blk g r.row (rs m) m
    · -- another value moves, which the instruction does not read
      refine hstays.trans (ho.stays hd hsplit (fun _ => rfl) ?_ ?_ hr) fun _ _ _ h h' => h.trans h'
      · intro hget
        exact absurd (hindex m hget ▸ hm) hown
      · intro m' hedge _ hget
        obtain rfl := hindex m' hget
        obtain ⟨reg, m', hm', hfeeds⟩ := ho.edges.inner m _ hlt hedge (by omega)
        obtain rfl : m = m' := by omega
        exact absurd hm (hfrom reg m hfeeds)
    · obtain ⟨s₀, s, z, _, _, _, _, hfind, hi', hcleared, hstore, -⟩ :=
        ho.value_step hd hsplit hr (ht.new ho hsplit)
      obtain ⟨_, ⟨hsame, _⟩ | ⟨v, new, _, hv, hnew, _⟩⟩ :=
        ho.outcome hc hd hsplit hi' hfind hcleared
      · refine hstays.congr ?_ (hstore.trans hsame)
        exact (hd.step ho.ready ho.edges ho.places ho.last hsplit hr).frame.blocks.trans
          hd.frame.blocks.symm
      · exact absurd ⟨s₀, _, v, new, hv, hnew⟩ hm

end

/-- What becomes of overwrites in block `b`, in which each instruction `k` comes next in
    `x k`. -/
structure Overwrites (c e : Compilation) (b : Nat) (blk : Block) (g : Digraph) (top : Int)
    (r : Nat → Reach) (x : Nat → Compilation) : Prop where
  next : ∀ k, Active c blk k → ComesNext c b k blk g top (r k) (x k)
  /-- what an instruction writes is the same as ever when it comes next -/
  parsed : ∀ (k id : Nat) (i : Instr), Active c blk k → InstrAt (x k) blk k id i →
    ∃ a, InstrAt c blk k id a ∧ i.output = a.output
  /-- what overwrites a value that it heeds does not stand before its last use -/
  heeded : ∀ (i k l : Nat) (q row lane : Int), Heeds e x blk i k l q → WordWrites e blk k q →
    StandsAt e blk k row lane → ∃ row' lane', StandsAt e blk l row' lane' ∧ row' ≤ row
  /-- an instruction writes another register exactly if its value moves -/
  moved : ∀ (k : Nat) (q : Int), WritesAt c blk k q →
    (WordWrites e blk k q ↔ ¬ Moved (x k) b blk g top (r k) k)
  /-- it reads the same registers if neither its value nor one that it reads moves -/
  untouched : ∀ (j t : Nat) (q : Int), ReadsAt c blk j t q → ¬ Moved (x j) b blk g top (r j) j →
    (∀ reg i, Feeds (c.bodyOf blk) reg i j → ¬ Moved (x i) b blk g top (r i) i) →
    WordReads e blk j t q

theorem Entered.overwrites {rows : Int} (hc : Laid Q words c)
    (hin : Entered rows c c₀ b blk g order r)
    (h : Runs (order.foldlM (placeInstr b blk g r.row) r) c₀ r' e) :
    ∃ rs x, Overwrites c e b blk g r.row rs x := by
  have ho := hin.opened
  obtain ⟨rs, x, hx⟩ := ho.exists_nextIn h
  refine ⟨rs, x, ?_, ?_, ?_, ?_, ?_⟩
  · intro k hk
    obtain ⟨done, rest, horder⟩ := List.append_of_mem (ho.lists.mpr hk)
    exact hin.each done k _ _ ⟨rest, by rw [horder]; simp⟩ (hx k done rest horder)
  · rintro k id i ⟨f, hf, hnop⟩ hi
    obtain ⟨a, _, ha, hout, _⟩ := hin.parsed hc hx h hf hnop hi
    exact ⟨a, ha, hout⟩
  · intro i k l q row lane hheeds hw hs
    exact hin.heeded hc hx h hheeds hw hs
  · intro k q hw
    exact hin.moved_iff hc hx h hw
  · intro j t q hreads hown hfrom
    exact hin.untouched hc hx h hown hfrom hreads

theorem onRecord_congr {k : Nat}
    (h : ∀ id ∈ blk.body, e.store[id]?.map Instr.output = d.store[id]?.map Instr.output) :
    OnRecord e blk k q ↔ OnRecord d blk k q := by
  have hone : ∀ {d e : Compilation},
      (∀ id ∈ blk.body, e.store[id]?.map Instr.output = d.store[id]?.map Instr.output) →
      OnRecord e blk k q → OnRecord d blk k q := by
    rintro d e h ⟨id, a, ⟨hid, ha⟩, hw⟩
    have hsame := h id (mem_of_get hid)
    rw [ha, Option.map_some] at hsame
    obtain ⟨a', ha', hout⟩ := Option.map_eq_some_iff.mp hsame.symm
    obtain ⟨o, ho, hreg⟩ := Instr.writes_iff.mp hw
    exact ⟨id, a', ⟨hid, ha'⟩, Instr.writes_iff.mpr ⟨o, hout.trans ho, hreg⟩⟩
  exact ⟨hone h, hone fun id hid => (h id hid).symm⟩

theorem Overwrites.congr (h : Overwrites c d b blk g top rs x)
    (hplace : ∀ k, k < blk.body.size → placeIn e blk k = placeIn d blk k)
    (hout : ∀ id ∈ blk.body, e.store[id]?.map Instr.output = d.store[id]?.map Instr.output)
    (hkept : RegistersKept d e blk)
    (hfields : ∀ k : Nat, k < blk.body.size → ∃ f, FieldsAt d blk k f) :
    Overwrites c e b blk g top rs x := by
  have hwrites : ∀ k q, WordWrites e blk k q ↔ WordWrites d blk k q := by
    intro k q
    constructor
    · rintro ⟨f', hf', hq⟩
      obtain ⟨f, hf⟩ := hfields k (by have := hf'.index_lt; omega)
      obtain ⟨offset, hfe⟩ := hkept k f hf
      obtain rfl := hf'.unique hfe
      exact ⟨f, hf, hq⟩
    · rintro ⟨f, hf, hq⟩
      obtain ⟨offset, hfe⟩ := hkept k f hf
      exact ⟨_, hfe, hq⟩
  refine ⟨h.next, h.parsed, ?_, ?_, ?_⟩
  · intro i k l q row lane hheeds hw hs
    have hk : k < blk.body.size := by
      obtain ⟨f, hf, _⟩ := hw
      have := hf.index_lt
      omega
    have hheeds' : Heeds d x blk i k l q := ⟨hheeds.lt, hheeds.inside, hheeds.used,
      (onRecord_congr hout).mp hheeds.recorded, fun m last hlt hlt' hused =>
        (onRecord_congr hout).not.mp (hheeds.newest m last hlt hlt' hused), hheeds.needed,
      hheeds.plain⟩
    obtain ⟨row', lane', hl, hle⟩ := h.heeded i k l q row lane hheeds' ((hwrites k q).mp hw)
      ((standsAt_congr (hplace k hk)).mp hs)
    exact ⟨row', lane', (standsAt_congr (hplace l hheeds.inside)).mpr hl, hle⟩
  · intro k q hw
    rw [hwrites, h.moved k q hw]
  · intro j t q hreads hown hfrom
    obtain ⟨f, hf, hq⟩ := h.untouched j t q hreads hown hfrom
    obtain ⟨offset, hfe⟩ := hkept j f hf
    exact ⟨_, hfe, hq⟩

/-- What is known of a block when all are placed. -/
structure Outcome (c d : Compilation) (b : Nat) (blk : Block) : Prop where
  fields : ∀ k : Nat, k < blk.body.size → ∃ f, FieldsAt d blk k f
  overwrites : ∃ g top rs x, Overwrites c d b blk g top rs x
  inPlace : InPlace (c.bodyOf blk) → SameBody c d blk

theorem outcome_of_placeAll {rows : Int} (hc : Laid Q words c) (hempty : NothingPlaced c)
    (ht : Table.Sized rows c.target.lanes c.table)
    (hnext : ∀ (b : Nat) (blk : Block), c.blocks[b]? = some blk → blk.kind = .basic → NextUses c blk)
    {u : Unit} (h : Runs placeAll c u d) (hb : c.blocks[b]? = some blk) (hkind : blk.kind = .basic) :
    Outcome c d b blk := by
  refine forall_entered_of_placeAll hc hempty ht ?_ ?_ h hb hkind
  · intro b blk g order r r' c₀ e hin hr
    have ho := hin.opened
    obtain ⟨rs, x, hx⟩ := ho.exists_nextIn hr
    obtain ⟨hpartly, _⟩ := ho.traced hc hx hin.foreign hin.ends (List.prefix_refl _) hr
    refine ⟨?_, ⟨g, r.row, hin.overwrites hc hr⟩, ?_⟩
    · intro k hk
      obtain ⟨id, i, f, hid, hi, _, hf⟩ := hc.standsFor_index ho.block ho.basic hk
      obtain ⟨j, hj, hop⟩ := hpartly.store.operation id i
        ((ho.same id (Array.mem_of_getElem? hid)).trans hi)
      obtain ⟨f', hf', _⟩ := hop.fields f hf
      exact ⟨f', id, j, ⟨Position.get_natCast.mpr hid, hj⟩, hf'⟩
    · intro hplain
      exact (ho.inPlace hc hx hin.foreign hin.ends (hnext b blk ho.block ho.basic) hplain
        (List.prefix_refl _) hr).1
  · rintro d e b blk hplaces hsame _ ⟨hfields, ⟨g, top, rs, x, hover⟩, hplain⟩
    refine ⟨fun k hk => ?_, ⟨g, top, rs, x, hover.congr hplaces (fun id hid => by rw [hsame id hid])
      (fun k f hf => ⟨f.offset, hsame.fieldsAt.mpr hf⟩) hfields⟩, fun hin id hid => ?_⟩
    · obtain ⟨f, hf⟩ := hfields k hk
      exact ⟨f, hsame.fieldsAt.mpr hf⟩
    · rw [hsame id hid]
      exact hplain hin id hid

/-! ## Dataflow -/

variable {r : Nat → Reach}
theorem WordWrites.unique {k : Nat} {q' : Int} (h : WordWrites e blk k q)
    (h' : WordWrites e blk k q') : q = q' := by
  obtain ⟨f, hf, hq⟩ := h
  obtain ⟨f', hf', hq'⟩ := h'
  obtain rfl := hf.unique hf'
  exact Option.mem_unique hq hq'

section
variable (h : Overwrites c e b blk g top r x)
include h

end

/-! ## A whole compilation -/

section
variable {target : Target} {options : Options} {words : Array Word} {texts : Array String}
  (hwords : NoJumpBefore words) {c e : Compilation}
  (hprep : Runs Optimize.prepare (start target options words texts) () c)
  (hrun : Runs Optimize.run (start target options words texts) () e) {b : Nat} {blk : Block}
  (hb : c.blocks[b]? = some blk) (hkind : blk.kind = .basic)
include hwords hprep hrun hb hkind

theorem overwrites_of_run :
    AllPlaced c e ∧ (∃ g top r x, Overwrites c e b blk g top r x) ∧
      (InPlace (c.bodyOf blk) → RegistersKept c e blk) := by
  obtain ⟨c', d₀, d, parsed, order, r, hprep', hready, hplace, hd₀, hlists, hd, hrows⟩ :=
    Optimize.runs_run hwords hrun
  obtain ⟨_, rfl⟩ := hprep.unique hprep'
  have hc := hready.laid
  have hplaced := outcome_of_placeAll hc hready.unplaced hready.sized hready.nextUses hplace hb hkind
  have hsame : SameBody d₀ d blk := by
    intro id _
    rw [hd₀]
  refine ⟨allPlaced_of_retargeted hc hlists hd hrows.retargeted, ?_, fun hin => ?_⟩
  · obtain ⟨g, top, rs, x, hover⟩ := hplaced.overwrites
    refine ⟨g, top, rs, x, hover.congr ?_ ?_ (registersKept_of_sameBody hsame hrows.retargeted)
      hplaced.fields⟩
    · intro k _
      unfold placeIn
      rw [hrows.retargeted.rest, hd₀]
    · intro id hid
      rw [hrows.retargeted.map_eq (fun i j h => h.operands.2) id, hsame id hid]
  · refine registersKept_of_sameBody (fun id hid => ?_) hrows.retargeted
    rw [hsame id hid]
    exact hplaced.inPlace hin id hid

end

end Schedule
end BpfLanes
