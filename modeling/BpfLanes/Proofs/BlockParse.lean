import BpfLanes.Proofs.BlockCut
import BpfLanes.Proofs.TopologicalOrder

/-! # The blocks of a program

Parsing fills the blocks that a program was cut into: the instructions of a basic
block stand for the words from its start to its end, the schedule knows the block
of every instruction, and a jump knows the block that it leads to.
-/

namespace BpfLanes

open Compilation

variable {words : Array Word} {f : Fields} {i : Instr} {Q : Instr → Prop} {b' t : Nat}
  {text : String} {word : Word}

/-- A register without what is known about its next use. -/
def Operand.bare (o : Operand) : Operand :=
  { register := o.register }

/-- No next uses are noted in the operands of an instruction. -/
def Instr.Unmarked (i : Instr) : Prop :=
  i.inputs.map Operand.bare = i.inputs ∧ i.output.map Operand.bare = i.output

/-- Instruction `i` is the one at position `p` of a program. Nothing is said about
    next uses and about the block that a jump leads to. -/
structure Instr.StandsFor (words : Array Word) (p : Nat) (i : Instr) : Prop where
  word : words[p]? = some i.word
  position : i.position = some (p : Int)
  operands : ∃ f, Fields.decode i.word = .ok f
    ∧ i.inputs.map Operand.register = f.inputs
    ∧ i.output.map Operand.register = if f.isNop then none else f.output?

theorem Instr.parse_unmarked {p : Int} (h : Instr.parse word text p = .ok i) : i.Unmarked := by
  obtain ⟨f, _, h⟩ := bind_eq_ok.mp h
  cases h
  refine ⟨?_, ?_⟩
  · rw [List.map_map]
    rfl
  · dsimp only
    split
    · rfl
    · rw [Option.map_map]
      rfl

theorem Instr.parse_standsFor {p : Nat} (hw : words[p]? = some word)
    (h : Instr.parse word text p = .ok i) : i.StandsFor words p := by
  obtain ⟨f, hf, h⟩ := bind_eq_ok.mp h
  cases h
  refine ⟨hw, rfl, f, hf, ?_, ?_⟩
  · rw [List.map_map]
    exact List.map_id _
  · dsimp only
    split
    · rfl
    · rw [Option.map_map]
      exact Option.map_id'

namespace Flow

variable {b p start m id k size : Nat} {c d e s : Compilation} {u : Unit} {blk : Block}
  {blocks blocks' : Array Block} {middle : List Block}

/-! ## Parsing one block -/

theorem runs_parseInto (h : Runs (parseInto b p) c u d) :
    ∃ i blk pl, i.StandsFor c.words p ∧ i.Unmarked ∧ c.blocks[b]? = some blk
      ∧ c.schedule[p]? = some pl
      ∧ d = { c with
        store := c.store.push i
        blocks := c.blocks.setIfInBounds b { blk with body := blk.body.push c.store.size }
        schedule := c.schedule.setIfInBounds p { pl with block := some (b : Int) } } := by
  unfold parseInto at h
  simp only [runs_get_bind] at h
  simp only [runs_lift_bind, Position.get_natCast] at h
  obtain ⟨word, hword, text, _, i, hi, h⟩ := h
  simp only [runs_modify_bind] at h
  obtain ⟨blk, _, hr, h⟩ := runs_bind.mp h
  obtain ⟨hblk, rfl⟩ := runs_block.mp hr
  obtain ⟨_, _, hr, h⟩ := runs_bind.mp h
  obtain ⟨blocks, hset, rfl⟩ := runs_setBlock.mp hr
  obtain ⟨q, pl, schedule, hq, hpl, hsched, rfl⟩ := runs_setPlace.mp h
  obtain rfl := (Option.some.inj hq).symm
  rw [Position.get_natCast] at hblk hpl
  rw [Position.set_natCast] at hset hsched
  obtain ⟨_, rfl⟩ := hset
  obtain ⟨_, rfl⟩ := hsched
  exact ⟨i, blk, pl, Instr.parse_standsFor hword hi, Instr.parse_unmarked hi, hblk, hpl, rfl⟩

/-- The first `m` instructions of a block have been parsed: they are the newest ones in
    the store, and the schedule knows their block. -/
structure Filled (c : Compilation) (b start : Nat) (blk : Block) (m : Nat) (d : Compilation) :
    Prop where
  rest : d = { c with store := d.store, blocks := d.blocks, schedule := d.schedule }
  size : d.store.size = c.store.size + m
  old : ∀ (id : Nat) (i : Instr), c.store[id]? = some i → d.store[id]? = some i
  new : ∀ k, k < m → ∃ i : Instr, d.store[c.store.size + k]? = some i
    ∧ i.StandsFor c.words (start + k) ∧ i.Unmarked
  blocks : d.blocks = c.blocks.setIfInBounds b
    { blk with body := blk.body ++ ((List.range m).map (c.store.size + ·)).toArray }
  schedule : ∀ q : Nat, d.schedule[q]? =
    if start ≤ q ∧ q < start + m then c.schedule[q]?.map ({ · with block := some (b : Int) })
    else c.schedule[q]?
  inside : ∀ k, k < m → start + k < c.schedule.size
  places : d.schedule.size = c.schedule.size

theorem Filled.zero (hblk : c.blocks[b]? = some blk) : Filled c b start blk 0 c := by
  refine ⟨rfl, rfl, fun _ _ h => h, by simp, ?_, ?_, by simp, rfl⟩
  · have hsame : c.blocks.setIfInBounds b blk = c.blocks := by grind
    simp [hsame]
  · intro q
    rw [if_neg (by omega)]

theorem Filled.step (hblk : c.blocks[b]? = some blk) (hd : Filled c b start blk m d)
    (h : Runs (parseInto b ((start + m : Nat) : Int)) d u e) : Filled c b start blk (m + 1) e := by
  have hb := lt_size hblk
  obtain ⟨i, blk', pl, hi, hfresh, hget, hpl, rfl⟩ := runs_parseInto h
  have hwords : d.words = c.words := by rw [hd.rest]
  rw [hd.blocks, Array.getElem?_setIfInBounds_self_of_lt hb] at hget
  cases hget
  -- position `start + m` has not been touched so far
  have hplace : c.schedule[start + m]? = some pl := by
    have hq := hd.schedule (start + m)
    rw [if_neg (by omega)] at hq
    exact hq.symm.trans hpl
  have hold : ∀ (id : Nat) (j : Instr), d.store[id]? = some j → (d.store.push i)[id]? = some j := by
    intro id j hj
    have hlt := lt_size hj
    rw [Array.getElem?_push_lt hlt]
    exact (Array.getElem?_eq_getElem hlt).symm.trans hj
  refine ⟨?_, ?_, ?_, ?_, ?_, ?_, ?_, ?_⟩
  · rw [hd.rest]
  · rw [Array.size_push, hd.size]
    omega
  · intro id j hj
    exact hold id j (hd.old id j hj)
  · intro k hk
    by_cases hkm : k < m
    · obtain ⟨j, hj, hstands⟩ := hd.new k hkm
      exact ⟨j, hold _ j hj, hstands⟩
    · obtain rfl : k = m := by omega
      refine ⟨i, ?_, hwords ▸ hi, hfresh⟩
      rw [← hd.size]
      exact Array.getElem?_push_size
  · dsimp only
    rw [hd.blocks, Array.setIfInBounds_setIfInBounds, hd.size]
    rw [List.range_succ, ← Array.toList_inj]
    simp
  · intro q
    have hin : start + m < d.schedule.size := lt_size hpl
    rw [Array.getElem?_setIfInBounds]
    by_cases hq : start + m = q
    · subst hq
      rw [if_pos rfl, if_pos hin, if_pos (by omega), hplace]
      rfl
    · rw [if_neg hq, hd.schedule]
      by_cases hm : start ≤ q ∧ q < start + m
      · rw [if_pos hm, if_pos (by omega)]
      · rw [if_neg hm, if_neg (by omega)]
  · intro k hk
    by_cases hkm : k < m
    · exact hd.inside k hkm
    · obtain rfl : k = m := by omega
      exact lt_size hplace
  · exact Array.size_setIfInBounds.trans hd.places

theorem runs_parseBody (hblk : c.blocks[b]? = some blk) (hstart : 0 ≤ blk.start)
    (h : Runs ((List.range blk.len.toNat).forM fun (n : Nat) => parseInto b (blk.start + n)) c u
    d) :
    Filled c b blk.start.toNat blk blk.len.toNat d := by
  have hloop := runs_forM_induct (fun m t => Filled c b blk.start.toNat blk m t) h
    (Filled.zero hblk) ?_
  · simpa using hloop
  · intro m n s t hn hs hr
    obtain ⟨_, rfl⟩ := List.getElem?_eq_some_iff.mp hn
    rw [List.getElem_range] at hr
    refine hs.step (u := ⟨⟩) hblk ?_
    have hcast : ((blk.start.toNat + m : Nat) : Int) = blk.start + m := by omega
    rwa [hcast]

/-! ## Linking one block -/

/-- Where a block is cut, without its instructions, its links and what is live. -/
def outline (blk : Block) : Block :=
  { kind := blk.kind, start := blk.start, len := blk.len }

theorem outlines_set {blk' : Block} (hblk : blocks[b]? = some blk) (h : outline blk' = outline
    blk) :
    (blocks.setIfInBounds b blk').map outline = blocks.map outline := by
  grind

theorem ordered_of_outlines (h : blocks'.map outline = blocks.map outline)
    (hord : blocks.toList.Pairwise Precedes) : blocks'.toList.Pairwise Precedes := by
  have hmap : ∀ bs : Array Block,
      bs.toList.Pairwise Precedes ↔ (bs.map outline).toList.Pairwise Precedes := by
    intro bs
    rw [Array.toList_map, List.pairwise_map]
    exact Iff.rfl
  rwa [hmap, h, ← hmap]

theorem block_of_outlines (h : blocks'.map outline = blocks.map outline)
    (ht : blocks[t]? = some blk) :
    ∃ blk', blocks'[t]? = some blk' ∧ blk'.kind = blk.kind ∧ blk'.start = blk.start
      ∧ blk'.len = blk.len := by
  obtain ⟨blk', hblk', hout⟩ := getElem?_of_map_eq h ht
  exact ⟨blk', hblk', by simpa [outline] using hout⟩

theorem blockOfLeader_runs (hord : c.blocks.toList.Pairwise Precedes) (ht : c.blocks[t]? = some blk)
    (hkind : blk.kind = .basic) : Runs (blockOfLeader blk.start) c t c := by
  obtain ⟨hlt, hget⟩ := Array.getElem?_eq_some_iff.mp ht
  have hfind : c.blocks.findIdx? (fun x => x.start == blk.start) = some t := by
    refine Array.findIdx?_eq_some_iff_getElem.mpr ⟨hlt, by simp [hget], ?_⟩
    intro k hk
    -- an earlier block starts strictly before a basic one
    have hprec := List.pairwise_iff_getElem.mp hord k t (by simp; omega) (by simpa) hk
    simp only [Array.getElem_toList, hget] at hprec
    have hlow := (hprec.2 hkind).1
    simp only [beq_iff_eq]
    omega
  unfold blockOfLeader
  simp only [runs_get_bind, hfind]
  exact runs_pure.mpr ⟨rfl, rfl⟩

/-- The links of block `b`, one of `count`, that ends in an instruction with the fields
    `f`: where its branch leads and which block follows. A jump leads to block `t`. -/
def linksOf (count b : Nat) (f : Fields) (t : Int) : List Int × Option Int :=
  if f.isCall then ([(b : Int) + 1], none)
  else if f.isJump then ([t], if f.isGoto then none else some ((b : Int) + 1))
  else if f.isExit then ([(count : Int) - 1], none)
  else ([], some ((b : Int) + 1))

theorem linksOf_nonneg {count : Nat} {t : Int} (hcount : 0 < count) (ht : 0 ≤ t) :
    (∀ x ∈ (linksOf count b f t).1, 0 ≤ x) ∧ ∀ x, (linksOf count b f t).2 = some x → 0 ≤ x := by
  unfold linksOf
  grind

theorem linkBlock_call_runs (hblk : c.blocks[b]? = some blk) (hkind : blk.kind = .call) :
    Runs (linkBlock b) c () { c with
      blocks := c.blocks.setIfInBounds b { blk with fall := some ((b : Int) + 1), taken := [] } } := by
  have hb := lt_size hblk
  unfold linkBlock
  simp only [runs_block_bind, Position.get_natCast, hblk, Option.some.injEq, exists_eq_left',
    hkind, if_true, runs_setBlock]
  exact ⟨_, Position.set_natCast.mpr ⟨hb, rfl⟩, rfl⟩

/-- A basic block is linked as its last instruction says, which, if it is a jump, learns
    the block that it leads to. -/
theorem linkBlock_runs {tblk : Block} (hord : c.blocks.toList.Pairwise Precedes)
    (hblk : c.blocks[b]? = some blk) (hkind : blk.kind = .basic)
    (hid : blk.body[blk.body.size - 1]? = some id) (hi : c.store[id]? = some i)
    (hf : Fields.decode i.word = .ok f)
    (htarget : f.isJump = true → c.blocks[t]? = some tblk ∧ tblk.kind = .basic
      ∧ tblk.start = blk.stop + f.offset) : Runs (linkBlock b) c () { c with
      store := if f.isJump then c.store.setIfInBounds id { i with jumpsTo := some (t : Int) }
        else c.store
      blocks := c.blocks.setIfInBounds b { blk with
        taken := blk.taken ++ (linksOf c.blocks.size b f t).1
        fall := (linksOf c.blocks.size b f t).2 } } := by
  obtain ⟨hb, hget⟩ := Array.getElem?_eq_some_iff.mp hblk
  have hbasic : ¬ blk.kind = .call := by
    rw [hkind]
    decide
  unfold linkBlock linksOf
  simp only [runs_block_bind, Position.get_natCast, hblk, Option.some.injEq, exists_eq_left', hbasic,
    if_false, runs_setBlock_bind, Position.set_natCast, runs_idAt_bind, Position.get_last, hid,
    runs_instr_bind, hi,
    runs_fieldsOf_bind, hf, Except.ok.injEq, hb, true_and, exists_eq_left]
  by_cases hcall : f.isCall = true
  · simp only [hcall, not_isJump_of_isCall hcall, if_true, runs_setBlock, Position.set_natCast,
      Array.size_setIfInBounds, hb, true_and, exists_eq_left, Array.setIfInBounds_setIfInBounds,
      Bool.false_eq_true, if_false]
  by_cases hj : f.isJump = true
  · -- the target is looked up among blocks that start where they did
    obtain ⟨ht, htkind, htstart⟩ := htarget hj
    have houts : (c.blocks.setIfInBounds b { blk with fall := some ((b : Int) + 1) }).map outline
        = c.blocks.map outline := outlines_set hblk rfl
    obtain ⟨x, hx, hk, hs, _⟩ := block_of_outlines houts ht
    have hfound := blockOfLeader_runs (c := { c with
      blocks := c.blocks.setIfInBounds b { blk with fall := some ((b : Int) + 1) } })
      (ordered_of_outlines houts hord) hx (hk.trans htkind)
    rw [hs, htstart] at hfound
    simp only [hcall, hj, if_true, Bool.false_eq_true, if_false]
    refine runs_bind.mpr ⟨(t : Int), _, hfound, ?_⟩
    simp only [runs_setBlock_bind, Position.set_natCast, Array.size_setIfInBounds, hb, true_and,
      exists_eq_left, Array.setIfInBounds_setIfInBounds, runs_setInstr]
  by_cases hexit : f.isExit = true
  · simp only [hcall, hj, hexit, if_true, Bool.false_eq_true, if_false, runs_get_bind,
      runs_setBlock, Position.set_natCast, Array.size_setIfInBounds, hb, true_and,
      exists_eq_left, Array.setIfInBounds_setIfInBounds]
  · simp only [hcall, hj, hexit, Bool.false_eq_true, if_false, runs_pure, List.append_nil,
      true_and]

/-! ## Blocks that hold their instructions -/

/-- Block `b` holds the instructions of a program from its start to its end, which all
    satisfy `Q`. A jump among them leads to the block that starts at its target. -/
structure Holds (Q : Instr → Prop) (words : Array Word) (c : Compilation) (b : Nat)
    (blk : Block) : Prop where
  size : blk.body.size = blk.len.toNat
  instr : ∀ k id : Nat, blk.body[k]? = some id →
    ∃ i : Instr, c.store[id]? = some i ∧ i.StandsFor words (blk.start.toNat + k) ∧ Q i
  jump : ∀ (k id : Nat) (i : Instr) (f : Fields), blk.body[k]? = some id → c.store[id]? = some i →
    Fields.decode i.word = .ok f → f.isJump = true →
    ∃ (t : Nat) (tblk : Block), i.jumpsTo = some (t : Int) ∧ c.blocks[t]? = some tblk
      ∧ tblk.kind = .basic ∧ tblk.start = blk.start + k + 1 + f.offset
  place : ∀ k : Nat, k < blk.body.size → c.schedule[blk.start.toNat + k]? =
    some { block := some (b : Int), time := (blk.start.toNat + k : Nat) }
  taken : ∀ t ∈ blk.taken, 0 ≤ t
  fall : ∀ t, blk.fall = some t → 0 ≤ t

/-- A step adds to the store and may change one block and the places of instructions. -/
structure Grows (b : Nat) (c d : Compilation) : Prop where
  rest : d = { c with store := d.store, blocks := d.blocks, schedule := d.schedule }
  old : ∀ (id : Nat) (i : Instr), c.store[id]? = some i → d.store[id]? = some i
  others : ∀ b' : Nat, b' ≠ b → d.blocks[b']? = c.blocks[b']?
  outlines : d.blocks.map outline = c.blocks.map outline

theorem Holds.mono (hc : Holds Q words c b blk) (hd : Grows b' c d)
    (hplace : ∀ k, k < blk.body.size → d.schedule[blk.start.toNat + k]? =
      c.schedule[blk.start.toNat + k]?) : Holds Q words d b blk := by
  refine ⟨hc.size, ?_, ?_, ?_, hc.taken, hc.fall⟩
  · intro k id hid
    obtain ⟨i, hi, hstands⟩ := hc.instr k id hid
    exact ⟨i, hd.old id i hi, hstands⟩
  · intro k id i f hid hi hf hj
    obtain ⟨i', hi', _⟩ := hc.instr k id hid
    obtain rfl := Option.mem_unique (hd.old id i' hi') hi
    obtain ⟨t, tblk, hto, ht, hkind, hstart⟩ := hc.jump k id i' f hid hi' hf hj
    obtain ⟨tblk', ht', hk, hs, _⟩ := block_of_outlines hd.outlines ht
    exact ⟨t, tblk', hto, ht', hk.trans hkind, hs.trans hstart⟩
  · intro k hk
    rw [hplace k hk]
    exact hc.place k hk

theorem Holds.congr (hc : Holds Q words c b blk) (hstore : d.store = c.store)
    (hblocks : d.blocks = c.blocks) (hsched : d.schedule = c.schedule) : Holds Q words d b blk := by
  refine ⟨hc.size, ?_, ?_, ?_, hc.taken, hc.fall⟩
  · rw [hstore]
    exact hc.instr
  · rw [hstore, hblocks]
    exact hc.jump
  · rw [hsched]
    exact hc.place

/-- What has to be known about the cut of a program to fill its blocks. -/
structure CutWell (words : Array Word) (blocks : Array Block) : Prop where
  ordered : blocks.toList.Pairwise Precedes
  span : ∀ (b : Nat) (blk : Block), blocks[b]? = some blk → blk.kind = .basic →
    0 ≤ blk.start ∧ blk.start < blk.stop ∧ blk.stop ≤ words.size
  branch : ∀ (b : Nat) (blk : Block) (p : Nat) (w : Word) (f : Fields), blocks[b]? = some blk →
    blk.kind = .basic → blk.start ≤ p → p + 1 < blk.stop → words[p]? = some w →
    Fields.decode w = .ok f → f.isBranch = false
  target : ∀ (p : Nat) (w : Word) (f : Fields), words[p]? = some w → Fields.decode w = .ok f →
    f.isJump = true → ∃ (t : Nat) (tblk : Block), blocks[t]? = some tblk ∧ tblk.kind = .basic
      ∧ tblk.start = (p : Int) + f.offset + 1

theorem CutWell.of_outlines (h : blocks'.map outline = blocks.map outline)
    (hc : CutWell words blocks) : CutWell words blocks' := by
  refine ⟨ordered_of_outlines h hc.ordered, ?_, ?_, ?_⟩
  · intro b blk hb hkind
    obtain ⟨blk', hb', hk, hs, hl⟩ := block_of_outlines h.symm hb
    have hspan := hc.span b blk' hb' (hk.trans hkind)
    simpa only [Block.stop, hs, hl] using hspan
  · intro b blk p w f hb hkind hlow hhigh hw hf
    obtain ⟨blk', hb', hk, hs, hl⟩ := block_of_outlines h.symm hb
    refine hc.branch b blk' p w f hb' (hk.trans hkind) ?_ ?_ hw hf
    · rwa [hs]
    · simpa only [Block.stop, hs, hl] using hhigh
  · intro p w f hw hf hj
    obtain ⟨t, tblk, ht, hkind, hstart⟩ := hc.target p w f hw hf hj
    obtain ⟨tblk', ht', hk, hs, _⟩ := block_of_outlines h ht
    exact ⟨t, tblk', ht', hk.trans hkind, hs.trans hstart⟩

/-- Block `b` is linked: that of a helper to the next block, a basic one as its last
    instruction says. -/
structure Linked (c : Compilation) (b : Nat) (blk : Block) : Prop where
  call : blk.kind = .call → blk.taken = [] ∧ blk.fall = some ((b : Int) + 1)
  basic : blk.kind = .basic → ∃ (id : Nat) (i : Instr) (f : Fields) (t : Int),
    blk.body[blk.body.size - 1]? = some id ∧ c.store[id]? = some i ∧ Fields.decode i.word = .ok f
      ∧ (f.isJump = true → i.jumpsTo = some t)
      ∧ (blk.taken, blk.fall) = linksOf c.blocks.size b f t

theorem linked_of_ends (hcall : blk.kind ≠ .call) (hbasic : blk.kind ≠ .basic) : Linked c b blk :=
  ⟨fun h => absurd h hcall, fun h => absurd h hbasic⟩

theorem Linked.mono (h : Linked c b blk) (hd : Grows b' c d) : Linked d b blk := by
  refine ⟨h.call, ?_⟩
  intro hkind
  obtain ⟨id, i, f, t, hid, hi, hf, hjump, hlinks⟩ := h.basic hkind
  have hsize : d.blocks.size = c.blocks.size := by
    have := congrArg Array.size hd.outlines
    simpa using this
  exact ⟨id, i, f, t, hid, hd.old id i hi, hf, hjump, by rw [hsize]; exact hlinks⟩

theorem standsFor_jumpsTo (h : i.StandsFor words p) (t : Option Int) :
    ({ i with jumpsTo := t } : Instr).StandsFor words p :=
  ⟨h.word, h.position, h.operands⟩

theorem linked_last (hcut : CutWell words c.blocks) (hblk : c.blocks[b]? = some blk)
    (hkind : blk.kind = .basic) (htaken : blk.taken = [])
    (hid : blk.body[blk.body.size - 1]? = some id) (hi : c.store[id]? = some i)
    (hstands : i.StandsFor words p) (hfresh : i.Unmarked) (hp : (p : Int) + 1 = blk.stop) :
    ∃ store taken fall, Runs (linkBlock b) c ()
        { c with store, blocks := c.blocks.setIfInBounds b { blk with taken, fall } }
      ∧ (∀ k : Nat, k ≠ id → store[k]? = c.store[k]?)
      ∧ (∀ x ∈ taken, 0 ≤ x) ∧ (∀ x, fall = some x → 0 ≤ x)
      ∧ ∃ (i' : Instr) (f : Fields) (t : Nat), store[id]? = some i' ∧ i'.StandsFor words p
        ∧ i'.Unmarked ∧ Fields.decode i'.word = .ok f ∧ (taken, fall) = linksOf c.blocks.size b f t
        ∧ (f.isJump = true → i'.jumpsTo = some (t : Int) ∧ ∃ tblk, c.blocks[t]? = some tblk
          ∧ tblk.kind = .basic ∧ tblk.start = blk.stop + f.offset) := by
  obtain ⟨f, hf, _⟩ := hstands.operands
  obtain ⟨t, tblk, htarget⟩ : ∃ (t : Nat) (tblk : Block), f.isJump = true →
      c.blocks[t]? = some tblk ∧ tblk.kind = .basic ∧ tblk.start = blk.stop + f.offset := by
    by_cases hj : f.isJump = true
    · obtain ⟨t, tblk, ht, hk, hto⟩ := hcut.target p i.word f hstands.word hf hj
      exact ⟨t, tblk, fun _ => ⟨ht, hk, by omega⟩⟩
    · exact ⟨0, blk, fun h => absurd h hj⟩
  have hb : b < c.blocks.size := lt_size hblk
  obtain ⟨hnonneg, hnonneg'⟩ := linksOf_nonneg (b := b) (f := f) (Nat.zero_lt_of_lt hb)
    (Int.natCast_nonneg t)
  have hlink := linkBlock_runs hcut.ordered hblk hkind hid hi hf htarget
  rw [htaken, List.nil_append] at hlink
  refine ⟨_, _, _, hlink, ?_, hnonneg, hnonneg', ?_⟩
  · intro k hk
    split
    · exact Array.getElem?_setIfInBounds_ne (Ne.symm hk)
    · rfl
  · split
    · next hj =>
      have hlt : id < c.store.size := lt_size hi
      exact ⟨_, f, t, Array.getElem?_setIfInBounds_self_of_lt hlt, standsFor_jumpsTo hstands _,
        hfresh, hf, rfl, fun _ => ⟨rfl, tblk, htarget hj⟩⟩
    · next hj => exact ⟨i, f, t, hi, hstands, hfresh, hf, rfl, fun h => absurd h hj⟩

/-- Nothing is placed: every instruction has its position as its row. -/
def Fresh (schedule : Array Place) : Prop :=
  ∀ (q : Nat) (pl : Place), schedule[q]? = some pl → pl.time = q ∧ pl.lane = none

/-- A block with its instructions, which are kept under the numbers from `n` on. -/
def filled (blk : Block) (n : Nat) : Block :=
  { blk with body := ((List.range blk.len.toNat).map (n + ·)).toArray }

variable {n : Nat}

theorem size_filled : (filled blk n).body.size = blk.len.toNat := by simp [filled]

theorem getElem?_filled :
    (filled blk n).body[k]? = some id ↔ k < blk.len.toNat ∧ id = n + k := by
  by_cases hk : k < blk.len.toNat <;> simp [filled, hk, eq_comm (a := id)]

/-- A block holds instructions that stand for its words, if the last one knows where it
    leads. -/
theorem holds_filled {taken : List Int} {fall : Option Int}
    (hcut : CutWell words c.blocks) (hblk : c.blocks[b]? = some blk) (hkind : blk.kind = .basic)
    (hinstr : ∀ k, k < blk.len.toNat → ∃ i : Instr, d.store[n + k]? = some i
      ∧ i.StandsFor words (blk.start.toNat + k) ∧ Q i)
    (hjump : ∀ (i : Instr) (f : Fields), d.store[n + (blk.len.toNat - 1)]? = some i →
      Fields.decode i.word = .ok f → f.isJump = true →
      ∃ (t : Nat) (tblk : Block), i.jumpsTo = some (t : Int) ∧ d.blocks[t]? = some tblk
        ∧ tblk.kind = .basic ∧ tblk.start = blk.stop + f.offset)
    (hplace : ∀ k, k < blk.len.toNat → d.schedule[blk.start.toNat + k]? =
      some { block := some (b : Int), time := (blk.start.toNat + k : Nat) })
    (htaken : ∀ t ∈ taken, 0 ≤ t) (hfall : ∀ t, fall = some t → 0 ≤ t) :
    Holds Q words d b { filled blk n with taken, fall } := by
  obtain ⟨hstart, hlt, -⟩ := hcut.span b blk hblk hkind
  unfold Block.stop at hlt hjump
  refine ⟨size_filled, ?_, ?_, fun k hk => hplace k (size_filled ▸ hk), htaken, hfall⟩
  · intro k id hid
    obtain ⟨hk, rfl⟩ := getElem?_filled.mp hid
    exact hinstr k hk
  · intro k id i f hid hi hf hj
    obtain ⟨hk, rfl⟩ := getElem?_filled.mp hid
    by_cases hlast : k = blk.len.toNat - 1
    · subst hlast
      obtain ⟨t, tblk, hto, ht, htkind, htstart⟩ := hjump i f hi hf hj
      refine ⟨t, tblk, hto, ht, htkind, ?_⟩
      show _ = blk.start + _ + 1 + f.offset
      omega
    · -- only the last instruction of a block is a branch
      obtain ⟨i', hi', hstands, _⟩ := hinstr k hk
      obtain rfl := Option.mem_unique hi' hi
      have hno := hcut.branch b blk (blk.start.toNat + k) i'.word f hblk hkind (by omega)
        (by unfold Block.stop; omega) hstands.word hf
      rw [(isBranch_iff f).mpr (.inl hj)] at hno
      cases hno

theorem Filled.place (hs : Filled c b p blk n s) (hfresh : Fresh c.schedule) (hk : k < n) :
    s.schedule[p + k]? = some { block := some (b : Int), time := (p + k : Nat) } := by
  have hin := Array.getElem?_eq_getElem (hs.inside k hk)
  obtain ⟨htime, hlane⟩ := hfresh _ _ hin
  rw [hs.schedule, if_pos (by omega), hin, Option.map_some, htime, hlane]

/-- A basic block whose instructions have been parsed can be linked, and then holds
    them. -/
theorem Filled.link (hcut : CutWell c.words c.blocks) (hblk : c.blocks[b]? = some blk)
    (hblank : blk = cutBlock blk.start blk.stop) (hfresh : Fresh c.schedule)
    (hs : Filled c b blk.start.toNat blk blk.len.toNat s) :
    ∃ d, Runs (linkBlock b) s () d ∧ Grows b c d ∧ d.schedule = s.schedule
      ∧ ∃ blk', d.blocks[b]? = some blk' ∧ Holds Instr.Unmarked c.words d b blk'
        ∧ Linked d b blk' := by
  have hkind : blk.kind = .basic := by rw [hblank]; rfl
  obtain ⟨hstart, hlt, -⟩ := hcut.span b blk hblk hkind
  unfold Block.stop at hlt
  have hsblocks : s.blocks = c.blocks.setIfInBounds b (filled blk c.store.size) := by
    rw [hs.blocks, filled, show blk.body = #[] by rw [hblank]; rfl, Array.empty_append]
  have hsblk : s.blocks[b]? = some (filled blk c.store.size) := by
    rw [hsblocks, Array.getElem?_setIfInBounds_self_of_lt (lt_size hblk)]
  have hsouts : s.blocks.map outline = c.blocks.map outline := by
    rw [hsblocks]
    exact outlines_set hblk rfl
  -- the last instruction decides about the links
  obtain ⟨i, hi, hstands, hplain⟩ := hs.new (blk.len.toNat - 1) (by omega)
  have hlast : (filled blk c.store.size).body[(filled blk c.store.size).body.size - 1]? =
      some (c.store.size + (blk.len.toNat - 1)) := by
    rw [size_filled]
    exact getElem?_filled.mpr ⟨by omega, rfl⟩
  obtain ⟨store, taken, fall, hrun, hothers, htakens, hfalls, i', f', t, hi', hstands', hplain',
      hf', hlinks, hjump⟩ := linked_last (hcut.of_outlines hsouts) hsblk hkind
    (by rw [hblank]; rfl) hlast hi hstands hplain
    (by show _ = blk.start + blk.len; omega)
  have houts : (s.blocks.setIfInBounds b { filled blk c.store.size with taken, fall }).map outline
      = s.blocks.map outline := outlines_set hsblk rfl
  refine ⟨_, hrun, ⟨by rw [hs.rest], ?_, ?_, houts.trans hsouts⟩, rfl, _,
    Array.getElem?_setIfInBounds_self_of_lt (lt_size hsblk),
    holds_filled hcut hblk hkind ?_ ?_ (fun k => hs.place hfresh) htakens hfalls, ⟨?_, ?_⟩⟩
  · intro id j hj
    have hlt : id < c.store.size := lt_size hj
    exact (hothers id (by omega)).trans (hs.old id j hj)
  · intro b' hne
    rw [Array.getElem?_setIfInBounds_ne (Ne.symm hne), hsblocks,
      Array.getElem?_setIfInBounds_ne (Ne.symm hne)]
  · -- the other instructions are as they were parsed
    intro k hk
    by_cases heq : k = blk.len.toNat - 1
    · subst heq
      exact ⟨i', hi', hstands', hplain'⟩
    · rw [hothers _ (by omega)]
      exact hs.new k hk
  · intro j f hj hf hjmp
    obtain rfl := Option.mem_unique hi' hj
    obtain rfl := Except.ok.inj (hf'.symm.trans hf)
    obtain ⟨hto, tblk, ht, htkind, htstart⟩ := hjump hjmp
    obtain ⟨tblk', ht', hk', hs', _⟩ := block_of_outlines houts ht
    exact ⟨t, tblk', hto, ht', hk'.trans htkind, hs'.trans htstart⟩
  · intro hcall
    exact absurd (hkind.symm.trans hcall) (by decide)
  · intro _
    refine ⟨_, i', f', t, hlast, hi', hf', fun hj => (hjump hj).1, ?_⟩
    rw [hlinks, Array.size_setIfInBounds]

/-! ## Parsing all blocks -/

theorem block_between (h : (Block.entry :: (middle ++ [exitAt size])).toArray[b]? = some blk) :
    b = 0 ∧ blk = Block.entry ∨ 0 < b ∧ b ≤ middle.length ∧ blk ∈ middle
      ∨ b = middle.length + 1 ∧ blk = exitAt size := by
  rw [List.getElem?_toArray] at h
  rcases b with _ | b
  · exact .inl ⟨rfl, (Option.some.inj h).symm⟩
  rw [List.getElem?_cons_succ] at h
  by_cases hb : b < middle.length
  · rw [List.getElem?_append_left hb] at h
    exact .inr (.inl ⟨by omega, by omega, List.mem_of_getElem? h⟩)
  · rw [List.getElem?_append_right (by omega)] at h
    obtain ⟨hlt, heq⟩ := List.getElem?_eq_some_iff.mp h
    rw [List.length_singleton] at hlt
    simp only [List.getElem_singleton] at heq
    exact .inr (.inr ⟨by omega, heq.symm⟩)

/-- A program that is cut into blocks, which have not been parsed. -/
structure Blank (middle : List Block) (c : Compilation) : Prop where
  cut : CutWell c.words c.blocks
  blocks : c.blocks = (Block.entry :: (middle ++ [exitAt c.words.size])).toArray
  between : ∀ blk ∈ middle, blk = cutBlock blk.start blk.stop ∨ blk = helperBlock blk.start
  fresh : Fresh c.schedule

/-- A block without instructions, now and when it is parsed. -/
def Unfilled (blk : Block) : Prop := blk.len = 0 ∧ blk.body = #[]

theorem Blank.basic_or_unfilled (h : Blank middle c) (hblk : c.blocks[b]? = some blk) :
    blk.kind = .basic ∨ Unfilled blk := by
  rw [h.blocks] at hblk
  rcases block_between hblk with ⟨-, rfl⟩ | ⟨-, -, hin⟩ | ⟨-, rfl⟩
  · exact .inr ⟨rfl, rfl⟩
  · rcases h.between blk hin with heq | heq
    · exact .inl (by rw [heq]; rfl)
    · exact .inr (by rw [heq]; exact ⟨rfl, rfl⟩)
  · exact .inr ⟨rfl, rfl⟩

/-- The first `k` blocks after the entry have been parsed; the others are as they were
    cut. -/
structure ParsedTo (c : Compilation) (k : Nat) (d : Compilation) : Prop where
  rest : d = { c with store := d.store, blocks := d.blocks, schedule := d.schedule }
  outlines : d.blocks.map outline = c.blocks.map outline
  done : ∀ (b : Nat) (blk : Block), b ≤ k → d.blocks[b]? = some blk → blk.kind = .basic →
    Holds Instr.Unmarked c.words d b blk
  linked : ∀ (b : Nat) (blk : Block), b ≤ k → d.blocks[b]? = some blk → Linked d b blk
  unfilled : ∀ (b : Nat) (blk : Block), d.blocks[b]? = some blk → blk.kind = .basic ∨ Unfilled blk
  entry : d.blocks[0]? = some Block.entry
  later : ∀ b : Nat, k < b → d.blocks[b]? = c.blocks[b]?
  fresh : Fresh d.schedule
  size : d.schedule.size = c.schedule.size

/-- A block that grew leaves the blocks before it as they are. -/
theorem ParsedTo.grow (hd : ParsedTo c k d) (hcut : CutWell c.words c.blocks)
    (hgrows : Grows (k + 1) d e) (hblk : e.blocks[k + 1]? = some blk)
    (hplaces : ∀ q : Nat, (q : Int) < blk.start → e.schedule[q]? = d.schedule[q]?)
    (hholds : blk.kind = .basic → Holds Instr.Unmarked c.words e (k + 1) blk)
    (hlinked : Linked e (k + 1) blk) (hfresh : Fresh e.schedule)
    (hsize : e.schedule.size = d.schedule.size)
    (hkind : blk.kind = .basic ∨ Unfilled blk ∧ e.schedule = d.schedule) :
    ParsedTo c (k + 1) e := by
  have houts : e.blocks.map outline = c.blocks.map outline := hgrows.outlines.trans hd.outlines
  have hcut' := hcut.of_outlines houts
  have hcase : ∀ {b : Nat} {x : Block}, e.blocks[b]? = some x →
      b = k + 1 ∧ x = blk ∨ b ≠ k + 1 ∧ d.blocks[b]? = some x := by
    intro b x hx
    by_cases hbk : b = k + 1
    · exact .inl ⟨hbk, Option.mem_unique hx (hbk ▸ hblk)⟩
    · exact .inr ⟨hbk, (hgrows.others b hbk).symm.trans hx⟩
  refine ⟨?_, houts, ?_, ?_, ?_, ?_, ?_, hfresh, hsize.trans hd.size⟩
  · rw [hgrows.rest, hd.rest]
  · intro b x hb hx hk
    rcases hcase hx with ⟨rfl, rfl⟩ | ⟨hne, hold⟩
    · exact hholds hk
    have hold := hd.done b x (by omega) hold hk
    refine hold.mono hgrows ?_
    intro n hn
    rcases hkind with hkind | ⟨-, hsame⟩
    · refine hplaces _ ?_
      -- an earlier block ends before the start of this one
      obtain ⟨hb₁, hget₁⟩ := Array.getElem?_eq_some_iff.mp hx
      obtain ⟨hb₂, hget₂⟩ := Array.getElem?_eq_some_iff.mp hblk
      have hprec := List.pairwise_iff_getElem.mp hcut'.ordered b (k + 1) (by simpa) (by simpa)
        (by omega)
      simp only [Array.getElem_toList, hget₁, hget₂] at hprec
      have hstop := (hprec.2 hkind).2
      have hspan := hcut'.span b x hx hk
      rw [hold.size] at hn
      unfold Block.stop at hstop hspan
      omega
    · rw [hsame]
  · intro b x hb hx
    rcases hcase hx with ⟨rfl, rfl⟩ | ⟨hne, hold⟩
    · exact hlinked
    · exact (hd.linked b x (by omega) hold).mono hgrows
  · intro b x hx
    rcases hcase hx with ⟨rfl, rfl⟩ | ⟨-, hold⟩
    · exact hkind.imp_right And.left
    · exact hd.unfilled b x hold
  · rw [hgrows.others 0 (by omega)]
    exact hd.entry
  · intro b hb
    rw [hgrows.others b (by omega)]
    exact hd.later b (by omega)

/-- Once the body of the next block is parsed it can be linked, whichever kind it has. -/
theorem ParsedTo.parseBlock_runs (hd : ParsedTo c k d) (hc : Blank middle c)
    (hblk : c.blocks[k + 1]? = some blk) (hin : blk ∈ middle)
    (hbody : Runs ((List.range blk.len.toNat).forM fun (n : Nat) =>
      parseInto ((k + 1 : Nat) : Int) (blk.start + n)) d u s) :
    ∃ e, Runs (parseBlock ((k + 1 : Nat) : Int)) d () e ∧ ParsedTo c (k + 1) e := by
  have hdblk : d.blocks[k + 1]? = some blk := (hd.later (k + 1) (by omega)).trans hblk
  have hdwords : d.words = c.words := by rw [hd.rest]
  unfold parseBlock
  simp only [runs_block_bind, Position.get_natCast, hdblk, Option.some.injEq, exists_eq_left']
  rcases hc.between blk hin with hblank | hblank
  · have hkind : blk.kind = .basic := by rw [hblank]; rfl
    have hcutd : CutWell d.words d.blocks := hdwords ▸ hc.cut.of_outlines hd.outlines
    have hs := runs_parseBody hdblk (hc.cut.span _ blk hblk hkind).1 hbody
    obtain ⟨e, hlink, hgrows, hsched, blk', hblk', hholds, hlinked⟩ :=
      hs.link hcutd hdblk hblank hd.fresh
    obtain ⟨hk', hs', hl'⟩ : blk'.kind = blk.kind ∧ blk'.start = blk.start
        ∧ blk'.len = blk.len := by
      obtain ⟨x, hx, heq⟩ := block_of_outlines hgrows.outlines hdblk
      obtain rfl := Option.mem_unique hblk' hx
      exact heq
    rw [hdwords] at hholds
    refine ⟨e, runs_bind.mpr ⟨(), s, hbody, hlink⟩, hd.grow hc.cut hgrows hblk' ?_ (fun _ => hholds)
      hlinked ?_ ?_ (.inl (hk'.trans hkind))⟩
    · intro q hq
      rw [hsched, hs.schedule, if_neg (by omega)]
    · intro q pl hpl
      rw [hsched, hs.schedule] at hpl
      split at hpl
      · obtain ⟨pl', hpl', rfl⟩ := Option.map_eq_some_iff.mp hpl
        exact hd.fresh q pl' hpl'
      · exact hd.fresh q pl hpl
    · rw [hsched]
      exact hs.places
  · -- the block of a helper has no instructions
    obtain ⟨hkind, hempty⟩ : blk.kind = .call ∧ Unfilled blk := by
      rw [hblank]
      exact ⟨rfl, rfl, rfl⟩
    rw [hempty.1] at hbody ⊢
    obtain ⟨_, rfl⟩ := runs_pure.mp hbody
    have hnot : ¬ blk.kind = .basic := by
      rw [hkind]
      decide
    refine ⟨_, runs_bind.mpr ⟨(), _, hbody, linkBlock_call_runs hdblk hkind⟩,
      hd.grow hc.cut ⟨rfl, fun _ _ h => h, ?_, outlines_set hdblk rfl⟩
      (Array.getElem?_setIfInBounds_self_of_lt (lt_size hdblk))
      (fun _ _ => rfl) (fun h => absurd h hnot) ⟨fun _ => ⟨rfl, rfl⟩, fun h => absurd h hnot⟩
      hd.fresh rfl (.inr ⟨hempty, rfl⟩)⟩
    intro b' hne
    exact Array.getElem?_setIfInBounds_ne (Ne.symm hne)

theorem Blank.getElem?_middle (hc : Blank middle c) (hk : k < middle.length) :
    c.blocks[k + 1]? = some middle[k] := by
  rw [hc.blocks, List.getElem?_toArray, List.getElem?_cons_succ, List.getElem?_append_left hk]
  exact List.getElem?_eq_getElem hk

theorem ParsedTo.step (hd : ParsedTo c k d) (hc : Blank middle c) (hk : k < middle.length)
    (h : Runs (parseBlock ((k + 1 : Nat) : Int)) d u e) : ParsedTo c (k + 1) e := by
  have hblk := hc.getElem?_middle hk
  have hdblk := (hd.later (k + 1) (by omega)).trans hblk
  have hbody := h
  unfold parseBlock at hbody
  simp only [runs_block_bind, Position.get_natCast, hdblk, Option.some.injEq, exists_eq_left']
    at hbody
  obtain ⟨_, s, hbody, -⟩ := runs_bind.mp hbody
  obtain ⟨e', hrun, he'⟩ := hd.parseBlock_runs hc hblk (List.getElem_mem hk) hbody
  obtain ⟨-, rfl⟩ := h.unique hrun
  exact he'

theorem Blank.parsedTo_zero (h : Blank middle c) : ParsedTo c 0 c := by
  have hentry : c.blocks[0]? = some Block.entry := by simp [h.blocks]
  have hzero : ∀ (b : Nat) (blk : Block), b ≤ 0 → c.blocks[b]? = some blk → blk = Block.entry := by
    intro b blk hb hblk
    obtain rfl : b = 0 := by omega
    exact (Option.mem_unique hentry hblk).symm
  refine ⟨rfl, rfl, ?_, ?_, fun _ _ => h.basic_or_unfilled, hentry, fun _ _ => rfl, h.fresh, rfl⟩
  · intro b blk hb hblk hkind
    obtain rfl := hzero b blk hb hblk
    cases hkind
  · intro b blk hb hblk
    obtain rfl := hzero b blk hb hblk
    exact linked_of_ends (by decide) (by decide)

theorem Blank.parseBlocks_eq (hc : Blank middle c) :
    Runs parseBlocks c u d
      ↔ Runs ((List.range middle.length).forM fun (k : Nat) => parseBlock (k + 1)) c u d := by
  unfold parseBlocks
  rw [runs_get_bind, hc.blocks]
  simp

theorem Blank.parsed (hc : Blank middle c) (h : Runs parseBlocks c u d) :
    ParsedTo c middle.length d := by
  have hloop := runs_forM_induct (fun k t => ParsedTo c k t) (hc.parseBlocks_eq.mp h)
    hc.parsedTo_zero ?_
  · simpa using hloop
  · intro k n s t hn hs hr
    obtain ⟨hk, rfl⟩ := List.getElem?_eq_some_iff.mp hn
    rw [List.length_range] at hk
    rw [List.getElem_range] at hr
    exact hs.step (u := ⟨⟩) hc hk hr

theorem Blank.sorts (hc : Blank middle c) (h : ParsedTo c middle.length d)
    (hblk : d.blocks[b]? = some blk) :
    b = 0 ∧ blk = Block.entry
      ∨ 0 < b ∧ b ≤ middle.length ∧ (blk.kind = .basic ∨ blk.kind = .call)
      ∨ b = middle.length + 1 ∧ blk = exitAt c.words.size := by
  obtain ⟨old, hold, hkind, -⟩ := block_of_outlines h.outlines.symm hblk
  rw [hc.blocks] at hold
  rcases block_between hold with ⟨rfl, -⟩ | ⟨hpos, hle, hin⟩ | ⟨rfl, rfl⟩
  · exact .inl ⟨rfl, Option.mem_unique hblk h.entry⟩
  · refine .inr (.inl ⟨hpos, hle, ?_⟩)
    rw [← hkind]
    rcases hc.between old hin with heq | heq
    · exact .inl (by rw [heq]; rfl)
    · exact .inr (by rw [heq]; rfl)
  · rw [h.later _ (by omega), hc.blocks] at hblk
    exact .inr (.inr ⟨rfl, Option.mem_unique hblk hold⟩)

theorem Blank.done (hc : Blank middle c) (h : ParsedTo c middle.length d)
    (hblk : d.blocks[b]? = some blk) :
    Linked d b blk ∧ (blk.kind = .basic → Holds Instr.Unmarked c.words d b blk) := by
  rcases hc.sorts h hblk with ⟨rfl, -⟩ | ⟨-, hle, -⟩ | ⟨-, rfl⟩
  · exact ⟨h.linked 0 blk (by omega) hblk, h.done 0 blk (by omega) hblk⟩
  · exact ⟨h.linked b blk hle hblk, h.done b blk hle hblk⟩
  · exact ⟨linked_of_ends (by simp [exitAt]) (by simp [exitAt]), by simp [exitAt]⟩

/-! ## The blocks of a program -/

theorem mem_middle (h : blk ∈ Block.entry :: (middle ++ [exitAt size])) (hkind : blk.kind =
    .basic) :
    blk ∈ middle := by
  rcases List.mem_cons.mp h with rfl | h
  · cases hkind
  · rcases List.mem_append.mp h with h | h
    · exact h
    · rw [List.mem_singleton] at h
      rw [h] at hkind
      cases hkind

theorem cutWell_of_spans {starts : List Int} (hcuts : Cuts words starts)
    (hspans : Spans words.size starts middle) :
    CutWell words (Block.entry :: (middle ++ [exitAt words.size])).toArray := by
  have hstart : ∀ blk ∈ middle, 0 ≤ blk.start ∧ blk.start < words.size := by
    intro blk hblk
    exact hcuts.inside _ (hspans.start blk hblk)
  have hmem : ∀ {b : Nat} {blk : Block},
      (Block.entry :: (middle ++ [exitAt words.size])).toArray[b]? = some blk →
      blk.kind = .basic → blk ∈ middle := by
    intro b blk hblk hkind
    rw [List.getElem?_toArray] at hblk
    exact mem_middle (List.mem_of_getElem? hblk) hkind
  constructor
  · refine List.pairwise_cons.mpr ⟨?_, List.pairwise_append.mpr ⟨hspans.ordered, ?_, ?_⟩⟩
    · -- the entry starts and ends before the first position
      intro blk hblk
      have hpos : 0 ≤ blk.start := by
        rcases List.mem_append.mp hblk with hblk | hblk
        · exact (hstart blk hblk).1
        · rw [List.mem_singleton.mp hblk]
          exact Int.natCast_nonneg _
      unfold Precedes Block.stop Block.entry
      dsimp only
      omega
    · exact List.pairwise_singleton _ _
    · intro x hx y hy
      rw [List.mem_singleton.mp hy]
      have hlt := (hstart x hx).2
      refine ⟨?_, ?_⟩
      · unfold exitAt
        dsimp only
        omega
      · intro hkind
        cases hkind
  · intro b blk hblk hkind
    have hin := hmem hblk hkind
    obtain ⟨hlt, hle, _⟩ := hspans.basic blk hin hkind
    exact ⟨(hstart blk hin).1, hlt, hle⟩
  · intro b blk p w f hblk hkind hlow hhigh hw hf
    have hin := hmem hblk hkind
    obtain ⟨_, hle, hcut⟩ := hspans.basic blk hin hkind
    cases hbr : f.isBranch with
    | false => rfl
    | true =>
      -- the position after a branch starts a block
      have hnext := hcuts.branch p w f hw hf hbr (by omega)
      rcases hcut _ hnext with h | h <;> omega
  · intro p w f hw hf hj
    obtain ⟨blk, hblk, hkind, hs⟩ := hspans.leader _ (hcuts.target p w f hw hf hj)
    have hblk' : blk ∈ Block.entry :: (middle ++ [exitAt words.size]) :=
      List.mem_cons_of_mem _ (List.mem_append_left _ hblk)
    obtain ⟨t, ht⟩ := List.mem_iff_getElem?.mp hblk'
    exact ⟨t, blk, by rw [List.getElem?_toArray]; exact ht, hkind, hs⟩

/-- The nodes of a flow graph: every block once, and no negative number. -/
structure Covers (size : Nat) (g : Digraph) : Prop where
  nodup : g.nodes.Nodup
  nonneg : ∀ n ∈ g.nodes, 0 ≤ n
  all : ∀ b, b < size → (b : Int) ∈ g.nodes

theorem graphOf_covers {blocks : List Block}
    (hlinks : ∀ blk ∈ blocks, (∀ t ∈ blk.taken, 0 ≤ t) ∧ ∀ t, blk.fall = some t → 0 ≤ t) :
    Covers blocks.length (graphOf blocks) := by
  refine ⟨Digraph.nodup_nodes_ofLists, ?_, ?_⟩
  · intro n hn
    rcases Digraph.mem_nodes_ofLists.mp hn with hn | ⟨e, he, hn⟩
    · simp only [List.map_map, List.mem_map, Function.comp] at hn
      obtain ⟨x, _, rfl⟩ := hn
      exact Int.natCast_nonneg _
    · obtain ⟨⟨b, blk⟩, hx, he⟩ := List.mem_flatMap.mp he
      obtain ⟨⟨blk', i⟩, hzip, heq⟩ := List.mem_map.mp hx
      obtain ⟨rfl, rfl⟩ : (i : Int) = b ∧ blk' = blk := by simpa using heq
      have hblk := List.mk_mem_zipIdx_iff_getElem?.mp hzip
      obtain ⟨htaken, hfall⟩ := hlinks blk' (List.mem_of_getElem? hblk)
      rcases List.mem_append.mp he with he | he
      · obtain ⟨t, ht, rfl⟩ := List.mem_map.mp he
        rcases hn with rfl | rfl
        · exact Int.natCast_nonneg _
        · exact htaken _ ht
      · obtain ⟨t, ht, rfl⟩ := List.mem_map.mp he
        rcases hn with rfl | rfl
        · exact Int.natCast_nonneg _
        · exact hfall _ (by simpa using ht)
  · intro b hb
    refine Digraph.mem_nodes_ofLists.mpr (.inl ?_)
    simp only [List.map_map, List.mem_map, Function.comp]
    refine ⟨(blocks.get ⟨b, hb⟩, b), ?_, rfl⟩
    exact List.mk_mem_zipIdx_iff_getElem?.mpr (List.getElem?_eq_getElem hb)

/-- A compilation whose blocks are those of a program and whose instructions, which
    all satisfy `Q`, have no place yet. -/
structure Laid (Q : Instr → Prop) (words : Array Word) (c : Compilation) : Prop where
  cut : CutWell words c.blocks
  holds : ∀ (b : Nat) (blk : Block), c.blocks[b]? = some blk → blk.kind = .basic →
    Holds Q words c b blk
  size : c.schedule.size = words.size
  fresh : ∀ (q : Nat) (pl : Place), c.schedule[q]? = some pl → pl.time = q ∧ pl.lane = none
  flow : ∃ g, c.flow = some g ∧ Covers c.blocks.size g

theorem runs_buildGraph (h : Runs buildGraph c u d) :
    ∃ dominators postdominators, d = { c with
      flow := some (graphOf c.blocks.toList), dominators, postdominators } := by
  unfold buildGraph at h
  simp only [runs_get_bind, runs_set_bind] at h
  split at h
  · simp only [runs_lift_bind, runs_modify_bind, runs_modify] at h
    obtain ⟨x, _, y, _, rfl⟩ := h
    exact ⟨x, y, rfl⟩
  · obtain ⟨_, rfl⟩ := runs_pure.mp h
    exact ⟨_, _, rfl⟩

theorem unplaced_fresh : Fresh (unplaced size) := by
  intro q pl h
  unfold unplaced at h
  rw [Array.getElem?_map, Option.map_eq_some_iff] at h
  obtain ⟨n, hn, rfl⟩ := h
  obtain ⟨_, rfl⟩ := Array.getElem?_eq_some_iff.mp hn
  simp

end Flow

/-! ## Cutting and parsing -/

/-- A program that is about to be cut into blocks. -/
structure Optimize.Uncut (c : Compilation) : Prop where
  inside : Flow.NoJumpBefore c.words
  branches : c.branches = {}
  blocks : c.blocks = #[Block.entry]
  schedule : c.schedule = unplaced c.words.size

theorem Optimize.uncut_start {target : Target} {options : Options} {texts : Array String}
    (h : Flow.NoJumpBefore words) : Uncut (start target options words texts) :=
  ⟨h, rfl, rfl, rfl⟩

namespace Flow

open Optimize (Uncut)

variable {c d s : Compilation} {b : Nat} {blk : Block} {u : Unit}

/-- Everything that comes before the flow graph is built. -/
def cutAndParse : CompileM Unit := do
  findBranches
  findBlocks
  parseBlocks

theorem analyse_eq : analyse = cutAndParse >>= fun _ => buildGraph := by
  unfold analyse cutAndParse
  simp only [bind_assoc]

/-- The cut of a program, before its blocks are parsed. -/
structure CutOf (s c : Compilation) (middle : List Block) : Prop where
  blank : Blank middle c
  rest : c = { s with
    branches := c.branches
    blocks := (Block.entry :: (middle ++ [exitAt s.words.size])).toArray }
  listed : Listed s.words s.words.size c.branches
  chain : if leaders s.words.size c.branches = [] then middle = []
    else Chain s.words 0 (middle ++ [exitAt s.words.size])

theorem cutOf_findBlocks {u' : Unit} (hs : Uncut s) (h₁ : Runs findBranches s u c)
    (h₂ : Runs findBlocks c u' d) : ∃ middle, CutOf s d middle := by
  obtain ⟨branches, rfl, hlisted⟩ := runs_findBranches hs.branches h₁
  obtain ⟨starts, middle, hcuts, hspans, hchain, rfl⟩ :=
    runs_findBlocks h₂ hs.blocks (leaders_cuts hs.inside hlisted)
  exact ⟨middle, ⟨cutWell_of_spans hcuts hspans, rfl, hspans.cut, hs.schedule ▸ unplaced_fresh⟩,
    rfl, hlisted, hchain⟩

theorem cutOf_cutAndParse (hs : Uncut s) (h : Runs cutAndParse s u d) :
    ∃ c middle, CutOf s c middle ∧ ParsedTo c middle.length d := by
  obtain ⟨_, c₁, hr₁, h⟩ := runs_bind.mp h
  obtain ⟨_, c, hr₂, hr₃⟩ := runs_bind.mp h
  obtain ⟨middle, hc⟩ := cutOf_findBlocks hs hr₁ hr₂
  exact ⟨c, middle, hc, hc.blank.parsed hr₃⟩

theorem runs_cutAndParse (hs : Uncut s) (h : Runs cutAndParse s u d) :
    Laid Instr.Unmarked s.words { d with flow := some (graphOf d.blocks.toList) }
      ∧ d = { s with
        branches := d.branches, store := d.store, blocks := d.blocks, schedule := d.schedule } := by
  obtain ⟨c, middle, hc, hparsed⟩ := cutOf_cutAndParse hs h
  have hwords : c.words = s.words := by rw [hc.rest]
  have hsched : c.schedule = s.schedule := by rw [hc.rest]
  refine ⟨⟨hwords ▸ hc.blank.cut.of_outlines hparsed.outlines, ?_, ?_, hparsed.fresh, _, rfl, ?_⟩,
    ?_⟩
  · intro b blk hblk hkind
    exact hwords ▸ ((hc.blank.done hparsed hblk).2 hkind).congr rfl rfl rfl
  · show d.schedule.size = s.words.size
    rw [hparsed.size, hsched, hs.schedule]
    simp [unplaced]
  · have hcovers : Covers d.blocks.toList.length (graphOf d.blocks.toList) := graphOf_covers ?_
    · simpa using hcovers
    intro blk hblk
    obtain ⟨b, hb⟩ := List.mem_iff_getElem?.mp hblk
    rw [Array.getElem?_toList] at hb
    obtain ⟨hlinked, hholds⟩ := hc.blank.done hparsed hb
    rcases hc.blank.sorts hparsed hb with ⟨-, rfl⟩ | ⟨-, -, hkind | hkind⟩ | ⟨-, rfl⟩
    · simp [Block.entry]
    · exact ⟨(hholds hkind).taken, (hholds hkind).fall⟩
    · obtain ⟨htaken, hfall⟩ := hlinked.call hkind
      refine ⟨by simp [htaken], ?_⟩
      intro t ht
      obtain rfl := Option.mem_unique hfall ht
      omega
    · simp [exitAt]
  · rw [hparsed.rest, hc.rest]

theorem runs_analyse (hs : Uncut s) (h : Runs analyse s u d) :
    Laid Instr.Unmarked s.words d ∧ d = { s with
      branches := d.branches, store := d.store, blocks := d.blocks, schedule := d.schedule
      flow := d.flow, dominators := d.dominators, postdominators := d.postdominators } := by
  rw [analyse_eq] at h
  obtain ⟨_, c, hr, hg⟩ := runs_bind.mp h
  obtain ⟨hlaid, hrest⟩ := runs_cutAndParse hs hr
  obtain ⟨dominators, postdominators, rfl⟩ := runs_buildGraph hg
  refine ⟨⟨hlaid.cut, ?_, hlaid.size, hlaid.fresh, hlaid.flow⟩, ?_⟩
  · intro b blk hblk hkind
    exact (hlaid.holds b blk hblk hkind).congr rfl rfl rfl
  · rw [hrest]

theorem basic_or_unfilled (hs : Uncut s) (h : Runs analyse s u d) (hblk : blk ∈ d.blocks) :
    blk.kind = .basic ∨ Unfilled blk := by
  rw [analyse_eq] at h
  obtain ⟨_, c, hr, hg⟩ := runs_bind.mp h
  obtain ⟨_, _, rfl⟩ := runs_buildGraph hg
  obtain ⟨_, _, _, hparsed⟩ := cutOf_cutAndParse hs hr
  obtain ⟨b, hb⟩ := Array.mem_iff_getElem?.mp hblk
  exact hparsed.unfilled b blk hb

/-! ## The instructions of a block -/

theorem getElem?_filterMap_total {α β : Type} {f : α → Option β} {xs : List α}
    (h : ∀ x ∈ xs, ∃ y, f x = some y) :
    (∀ k : Nat, (xs.filterMap f)[k]? = xs[k]?.bind f) ∧ (xs.filterMap f).length = xs.length := by
  induction xs with
  | nil => simp
  | cons x xs ih =>
    obtain ⟨y, hy⟩ := h x (by simp)
    obtain ⟨ihget, ihlen⟩ := ih fun x' hx' => h x' (by simp [hx'])
    rw [List.filterMap_cons_some hy]
    refine ⟨?_, by simp [ihlen]⟩
    intro k
    cases k with
    | zero => simp [hy]
    | succ k => simpa using ihget k

section
variable (h : Laid Q words c)
  (hb : c.blocks[b]? = some blk) (hkind : blk.kind = .basic)
include h hb hkind

theorem Laid.in_store : ∀ id ∈ blk.body.toList, ∃ i, c.store[id]? = some i := by
  intro id hid
  obtain ⟨k, hk⟩ := Array.mem_iff_getElem?.mp (Array.mem_toList_iff.mp hid)
  obtain ⟨i, hi, _⟩ := (h.holds b blk hb hkind).instr k id hk
  exact ⟨i, hi⟩

theorem Laid.bodyOf_getElem? (k : Nat) :
    (c.bodyOf blk)[k]? = blk.body[k]?.bind fun id => c.store[id]? := by
  rw [← Array.getElem?_toList]
  exact (getElem?_filterMap_total (h.in_store hb hkind)).1 k

theorem Laid.bodyOf_length : (c.bodyOf blk).length = blk.body.size := by
  unfold bodyOf
  rw [(getElem?_filterMap_total (h.in_store hb hkind)).2, Array.length_toList]

theorem Laid.standsFor_index {k : Nat} (hk : k < blk.body.size) :
    ∃ id i f, blk.body[k]? = some id ∧ c.store[id]? = some i ∧
      i.StandsFor words (blk.start.toNat + k) ∧ Fields.decode i.word = .ok f := by
  have hid : blk.body[k]? = some blk.body[k] := Array.getElem?_eq_getElem hk
  obtain ⟨i, hi, hstands, _⟩ := (h.holds b blk hb hkind).instr k _ hid
  obtain ⟨f, hf, _⟩ := hstands.operands
  exact ⟨_, i, f, hid, hi, hstands, hf⟩

end

end Flow
end BpfLanes
